import Respublica.Crypto.Hash
import Respublica.Foundation.Pairwise

/-!
# Merkle trees in place

A Merkle root is computed twice in the source: as a tree of nodes that own each other, and over
digests alone. Both loops rewrite their array level by level, and both hash through the one hasher
of the thread, whose state is what it was fed since it was last reset.

Either way the root is that of the recursive definition, which splits the values at the largest
power of two below their number. `merkleRoot` of `Crypto.Hash` is the same function without array
and hasher.
-/

namespace Respublica.Crypto

open Foundation Pairwise

/-- What the hasher was fed since its last reset. -/
abbrev Hasher := Bytes

/-- What a Merkle tree is over: digests, or values that are no digests, as the bytes that the hasher
is fed for them. -/
inductive ValueType where
  | plain
  | digest

abbrev ValueType.Value : ValueType → Type
  | .plain => Bytes
  | .digest => Digest

/-- `merkle_node`. A leaf has no children. -/
inductive MerkleNode where
  | leaf (hash : Digest)
  | inner (left right : MerkleNode) (hash : Digest)

def MerkleNode.hash : MerkleNode → Digest
  | .leaf hash => hash
  | .inner _ _ hash => hash

section Loops

variable (hash : Bytes → Digest)

def hasherReset (_ : Hasher) : Hasher := []

def hasherUpdate (bytes : Bytes) (hasher : Hasher) : Hasher := hasher ++ bytes

def hasherFinalize (hasher : Hasher) : Digest := hash hasher

/-- `crypto::hash` of one value. -/
def hashValue (bytes : Bytes) (hasher : Hasher) : Digest × Hasher :=
  let hasher := hasherUpdate bytes (hasherReset hasher)
  (hasherFinalize hash hasher, hasher)

/-- The digest of a leaf: a digest that is taken to be hashed already is its own. -/
def leafDigest : (type : ValueType) → (hashed : Bool) → type.Value → Hasher → Digest × Hasher
  | .digest, true, value, hasher => (value, hasher)
  | .digest, false, value, hasher => hashValue hash value.1 hasher
  | .plain, _, value, hasher => hashValue hash value hasher

/-- The digests of all leaves, one after the other. -/
def leafDigests (type : ValueType) (hashed : Bool) :
    List type.Value → Hasher → List Digest × Hasher
  | [], hasher => ([], hasher)
  | value :: rest, hasher =>
    let first := leafDigest hash type hashed value hasher
    let others := leafDigests type hashed rest first.2
    (first.1 :: others.1, others.2)

/-- Two digests, fed to the hasher one after the other. -/
def combineDigests (left right : Digest) (hasher : Hasher) : Digest × Hasher :=
  let hasher := hasherUpdate right.1 (hasherUpdate left.1 (hasherReset hasher))
  (hasherFinalize hash hasher, hasher)

/-- The constructor of an inner node. It reads the hashes of both children, so neither pointer may
be null. -/
def MerkleNode.make : Option MerkleNode → Option MerkleNode → Hasher →
    Option (Option MerkleNode × Hasher)
  | some left, some right, hasher =>
    let combined := combineDigests hash left.hash right.hash hasher
    some (some (.inner left right combined.1), combined.2)
  | _, _, _ => none

/-- `merkle_tree::create`. Nodes are moved out of the array, which leaves null pointers. -/
def merkleTreeCreate (type : ValueType) (hashed : Bool) (values : List type.Value)
    (hasher : Hasher) : Option (MerkleNode × Hasher) :=
  if values.length = 0 then some (.leaf (SizedBytes.zero 32), hasher)
  else do
    let leafs := leafDigests hash type hashed values hasher
    let nodes := (leafs.1.map MerkleNode.leaf).map some
    let reduced ← reduce (MerkleNode.make hash) (fun _ => none) nodes.length nodes.length nodes
      leafs.2
    let front ← reduced.1[0]?
    let root ← front
    pure (root, reduced.2)

/-- The body of the loop over digests, which cannot fail. -/
def combineCopies (left right : Digest) (hasher : Hasher) : Option (Digest × Hasher) :=
  some (combineDigests hash left right hasher)

/-- `merkle_root`. Digests are copied out of the array. -/
def merkleRootInPlace (type : ValueType) (hashed : Bool) (values : List type.Value)
    (hasher : Hasher) : Option (Digest × Hasher) :=
  if values.length = 0 then some (SizedBytes.zero 32, hasher)
  else do
    let nodes := leafDigests hash type hashed values hasher
    let reduced ← reduce (combineCopies hash) id nodes.1.length nodes.1.length nodes.1 nodes.2
    let front ← reduced.1[0]?
    pure (front, reduced.2)

/-- What a leaf stands for, without the hasher. -/
def leafOf : (type : ValueType) → (hashed : Bool) → type.Value → Digest
  | .digest, true, value => value
  | .digest, false, value => hash value.1
  | .plain, _, value => hash value

/-- The digest of two digests, without the hasher. -/
def parentOf (left right : Digest) : Digest := hash (left.1 ++ right.1)

/-- The recursive definition: hash a single leaf, and combine the roots of the first values, as many
as the largest power of two below their number, and of the others. -/
def recursiveRoot (type : ValueType) (hashed : Bool) (values : List type.Value) : Digest :=
  splitFold (leafOf hash type hashed) (parentOf hash) (SizedBytes.zero 32) values

end Loops

section Roots

variable {hash : Bytes → Digest} {type : ValueType} {hashed : Bool}

theorem leafDigest_fst (value : type.Value) (hasher : Hasher) :
    (leafDigest hash type hashed value hasher).1 = leafOf hash type hashed value := by
  cases type <;> cases hashed <;> rfl

/-- The digests of the leaves do not depend on the hasher. -/
theorem leafDigests_fst (values : List type.Value) (hasher : Hasher) :
    (leafDigests hash type hashed values hasher).1 = values.map (leafOf hash type hashed) := by
  induction values generalizing hasher with
  | nil => rfl
  | cons value rest ih =>
    rw [List.map_cons, ← ih (leafDigest hash type hashed value hasher).2,
      ← leafDigest_fst value hasher]
    rfl

/-- The root of the digests of leaves is the recursive one. -/
theorem splitFold_leafs (values : List type.Value) :
    splitFold id (parentOf hash) (SizedBytes.zero 32) (values.map (leafOf hash type hashed)) =
      recursiveRoot hash type hashed values := by
  have combines (left right : Digest) :
      id (parentOf hash left right) = parentOf hash (id left) (id right) := rfl
  exact (map_splitFold id (leafOf hash type hashed) (fun _ => rfl) combines values).symm

/-- The root that is computed in place is the recursive one. -/
theorem merkleRootInPlace_eq (values : List type.Value) (hasher : Hasher) :
    ∃ after, merkleRootInPlace hash type hashed values hasher =
      some (recursiveRoot hash type hashed values, after) := by
  rcases eq_or_ne values [] with rfl | present
  · refine ⟨hasher, ?_⟩
    rw [merkleRootInPlace, recursiveRoot, splitFold]
    rfl
  · -- Whatever the hasher was fed before, it is reset first.
    have combines (left right : Digest) (state : Hasher) :
        ∃ after, combineCopies hash (id left) (id right) state =
          some (id (parentOf hash left right), after) := ⟨_, rfl⟩
    have leafs : values.map (leafOf hash type hashed) ≠ [] := by simpa using present
    obtain ⟨last, after, reduced, first⟩ := reduce_map id combines (SizedBytes.zero 32) leafs
      (leafDigests hash type hashed values hasher).2
    rw [List.map_id] at reduced
    rw [splitFold_leafs] at first
    refine ⟨after, ?_⟩
    rw [merkleRootInPlace, if_neg (by simpa using present)]
    simp only [leafDigests_fst]
    rw [reduced]
    simp only [Option.bind_eq_bind, Option.bind_some, first]
    rfl

/-- A node made of two others, without the hasher. -/
def MerkleNode.join (hash : Bytes → Digest) (left right : MerkleNode) : MerkleNode :=
  .inner left right (parentOf hash left.hash right.hash)

/-- The hash of a folded tree is the fold of its hashes. -/
theorem hash_splitFold (digests : List Digest) :
    (splitFold id (MerkleNode.join hash) (.leaf (SizedBytes.zero 32))
      (digests.map MerkleNode.leaf)).hash =
        splitFold id (parentOf hash) (SizedBytes.zero 32) digests := by
  have leafs (node : MerkleNode) : (id node).hash = id node.hash := rfl
  have combines (left right : MerkleNode) :
      (MerkleNode.join hash left right).hash = parentOf hash left.hash right.hash := rfl
  rw [map_splitFold MerkleNode.hash MerkleNode.hash leafs combines, List.map_map]
  exact congrArg (splitFold id (parentOf hash) (SizedBytes.zero 32)) (List.map_id digests)

/-- The tree that is created has the recursive root. -/
theorem merkleTreeCreate_eq (values : List type.Value) (hasher : Hasher) :
    ∃ root after, merkleTreeCreate hash type hashed values hasher = some (root, after) ∧
      root.hash = recursiveRoot hash type hashed values := by
  rcases eq_or_ne values [] with rfl | present
  · refine ⟨.leaf (SizedBytes.zero 32), hasher, rfl, ?_⟩
    rw [recursiveRoot, splitFold]
    rfl
  · have combines (left right : MerkleNode) (state : Hasher) :
        ∃ after, MerkleNode.make hash (some left) (some right) state =
          some (some (MerkleNode.join hash left right), after) := ⟨_, rfl⟩
    have leafs : (values.map (leafOf hash type hashed)).map MerkleNode.leaf ≠ [] := by
      simpa using present
    obtain ⟨last, after, reduced, first⟩ := reduce_map (fun _ => none) combines
      (.leaf (SizedBytes.zero 32)) leafs (leafDigests hash type hashed values hasher).2
    refine ⟨_, after, ?_, (hash_splitFold _).trans (splitFold_leafs values)⟩
    rw [merkleTreeCreate, if_neg (by simpa using present)]
    simp only [leafDigests_fst, List.length_map] at reduced ⊢
    rw [reduced]
    simp only [Option.bind_eq_bind, Option.bind_some, first]
    rfl

/-- `merkleRoot` reduces the digests of its leaves by the same levels. -/
theorem merkleLevel_eq_pairUp (nodes : List Digest) :
    merkleLevel hash nodes = pairUp (parentOf hash) nodes := by
  fun_induction merkleLevel hash nodes with
  | case1 left right rest ih =>
    rw [pairUp, ih]
    rfl
  | case2 nodes single =>
    rw [pairUp]
    exact single

/-- Reducing by levels is folding by halves. -/
theorem merkleReduce_eq_splitFold {passes : Nat} {nodes : List Digest}
    (enough : nodes.length ≤ passes) :
    merkleReduce hash passes nodes =
      splitFold id (parentOf hash) (SizedBytes.zero 32) nodes := by
  induction passes generalizing nodes with
  | zero =>
    obtain rfl := List.eq_nil_of_length_eq_zero (Nat.le_zero.mp enough)
    rw [splitFold]
    rfl
  | succ passes ih =>
    cases nodes with
    | nil =>
      rw [splitFold]
      rfl
    | cons left others =>
      cases others with
      | nil =>
        rw [splitFold]
        rfl
      | cons right rest =>
        have fewer : (merkleLevel hash (left :: right :: rest)).length ≤ passes := by
          rw [length_merkleLevel]
          simp only [List.length_cons] at enough ⊢
          omega
        change merkleReduce hash passes (merkleLevel hash (left :: right :: rest)) = _
        rw [ih fewer, merkleLevel_eq_pairUp, splitFold_pairUp]

/-- The root that state deltas are described with is the recursive one, too. -/
theorem merkleRoot_eq_recursiveRoot (values : List Bytes) :
    merkleRoot hash values = recursiveRoot hash .plain hashed values := by
  have leafs : values.map (leafOf hash .plain hashed) = values.map hash := rfl
  rw [← splitFold_leafs, leafs, merkleRoot, merkleReduce_eq_splitFold (by simp)]

/-- Both loops return, from whatever state of the hasher, and both roots are the recursive one; for
no values that is the zero digest. -/
theorem merkle_roots_agree (hash : Bytes → Digest) (type : ValueType) (hashed : Bool) :
    (∀ (values : List type.Value) (hasher other : Hasher), ∃ root digest after afterOther,
      merkleTreeCreate hash type hashed values hasher = some (root, after) ∧
        merkleRootInPlace hash type hashed values other = some (digest, afterOther) ∧
        root.hash = digest ∧ digest = recursiveRoot hash type hashed values) ∧
      recursiveRoot hash type hashed [] = SizedBytes.zero 32 := by
  refine ⟨fun values hasher other => ?_, by rw [recursiveRoot, splitFold]⟩
  obtain ⟨root, after, created, hashes⟩ : ∃ root after,
      merkleTreeCreate hash type hashed values hasher = some (root, after) ∧ _ :=
    merkleTreeCreate_eq values hasher
  obtain ⟨afterOther, computed⟩ : ∃ after,
      merkleRootInPlace hash type hashed values other = some (_, after) :=
    merkleRootInPlace_eq values other
  exact ⟨root, _, after, afterOther, created, computed, hashes, rfl⟩

end Roots

end Respublica.Crypto
