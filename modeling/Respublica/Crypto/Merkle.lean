import Mathlib.Algebra.BigOperators.Group.List.Basic
import Mathlib.Data.List.Count
import Mathlib.Data.Nat.ModEq
import Respublica.Crypto.Hash

/-!
# What Merkle roots tell apart

Leaves and inner nodes are hashed alike, so a leaf as long as two digests can pass for an
inner node. Without such leaves, and without collisions among the strings that are hashed,
a root determines its leaves.

In the other direction, a hash that adds weights tells a list of leaves from a longer list
with the same leaves and more.
-/

namespace Respublica.Crypto

open Foundation

/-- The shape of a reduction: which digests were hashed together. -/
inductive MerkleTree where
  | leaf (value : Bytes)
  | node (left right : MerkleTree)

namespace MerkleTree

variable (hash : Bytes → Digest)

def digest : MerkleTree → Digest
  | .leaf value => hash value
  | .node left right => hash ((digest left).1 ++ (digest right).1)

/-- The string whose hash is the digest. -/
def message : MerkleTree → Bytes
  | .leaf value => value
  | .node left right => (digest hash left).1 ++ (digest hash right).1

/-- All strings hashed for the digest. -/
def messages : MerkleTree → List Bytes
  | .leaf value => [value]
  | .node left right => message hash (.node left right) :: (messages left ++ messages right)

def leafs : MerkleTree → List Bytes
  | .leaf value => [value]
  | .node left right => leafs left ++ leafs right

variable {hash}

theorem digest_eq (tree : MerkleTree) : tree.digest hash = hash (tree.message hash) := by
  cases tree <;> rfl

theorem message_mem_messages (tree : MerkleTree) : tree.message hash ∈ tree.messages hash := by
  cases tree <;> simp [message, messages]

theorem length_message_node (left right : MerkleTree) :
    (message hash (.node left right)).length = 64 := by
  simp [message, (digest hash left).2, (digest hash right).2]

variable {tree other : MerkleTree} {trees : List MerkleTree} {values : List Bytes}

/-- Without collisions among their messages, trees with one digest have one message. -/
theorem message_eq_of_digest_eq
    (injective : Set.InjOn hash {text | text ∈ tree.messages hash ∨ text ∈ other.messages hash})
    (same : tree.digest hash = other.digest hash) : tree.message hash = other.message hash := by
  rw [digest_eq, digest_eq] at same
  exact injective (.inl (message_mem_messages tree)) (.inr (message_mem_messages other)) same

/-- Leaves cannot pass for inner nodes and messages do not collide: the digest determines
the tree. -/
theorem eq_of_digest_eq
    (injective : Set.InjOn hash {text | text ∈ tree.messages hash ∨ text ∈ other.messages hash})
    (short : ∀ value ∈ tree.leafs ++ other.leafs, value.length ≠ 64)
    (same : tree.digest hash = other.digest hash) : tree = other := by
  induction tree generalizing other with
  | leaf value =>
    have sameMessage := message_eq_of_digest_eq injective same
    cases other with
    | leaf otherValue => exact congrArg leaf sameMessage
    | node left right =>
      refine absurd ?_ (short value (by simp [leafs]))
      rw [show value = message hash (.node left right) from sameMessage, length_message_node]
  | node left right leftInduction rightInduction =>
    have sameMessage := message_eq_of_digest_eq injective same
    cases other with
    | leaf otherValue =>
      refine absurd ?_ (short otherValue (by simp [leafs]))
      rw [show otherValue = message hash (.node left right) from sameMessage.symm,
        length_message_node]
    | node otherLeft otherRight =>
      have widths : (digest hash left).1.length = (digest hash otherLeft).1.length := by
        rw [(digest hash left).2, (digest hash otherLeft).2]
      obtain ⟨sameLeft, sameRight⟩ := List.append_inj sameMessage widths
      have leftEqual : left = otherLeft := by
        refine leftInduction (injective.mono ?_) ?_ (SizedBytes.ext sameLeft)
        · rintro text (inLeft | inOther)
          · exact .inl (by simp [messages, inLeft])
          · exact .inr (by simp [messages, inOther])
        · intro value mem
          refine short value ?_
          simp only [leafs, List.mem_append] at mem ⊢
          tauto
      have rightEqual : right = otherRight := by
        refine rightInduction (injective.mono ?_) ?_ (SizedBytes.ext sameRight)
        · rintro text (inRight | inOther)
          · exact .inl (by simp [messages, inRight])
          · exact .inr (by simp [messages, inOther])
        · intro value mem
          refine short value ?_
          simp only [leafs, List.mem_append] at mem ⊢
          tauto
      rw [leftEqual, rightEqual]

/-- One pass of the reduction, keeping the shape. -/
def level : List MerkleTree → List MerkleTree
  | left :: right :: rest => .node left right :: level rest
  | trees => trees

/-- Levels of digests are those of trees. -/
theorem map_digest_level (trees : List MerkleTree) :
    merkleLevel hash (trees.map (digest hash)) = (level trees).map (digest hash) := by
  fun_induction level trees with
  | case1 left right rest ih => simp [merkleLevel, digest, ih]
  | case2 trees single =>
    match trees, single with
    | [], _ => rfl
    | [_], _ => rfl
    | left :: right :: rest, single => exact absurd rfl (single left right rest)

/-- A level keeps the leaves in their order. -/
theorem flatMap_leafs_level (trees : List MerkleTree) :
    (level trees).flatMap leafs = trees.flatMap leafs := by
  fun_induction level trees with
  | case1 left right rest ih => simp [leafs, ih]
  | case2 trees single => rfl

theorem level_ne_nil (nonempty : trees ≠ []) : level trees ≠ [] := by
  fun_cases level trees with
  | case1 left right rest => simp
  | case2 single => exact nonempty

/-- The tree of a reduction. -/
def reduce : Nat → List MerkleTree → MerkleTree
  | _, [] => .leaf []
  | _, [tree] => tree
  | 0, tree :: _ => tree
  | passes + 1, trees => reduce passes (level trees)

/-- Reducing digests is reducing trees. -/
theorem digest_reduce (passes : Nat) (nonempty : trees ≠ []) :
    merkleReduce hash passes (trees.map (digest hash)) = (reduce passes trees).digest hash := by
  induction passes generalizing trees with
  | zero =>
    match trees with
    | [] => exact absurd rfl nonempty
    | [tree] => rfl
    | first :: second :: rest => rfl
  | succ passes ih =>
    match trees with
    | [] => exact absurd rfl nonempty
    | [tree] => rfl
    | first :: second :: rest =>
      change _ = (reduce passes (level (first :: second :: rest))).digest hash
      rw [← ih (level_ne_nil nonempty), ← map_digest_level]
      rfl

theorem length_level (trees : List MerkleTree) :
    (level trees).length = (trees.length + 1) / 2 := by
  have counted := length_merkleLevel (fun _ => SizedBytes.zero 32)
    (trees.map (digest fun _ => SizedBytes.zero 32))
  rwa [map_digest_level, List.length_map, List.length_map] at counted

/-- With enough passes the tree has all leaves, in order. -/
theorem leafs_reduce {passes : Nat} (nonempty : trees ≠ []) (enough : trees.length ≤ passes) :
    (reduce passes trees).leafs = trees.flatMap leafs := by
  induction passes generalizing trees with
  | zero => exact absurd (List.eq_nil_of_length_eq_zero (Nat.le_zero.mp enough)) nonempty
  | succ passes ih =>
    match trees with
    | [] => exact absurd rfl nonempty
    | [tree] => simp [reduce]
    | first :: second :: rest =>
      have fewer : (level (first :: second :: rest)).length ≤ passes := by
        rw [length_level]
        simp only [List.length_cons] at enough ⊢
        omega
      change (reduce passes (level (first :: second :: rest))).leafs = _
      rw [ih (level_ne_nil nonempty) fewer, flatMap_leafs_level]

/-- The tree over a sequence of leaves. -/
def ofLeafs (values : List Bytes) : MerkleTree := reduce values.length (values.map leaf)

/-- The Merkle root is the digest of the tree over its leaves. -/
theorem digest_ofLeafs (nonempty : values ≠ []) :
    merkleRoot hash values = (ofLeafs values).digest hash := by
  rw [ofLeafs, ← digest_reduce _ (by simpa using nonempty), List.map_map]
  rfl

/-- That tree has all leaves. -/
theorem leafs_ofLeafs (nonempty : values ≠ []) :
    (ofLeafs values).leafs = values := by
  rw [ofLeafs, leafs_reduce (by simpa using nonempty) (by simp), List.flatMap_map]
  simp [leafs]

end MerkleTree

/-- The strings hashed for a root. -/
def merkleMessages (hash : Bytes → Digest) (values : List Bytes) : List Bytes :=
  if values = [] then [] else (MerkleTree.ofLeafs values).messages hash

/-- A root determines its leaves when there is at least one on either side or on neither, none
of them is as long as two digests, and no two strings hashed for the roots collide. -/
theorem eq_of_merkleRoot_eq {hash : Bytes → Digest} {values others : List Bytes}
    (injective : Set.InjOn hash
      {text | text ∈ merkleMessages hash values ∨ text ∈ merkleMessages hash others})
    (short : ∀ value ∈ values ++ others, value.length ≠ 64)
    (bothOrNeither : values = [] ↔ others = [])
    (same : merkleRoot hash values = merkleRoot hash others) : values = others := by
  by_cases empty : values = []
  · rw [empty, bothOrNeither.mp empty]
  · have otherNonempty : others ≠ [] := fun none => empty (bothOrNeither.mpr none)
    rw [merkleMessages, if_neg empty, merkleMessages, if_neg otherNonempty] at injective
    rw [MerkleTree.digest_ofLeafs empty, MerkleTree.digest_ofLeafs otherNonempty] at same
    have trees := MerkleTree.eq_of_digest_eq injective
      (by rwa [MerkleTree.leafs_ofLeafs empty, MerkleTree.leafs_ofLeafs otherNonempty]) same
    rw [← MerkleTree.leafs_ofLeafs empty, trees, MerkleTree.leafs_ofLeafs otherNonempty]

section Adding

variable (modulus : Nat) (mark : UInt8)

/-- The digest that stands for a residue: 31 bytes of it and a mark. -/
def residue (value : Nat) : Digest := ⟨littleEndian 31 (value % modulus) ++ [mark], by simp⟩

def readResidue (digest : Bytes) : Nat := fromLittleEndian (digest.take 31)

/-- Does a string look like two residues? -/
def looksAdded (text : Bytes) : Bool := text.length == 64 && text[31]? == some mark

/-- What a string counts for: the sum of two residues, or its own weight. -/
def addedWeight (weight : Bytes → Nat) (text : Bytes) : Nat :=
  if looksAdded mark text then readResidue (text.take 32) + readResidue (text.drop 32)
  else weight text

/-- A hash under which a Merkle root adds up weights. -/
def addingHash (weight : Bytes → Nat) (text : Bytes) : Digest :=
  residue modulus mark (addedWeight mark weight text)

variable {modulus mark}

/-- Residues are equal as numbers are congruent. -/
theorem residue_eq_iff {left right : Nat} (positive : 0 < modulus) (fits : modulus ≤ 256 ^ 31) :
    residue modulus mark left = residue modulus mark right ↔ left % modulus = right % modulus := by
  constructor
  · intro same
    have bytes := (List.append_inj (congrArg Subtype.val same) (by simp)).1
    have leftFits := Nat.lt_of_lt_of_le (Nat.mod_lt left positive) fits
    have rightFits := Nat.lt_of_lt_of_le (Nat.mod_lt right positive) fits
    rw [← fromLittleEndian_littleEndian leftFits, bytes, fromLittleEndian_littleEndian rightFits]
  · intro same
    simp only [residue, same]

theorem readResidue_residue {value : Nat} (positive : 0 < modulus) (fits : modulus ≤ 256 ^ 31) :
    readResidue (residue modulus mark value).1 = value % modulus := by
  have bound := Nat.lt_of_lt_of_le (Nat.mod_lt value positive) fits
  rw [readResidue, residue, List.take_append_of_le_length (by simp),
    List.take_of_length_le (by simp), fromLittleEndian_littleEndian bound]

/-- The hash of two residues is that of their sum. -/
theorem addingHash_residues (weight : Bytes → Nat) {left right : Nat} (positive : 0 < modulus)
    (fits : modulus ≤ 256 ^ 31) :
    addingHash modulus mark weight
        ((residue modulus mark left).1 ++ (residue modulus mark right).1) =
      residue modulus mark (left + right) := by
  have widths (value : Nat) : (residue modulus mark value).1.length = 32 :=
    (residue modulus mark value).2
  have looks : looksAdded mark
      ((residue modulus mark left).1 ++ (residue modulus mark right).1) = true := by
    have marked : ((residue modulus mark left).1 ++ (residue modulus mark right).1)[31]? =
        some mark := by
      rw [List.getElem?_append_left (by rw [widths]; decide), residue,
        List.getElem?_append_right (by simp)]
      simp
    rw [looksAdded, marked]
    simp [widths]
  have first : ((residue modulus mark left).1 ++ (residue modulus mark right).1).take 32 =
      (residue modulus mark left).1 := List.take_left' (widths left)
  have second : ((residue modulus mark left).1 ++ (residue modulus mark right).1).drop 32 =
      (residue modulus mark right).1 := List.drop_left' (widths left)
  rw [addingHash, addedWeight, if_pos looks, first, second, readResidue_residue positive fits,
    readResidue_residue positive fits, residue_eq_iff positive fits]
  simp [Nat.add_mod]

/-- A pass adds neighbours and keeps the sum. -/
theorem merkleLevel_residues (weight : Bytes → Nat) (positive : 0 < modulus)
    (fits : modulus ≤ 256 ^ 31) (values : List Nat) :
    ∃ sums : List Nat, merkleLevel (addingHash modulus mark weight)
        (values.map (residue modulus mark)) = sums.map (residue modulus mark) ∧
      sums.sum = values.sum ∧ sums.length = (values.length + 1) / 2 := by
  induction values using List.twoStepInduction with
  | nil => exact ⟨[], rfl, rfl, rfl⟩
  | singleton value => exact ⟨[value], rfl, rfl, by simp⟩
  | cons_cons left right rest ih _ =>
    obtain ⟨sums, levels, total, length⟩ := ih
    refine ⟨(left + right) :: sums, ?_, ?_, ?_⟩
    · simp only [List.map_cons, merkleLevel, levels, addingHash_residues weight positive fits]
    · simp only [List.sum_cons, total]
      omega
    · simp only [List.length_cons, length]
      omega

/-- Reducing residues adds them up. -/
theorem merkleReduce_residues (weight : Bytes → Nat) (positive : 0 < modulus)
    (fits : modulus ≤ 256 ^ 31) {passes : Nat} {values : List Nat} (nonempty : values ≠ [])
    (enough : values.length ≤ passes) :
    merkleReduce (addingHash modulus mark weight) passes (values.map (residue modulus mark)) =
      residue modulus mark values.sum := by
  induction passes generalizing values with
  | zero => exact absurd (List.eq_nil_of_length_eq_zero (Nat.le_zero.mp enough)) nonempty
  | succ passes ih =>
    match values with
    | [] => exact absurd rfl nonempty
    | [value] => simp [merkleReduce]
    | left :: right :: rest =>
      obtain ⟨sums, levels, total, length⟩ : ∃ sums : List Nat, merkleLevel
          (addingHash modulus mark weight)
            ((left :: right :: rest).map (residue modulus mark)) =
            sums.map (residue modulus mark) ∧ _ :=
        merkleLevel_residues weight positive fits (left :: right :: rest)
      have someSum : sums ≠ [] := by
        rintro rfl
        simp only [List.length_nil, List.length_cons] at length
        omega
      have fewer : sums.length ≤ passes := by
        simp only [List.length_cons] at enough length
        omega
      change merkleReduce _ passes (merkleLevel _ _) = _
      rw [← total, ← ih someSum fewer, ← levels]
      rfl

/-- The root under an adding hash is the sum of the weights. -/
theorem merkleRoot_addingHash (weight : Bytes → Nat) (positive : 0 < modulus)
    (fits : modulus ≤ 256 ^ 31) {values : List Bytes} (nonempty : values ≠ []) :
    merkleRoot (addingHash modulus mark weight) values =
      residue modulus mark (values.map (addedWeight mark weight)).sum := by
  have mapped : values.map (addingHash modulus mark weight) =
      (values.map (addedWeight mark weight)).map (residue modulus mark) := by
    rw [List.map_map]
    rfl
  rw [merkleRoot, mapped]
  exact merkleReduce_residues weight positive fits (by simpa using nonempty) (by simp)

variable {leaf : Bytes}

/-- Giving one leaf a weight adds it as often as the leaf occurs. -/
theorem sum_addedWeight (plain : looksAdded mark leaf = false) (value : Nat) (values : List Bytes) :
    (values.map (addedWeight mark fun text => if text = leaf then value else 0)).sum =
      values.count leaf * value +
        (values.map (addedWeight mark fun _ => 0)).sum := by
  induction values with
  | nil => simp
  | cons first rest ih =>
    simp only [List.map_cons, List.sum_cons, ih]
    by_cases here : first = leaf
    · subst here
      simp [addedWeight, plain, Nat.add_mul]
      omega
    · have weight : addedWeight mark (fun text => if text = leaf then value else 0) first =
          addedWeight mark (fun _ => 0) first := by
        simp [addedWeight, here]
      rw [weight, List.count_cons_of_ne here]
      omega

/-- Some hash tells a list of leaves from one that has more leaves beside it. -/
theorem exists_merkleRoot_ne {whole part extra : List Bytes} (leafs : whole.Perm (part ++ extra))
    (mem : leaf ∈ extra) (few : extra.count leaf < 256 ^ 31) :
    ∃ hash, merkleRoot hash whole ≠ merkleRoot hash part := by
  obtain ⟨mark, marked, plain⟩ : ∃ mark : UInt8, mark ≠ 0 ∧ looksAdded mark leaf = false := by
    by_cases taken : leaf[31]? = some 1
    · exact ⟨2, by decide, by simp [looksAdded, taken]⟩
    · exact ⟨1, by decide, by simp [looksAdded, taken]⟩
  -- The weight of the one leaf is chosen so that the extra leaves do not add up to zero.
  let modulus := extra.count leaf + 1
  have occurs : 0 < extra.count leaf := List.count_pos_iff.mpr mem
  have positive : 0 < modulus := Nat.succ_pos _
  have fits : modulus ≤ 256 ^ 31 := few
  obtain ⟨value, nonzero⟩ : ∃ value, (extra.map
      (addedWeight mark fun text => if text = leaf then value else 0)).sum % modulus ≠ 0 := by
    by_cases rest : (extra.map (addedWeight mark fun _ => 0)).sum % modulus = 0
    · refine ⟨1, ?_⟩
      rw [sum_addedWeight plain, Nat.add_mod, rest, Nat.mul_one, Nat.add_zero, Nat.mod_mod,
        Nat.mod_eq_of_lt (Nat.lt_succ_self _)]
      omega
    · refine ⟨0, ?_⟩
      rwa [sum_addedWeight plain, Nat.mul_zero, Nat.zero_add]
  let weight := fun text : Bytes => if text = leaf then value else 0
  refine ⟨addingHash modulus mark weight, fun same => ?_⟩
  have someLeaf : whole ≠ [] := by
    rintro rfl
    have none := leafs.symm.eq_nil
    simp only [List.append_eq_nil_iff] at none
    rw [none.2] at mem
    cases mem
  rw [merkleRoot_addingHash weight positive fits someLeaf] at same
  by_cases empty : part = []
  · rw [empty] at same
    have lastByte := congrArg (fun digest : Digest => digest.1[31]?) same
    simp [residue, merkleRoot, merkleReduce, SizedBytes.zero] at lastByte
    exact marked lastByte
  · rw [merkleRoot_addingHash weight positive fits empty, residue_eq_iff positive fits,
      (leafs.map _).sum_eq, List.map_append, List.sum_append] at same
    have cancelled : (extra.map (addedWeight mark weight)).sum ≡ 0 [MOD modulus] :=
      Nat.ModEq.add_left_cancel' _ (show _ ≡ _ [MOD modulus] by simpa [Nat.ModEq] using same)
    exact nonzero cancelled

end Adding

end Respublica.Crypto
