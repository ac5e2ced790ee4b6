import Respublica.Foundation.Bytes

/-!
# Digests, signatures and Merkle roots

BLAKE3 and the signature scheme are third-party code. The development is
parametric in both through `Primitives`; whatever a result assumes of them is a
hypothesis of that result. The Merkle reduction is the repository's own.
-/

namespace Respublica.Crypto

open Foundation

/-- A 256-bit digest, `digest_length` bytes. -/
abbrev Digest := SizedBytes 32

/-- The bytes of a public key, `public_key_length` of them. -/
abbrev PublicKey := SizedBytes 32

/-- A detached signature, `signature_length` bytes. -/
abbrev Signature := SizedBytes 64

/-- The third-party primitives. `hash` is what the incremental hasher yields for
the concatenation of everything it was fed since its last reset. -/
structure Primitives where
  hash : Bytes → Digest
  verify : PublicKey → Signature → Digest → Bool

/-- One pass of the reduction: neighbours are hashed together and an odd last
node moves up unchanged. -/
def merkleLevel (hash : Bytes → Digest) : List Digest → List Digest
  | left :: right :: rest => hash (left.1 ++ right.1) :: merkleLevel hash rest
  | nodes => nodes

/-- Reduce level by level while more than one node is left. The fuel bounds the
number of passes. -/
def merkleReduce (hash : Bytes → Digest) : Nat → List Digest → Digest
  | _, [] => SizedBytes.zero 32
  | _, [node] => node
  | 0, node :: _ => node
  | passes + 1, nodes => merkleReduce hash passes (merkleLevel hash nodes)

/-- The root over a sequence of leaves; the empty sequence has the zero digest. -/
def merkleRoot (hash : Bytes → Digest) (values : List Bytes) : Digest :=
  merkleReduce hash values.length (values.map hash)

/-- A level has half as many nodes, rounded up. -/
theorem length_merkleLevel (hash : Bytes → Digest) (nodes : List Digest) :
    (merkleLevel hash nodes).length = (nodes.length + 1) / 2 := by
  fun_induction merkleLevel hash nodes with
  | case1 left right rest ih =>
    rw [List.length_cons, ih, List.length_cons, List.length_cons]
    omega
  | case2 nodes single =>
    match nodes, single with
    | [], _ => rfl
    | [_], _ => simp
    | left :: right :: rest, single => exact absurd rfl (single left right rest)

end Respublica.Crypto
