import Respublica.Protocol.Account

/-!
# Object spaces and compound keys

Objects are stored under the memory image of their space followed by their key. The
image is 40 bytes: the system flag, three bytes of padding, a 32-byte address and a
32-bit id, least significant byte first.

A program's space is made by copying its 33-byte account to the 32-byte address. The last
byte lands on the low byte of the id.
-/

namespace Respublica.StateDb

open Foundation Protocol

/-- The memory image of an `object_space`. -/
abbrev ObjectSpace := SizedBytes 40

namespace ObjectSpace

/-- A system space: the flag and an id, and no address. -/
def system (id : UInt32) : ObjectSpace :=
  ⟨1 :: (List.replicate 35 0 ++ littleEndian 4 id.toNat), by simp⟩

def metadata : ObjectSpace := system 0

def programData : ObjectSpace := system 1

def transactionNonce : ObjectSpace := system 2

/-- `std::ranges::copy` of an account to the address of a space: what is there afterwards, in the
address and behind it. -/
def copyToAddress (program : Account) (behind : Bytes) : Bytes :=
  overwrite (List.replicate 32 0 ++ behind) program.1

/-- The space of a program's objects with an id, as `create_object_space` leaves it. -/
def ofProgram (program : Account) (id : UInt32) : ObjectSpace :=
  ⟨[0, 0, 0, 0] ++ copyToAddress program (littleEndian 4 id.toNat), by
    simp [copyToAddress, overwrite, program.2]⟩

/-- The account is one byte longer than the address, and the copy takes the low byte of the id. -/
theorem ofProgram_eq (program : Account) (id : UInt32) :
    (ofProgram program id).1 =
      [0, 0, 0, 0] ++ program.1 ++ (littleEndian 4 id.toNat).drop 1 := by
  simp [ofProgram, copyToAddress, overwrite, program.2]

/-- What is left of the id is its number of full pages of 256. -/
theorem drop_littleEndian_id (id : UInt32) :
    (littleEndian 4 id.toNat).drop 1 = littleEndian 3 (id.toNat / 256) := rfl

theorem fromLittleEndian_page (id : UInt32) :
    fromLittleEndian (littleEndian 3 (id.toNat / 256)) = id.toNat / 256 := by
  refine fromLittleEndian_littleEndian ?_
  have range := id.toNat_lt
  omega

/-- The id of a space is intact exactly when the account's last byte is already its low
byte. -/
theorem id_ofProgram_iff (program : Account) (id : UInt32) :
    (ofProgram program id).1.drop 36 = littleEndian 4 id.toNat ↔
      program.1.drop 32 = [UInt8.ofNat id.toNat] := by
  have field : (ofProgram program id).1.drop 36 =
      program.1.drop 32 ++ littleEndian 3 (id.toNat / 256) := by
    rw [ofProgram_eq, List.append_assoc]
    change (program.1 ++ (littleEndian 4 id.toNat).drop 1).drop 32 = _
    rw [List.drop_append_of_le_length (by simp [program.2]), drop_littleEndian_id]
  have whole : littleEndian 4 id.toNat =
      [UInt8.ofNat id.toNat] ++ littleEndian 3 (id.toNat / 256) := rfl
  rw [field, whole, List.append_left_inj]

/-- The copy of an account stays inside the address: every space that is given an id has it
afterwards. -/
def CopyInside (program : Account) : Prop :=
  ∀ id : UInt32, (ofProgram program id).1.drop 36 = littleEndian 4 id.toNat

/-- No account is copied so: its last byte cannot be the low byte of all ids. -/
theorem not_copyInside (program : Account) : ¬ CopyInside program := by
  intro inside
  have zero := (id_ofProgram_iff program 0).mp (inside 0)
  have one := (id_ofProgram_iff program 1).mp (inside 1)
  exact absurd (zero.symm.trans one) (by decide)

end ObjectSpace

/-- The key an object is stored under. -/
def makeCompoundKey (space : ObjectSpace) (key : Bytes) : Bytes := space.1 ++ key

/-- No compound key is empty. -/
theorem makeCompoundKey_ne_nil (space : ObjectSpace) (key : Bytes) :
    makeCompoundKey space key ≠ [] := by
  intro empty
  have counted := congrArg List.length empty
  simp [makeCompoundKey, space.2] at counted

/-- Compound keys of one space agree only when the keys do. -/
theorem makeCompoundKey_inj {space : ObjectSpace} {left right : Bytes} :
    makeCompoundKey space left = makeCompoundKey space right ↔ left = right := by
  simp [makeCompoundKey]

/-- Compound keys of different spaces differ. -/
theorem makeCompoundKey_ne {space other : ObjectSpace} (different : space ≠ other)
    (left right : Bytes) : makeCompoundKey space left ≠ makeCompoundKey other right := by
  intro same
  have spaces := List.append_inj_left same (by rw [space.2, other.2])
  exact different (Subtype.ext spaces)

/-- Objects of programs share a key exactly when they are one program's, under one key, and
their ids differ in the low byte at most. -/
theorem makeCompoundKey_ofProgram_eq_iff {program other : Account} {id otherId : UInt32}
    {key otherKey : Bytes} :
    makeCompoundKey (ObjectSpace.ofProgram program id) key =
        makeCompoundKey (ObjectSpace.ofProgram other otherId) otherKey ↔
      program = other ∧ id.toNat / 256 = otherId.toNat / 256 ∧ key = otherKey := by
  constructor
  · intro same
    obtain ⟨spaces, keys⟩ := List.append_inj same
      ((ObjectSpace.ofProgram program id).2.trans (ObjectSpace.ofProgram other otherId).2.symm)
    rw [ObjectSpace.ofProgram_eq, ObjectSpace.ofProgram_eq] at spaces
    obtain ⟨flagged, pages⟩ := List.append_inj spaces (by simp [program.2, other.2])
    have accounts := (List.append_inj flagged rfl).2
    refine ⟨SizedBytes.ext accounts, ?_, keys⟩
    rw [ObjectSpace.drop_littleEndian_id, ObjectSpace.drop_littleEndian_id] at pages
    rw [← ObjectSpace.fromLittleEndian_page id, pages, ObjectSpace.fromLittleEndian_page]
  · rintro ⟨rfl, pages, rfl⟩
    simp only [makeCompoundKey, ObjectSpace.ofProgram_eq, ObjectSpace.drop_littleEndian_id, pages]

/-- No object of a program is stored under a key of a system space. -/
theorem makeCompoundKey_ofProgram_ne_system (program : Account) (id systemId : UInt32)
    (key systemKey : Bytes) :
    makeCompoundKey (ObjectSpace.ofProgram program id) key ≠
      makeCompoundKey (ObjectSpace.system systemId) systemKey := by
  intro same
  have flags := congrArg List.head? same
  simp [makeCompoundKey, ObjectSpace.ofProgram_eq, ObjectSpace.system] at flags

end Respublica.StateDb
