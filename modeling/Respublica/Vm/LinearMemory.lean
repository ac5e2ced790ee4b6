import Respublica.Foundation.Region
import Respublica.Program.SystemInterface

/-!
# The linear memory of an instance

Imported functions are given 32-bit addresses of the memory of their instance. `nativePointer` is
the check that an address is good for so many bytes; behind it the functions work with native
pointers, and nothing stops them from leaving the memory. An access outside of it is a fault here.

`makeIovs` reads an array of I/O vectors. Its size is checked modulo 2^32 and its length is not, so
the array can be longer than what was checked.

Allocations are taken to succeed.
-/

namespace Respublica.Vm

open Foundation Program Region

/-- Memory of the host that does not belong to the instance is accessed. -/
inductive MemoryFault where
  | outside
deriving DecidableEq

/-- `program_context::native_pointer`. An instance may have no memory. -/
def nativePointer (memory : Option Bytes) (ptr size : UInt32) : Option Nat :=
  match memory with
  | none => none
  | some data => if data.length < ptr.toNat + size.toNat then none else some ptr.toNat

/-- The 32-bit word at an address. -/
def wordAt (data : Bytes) (address : Nat) : UInt32 :=
  UInt32.ofNat (fromLittleEndian (slice data address 4))

def loadWord32 (data : Bytes) (address : Nat) : Except MemoryFault UInt32 :=
  if address + 4 ≤ data.length then .ok (wordAt data address) else .error .outside

/-- `std::memcpy` to an address. -/
def copyTo (data : Bytes) (address : Nat) (bytes : Bytes) : Except MemoryFault Bytes :=
  if bytes.length = 0 ∨ address + bytes.length ≤ data.length then .ok (patch data address bytes)
  else .error .outside

def storeWord32 (data : Bytes) (address : Nat) (word : UInt32) : Except MemoryFault Bytes :=
  copyTo data address (littleEndian 4 word.toNat)

/-- `std::span< std::byte >`. -/
structure IoVector where
  address : Nat
  size : Nat
deriving DecidableEq

/-- The loop of `make_iovs` over the entries of the array. -/
def readIovs (data : Bytes) : Nat → Nat → Except MemoryFault (Except ErrorCode (List IoVector))
  | 0, _ => .ok (.ok [])
  | remaining + 1, entry => do
      let iovBuf ← loadWord32 data entry
      let iovLen ← loadWord32 data (entry + 4)
      match nativePointer (some data) iovBuf iovLen with
      | none => pure (.error (.virtualMachine .invalidPointer))
      | some nativeAddress => do
          let others ← readIovs data remaining (entry + 8)
          pure (others.map (⟨nativeAddress, iovLen.toNat⟩ :: ·))

/-- `program_context::make_iovs`. The size of the array is passed on as 32 bits. -/
def makeIovs (memory : Option Bytes) (iovs iovsLen : UInt32) :
    Except MemoryFault (Except ErrorCode (List IoVector)) :=
  match memory, nativePointer memory iovs (UInt32.ofNat (4 * 2 * iovsLen.toNat)) with
  | some data, some iovsPtr => readIovs data iovsLen.toNat iovsPtr
  | _, _ => .ok (.error (.virtualMachine .invalidPointer))

variable {address : Nat} {iovsLen : UInt32}

theorem wordAt_eq_of_slice {data : Bytes} {word : UInt32}
    (bytes : slice data address 4 = littleEndian 4 word.toNat) : wordAt data address = word := by
  rw [wordAt, bytes, fromLittleEndian_littleEndian word.toNat_lt]
  exact UInt32.ofNat_toNat

theorem wordAt_congr {data other : Bytes}
    (same : ∀ offset < 4, data[address + offset]? = other[address + offset]?) :
    wordAt data address = wordAt other address := by
  rw [wordAt, slice_congr same, wordAt]

theorem loadWord32_inside {data : Bytes} (inside : address + 4 ≤ data.length) :
    loadWord32 data address = .ok (wordAt data address) := if_pos inside

theorem copyTo_inside {data bytes : Bytes} (inside : address + bytes.length ≤ data.length) :
    copyTo data address bytes = .ok (patch data address bytes) := if_pos (.inr inside)

/-- A word that is stored can be loaded again, and the memory is as before apart from it. -/
theorem storeWord32_inside {data : Bytes} (word : UInt32) (inside : address + 4 ≤ data.length) :
    ∃ after, storeWord32 data address word = .ok after ∧ after.length = data.length ∧
      slice after address 4 = littleEndian 4 word.toNat ∧
      ∀ position, position < address ∨ address + 4 ≤ position →
        after[position]? = data[position]? := by
  have bound : address + (littleEndian 4 word.toNat).length ≤ data.length := by
    rwa [length_littleEndian]
  refine ⟨_, copyTo_inside bound, length_patch bound, slice_patch bound,
    fun position elsewhere => ?_⟩
  exact getElem?_patch bound (by rwa [length_littleEndian])

/-- Regions apart from a word do not change with it. -/
theorem storeWord32_apart {data after : Bytes} {start size : Nat}
    (same : ∀ position, position < address ∨ address + 4 ≤ position →
      after[position]? = data[position]?)
    (apart : Apart start size address 4) : slice after start size = slice data start size := by
  refine slice_congr fun offset bound => same _ ?_
  rw [Apart] at apart
  omega

/-! What an array describes -/

/-- The vector that an entry of an array describes. -/
def vectorAt (data : Bytes) (entry : Nat) : IoVector :=
  ⟨(wordAt data entry).toNat, (wordAt data (entry + 4)).toNat⟩

/-- The vectors that an array describes. -/
def vectorsAt (data : Bytes) : Nat → Nat → List IoVector
  | 0, _ => []
  | remaining + 1, entry => vectorAt data entry :: vectorsAt data remaining (entry + 8)

/-- A vector lies in the memory. -/
def IoVector.Inside (data : Bytes) (vector : IoVector) : Prop :=
  vector.address + vector.size ≤ data.length

instance (data : Bytes) (vector : IoVector) : Decidable (vector.Inside data) :=
  inferInstanceAs (Decidable (_ ≤ _))

/-- An array of vectors and all that it describes lie in the memory. -/
structure Described (data : Bytes) (iovs iovsLen : Nat) : Prop where
  array : iovs + 8 * iovsLen ≤ data.length
  buffers : ∀ vector ∈ vectorsAt data iovsLen iovs, vector.Inside data

/-- Some entry in the memory describes a buffer that is not. -/
def Dangling (data : Bytes) (iovs iovsLen : Nat) : Prop :=
  ∃ index < iovsLen, iovs + 8 * index + 8 ≤ data.length ∧
    ¬ (vectorAt data (iovs + 8 * index)).Inside data

variable {data : Bytes} {entry remaining : Nat}

/-- A pointer is given for what is inside the memory. -/
theorem nativePointer_eq_some_iff {ptr size : UInt32} :
    nativePointer (some data) ptr size = some address ↔
      ptr.toNat + size.toNat ≤ data.length ∧ address = ptr.toNat := by
  rw [nativePointer]
  split
  · rename_i outside
    exact iff_of_false (by rintro ⟨⟩) fun inside => absurd inside.1 (Nat.not_le.mpr outside)
  · rename_i inside
    rw [Option.some.injEq, and_iff_right (Nat.not_lt.mp inside), eq_comm]

/-- An entry in the memory is read, and its buffer is checked. -/
theorem readIovs_succ (inside : entry + 8 ≤ data.length) :
    readIovs data (remaining + 1) entry =
      if (vectorAt data entry).Inside data then
        (readIovs data remaining (entry + 8)).map (Except.map (vectorAt data entry :: ·))
      else .ok (.error (.virtualMachine .invalidPointer)) := by
  have first : loadWord32 data entry = .ok (wordAt data entry) := if_pos (by omega)
  have second : loadWord32 data (entry + 4) = .ok (wordAt data (entry + 4)) := if_pos (by omega)
  rw [readIovs, first, second]
  by_cases buffer : (vectorAt data entry).Inside data
  · have pointer : nativePointer (some data) (wordAt data entry) (wordAt data (entry + 4)) =
        some (wordAt data entry).toNat := nativePointer_eq_some_iff.mpr ⟨buffer, rfl⟩
    rw [if_pos buffer]
    simp only [bind, Except.bind, pointer]
    cases readIovs data remaining (entry + 8) <;> rfl
  · have pointer : nativePointer (some data) (wordAt data entry) (wordAt data (entry + 4)) = none :=
      if_pos (Nat.not_le.mp buffer)
    rw [if_neg buffer]
    simp only [bind, Except.bind, pointer]
    rfl

/-- The first entry that is not in the memory ends the loop outside. -/
theorem readIovs_succ_outside (outside : data.length < entry + 8) :
    readIovs data (remaining + 1) entry = .error .outside := by
  have second : loadWord32 data (entry + 4) = .error .outside := if_neg (by omega)
  rw [readIovs, second, loadWord32]
  split <;> rfl

/-- Vectors dangle at the first place or behind it. -/
theorem dangling_succ : Dangling data entry (remaining + 1) ↔
    entry + 8 ≤ data.length ∧ ¬ (vectorAt data entry).Inside data ∨
      Dangling data (entry + 8) remaining := by
  constructor
  · rintro ⟨index, bound, inside, buffer⟩
    cases index with
    | zero => exact .inl ⟨inside, buffer⟩
    | succ index =>
      refine .inr ⟨index, by omega, by omega, ?_⟩
      rwa [show entry + 8 + 8 * index = entry + 8 * (index + 1) by omega]
  · rintro (⟨inside, buffer⟩ | ⟨index, bound, inside, buffer⟩)
    · exact ⟨0, by omega, inside, buffer⟩
    · refine ⟨index + 1, by omega, by omega, ?_⟩
      rwa [show entry + 8 * (index + 1) = entry + 8 + 8 * index by omega]

/-- Described vectors are read. -/
theorem readIovs_described (described : Described data entry remaining) :
    readIovs data remaining entry = .ok (.ok (vectorsAt data remaining entry)) := by
  induction remaining generalizing entry with
  | zero => rfl
  | succ remaining ih =>
    obtain ⟨array, buffers⟩ := described
    obtain ⟨first, others⟩ := List.forall_mem_cons.mp buffers
    rw [readIovs_succ (by omega), if_pos first, ih ⟨by omega, others⟩]
    rfl

/-- A vector that dangles is an invalid pointer. -/
theorem readIovs_dangling (dangling : Dangling data entry remaining) :
    readIovs data remaining entry = .ok (.error (.virtualMachine .invalidPointer)) := by
  induction remaining generalizing entry with
  | zero =>
    obtain ⟨index, bound, -⟩ := dangling
    exact absurd bound (Nat.not_lt_zero index)
  | succ remaining ih =>
    rcases dangling_succ.mp dangling with ⟨inside, buffer⟩ | later
    · rw [readIovs_succ inside, if_neg buffer]
    · have inside : entry + 8 ≤ data.length := by
        obtain ⟨index, -, inside, -⟩ := later
        omega
      rw [readIovs_succ inside, ih later]
      split <;> rfl

/-- An array that is longer than the memory is read beyond it, unless a buffer is found to be
outside before that. -/
theorem readIovs_outside (begins : entry ≤ data.length) (long : data.length < entry + 8 * remaining)
    (sound : ¬ Dangling data entry remaining) :
    readIovs data remaining entry = .error .outside := by
  induction remaining generalizing entry with
  | zero => omega
  | succ remaining ih =>
    rw [dangling_succ, not_or] at sound
    by_cases inside : entry + 8 ≤ data.length
    · have buffer : (vectorAt data entry).Inside data := by
        by_contra buffer
        exact sound.1 ⟨inside, buffer⟩
      rw [readIovs_succ inside, if_pos buffer, ih inside (by omega) sound.2]
      rfl
    · exact readIovs_succ_outside (Nat.not_le.mp inside)

/-- Of an array in the memory, either all buffers are inside or one is found not to be. -/
theorem described_or_dangling (array : entry + 8 * remaining ≤ data.length) :
    Described data entry remaining ∨ Dangling data entry remaining := by
  induction remaining generalizing entry with
  | zero => exact .inl ⟨array, by simp [vectorsAt]⟩
  | succ remaining ih =>
    by_cases buffer : (vectorAt data entry).Inside data
    · refine (ih (show entry + 8 + 8 * remaining ≤ data.length by omega)).imp ?_ ?_
      · exact fun later => ⟨array, List.forall_mem_cons.mpr ⟨buffer, later.buffers⟩⟩
      · exact fun later => dangling_succ.mpr (.inr later)
    · exact .inr (dangling_succ.mpr (.inl ⟨by omega, buffer⟩))

/-- What `make_iovs` is to do: read the memory only, return the vectors of an array that lies in the
memory with all its buffers, and else `invalid_pointer`. -/
structure IovsLaw (memory : Option Bytes) (iovs iovsLen : UInt32) : Prop where
  returns : ∃ result, makeIovs memory iovs iovsLen = .ok result
  succeeds : ∀ vectors, makeIovs memory iovs iovsLen = .ok (.ok vectors) →
    ∃ data, memory = some data ∧ Described data iovs.toNat iovsLen.toNat ∧
      vectors = vectorsAt data iovsLen.toNat iovs.toNat
  refuses : (∀ data, memory = some data → ¬ Described data iovs.toNat iovsLen.toNat) →
    makeIovs memory iovs iovsLen = .ok (.error (.virtualMachine .invalidPointer))

/-- The array is checked for its size modulo 2^32. -/
theorem makeIovs_eq (data : Bytes) (iovs iovsLen : UInt32) :
    makeIovs (some data) iovs iovsLen =
      if data.length < iovs.toNat + 8 * iovsLen.toNat % 2 ^ 32 then
        .ok (.error (.virtualMachine .invalidPointer))
      else readIovs data iovsLen.toNat iovs.toNat := by
  have size : (UInt32.ofNat (4 * 2 * iovsLen.toNat)).toNat = 8 * iovsLen.toNat % 2 ^ 32 := rfl
  by_cases outside : data.length < iovs.toNat + 8 * iovsLen.toNat % 2 ^ 32
  · have pointer : nativePointer (some data) iovs (UInt32.ofNat (4 * 2 * iovsLen.toNat)) = none :=
      if_pos (size ▸ outside)
    simp only [makeIovs, pointer, if_pos outside]
  · have pointer : nativePointer (some data) iovs (UInt32.ofNat (4 * 2 * iovsLen.toNat)) =
        some iovs.toNat := if_neg (size ▸ outside)
    simp only [makeIovs, pointer, if_neg outside]

/-- Vectors are returned only if they and their array lie in the memory. -/
theorem described_of_makeIovs {iovs : UInt32} {vectors : List IoVector}
    (success : makeIovs (some data) iovs iovsLen = .ok (.ok vectors)) :
    Described data iovs.toNat iovsLen.toNat ∧
      vectors = vectorsAt data iovsLen.toNat iovs.toNat := by
  rw [makeIovs_eq] at success
  split at success
  · cases success
  · rename_i checked
    by_cases dangling : Dangling data iovs.toNat iovsLen.toNat
    · rw [readIovs_dangling dangling] at success
      cases success
    · by_cases array : iovs.toNat + 8 * iovsLen.toNat ≤ data.length
      · have described := (described_or_dangling array).resolve_right dangling
        rw [readIovs_described described] at success
        cases success
        exact ⟨described, rfl⟩
      · rw [readIovs_outside (by omega) (by omega) dangling] at success
        cases success

/-- What is refused as an invalid pointer keeps the law. -/
theorem IovsLaw.of_refused {memory : Option Bytes} {iovs : UInt32}
    (refused : makeIovs memory iovs iovsLen = .ok (.error (.virtualMachine .invalidPointer))) :
    IovsLaw memory iovs iovsLen where
  returns := ⟨_, refused⟩
  succeeds := by
    intro vectors success
    rw [refused] at success
    cases success
  refuses := fun _ => refused

/-- The law holds for exactly these arguments: the array lies in the memory; or it does not even
with its size modulo 2^32; or an entry in the memory describes a buffer that is not. -/
theorem iovs_inside_memory_iff (memory : Option Bytes) (iovs iovsLen : UInt32) :
    IovsLaw memory iovs iovsLen ↔ ∀ data, memory = some data →
      iovs.toNat + 8 * iovsLen.toNat ≤ data.length ∨
        data.length < iovs.toNat + 8 * iovsLen.toNat % 2 ^ 32 ∨
        Dangling data iovs.toNat iovsLen.toNat := by
  constructor
  · rintro law data rfl
    by_contra condition
    obtain ⟨long, checked, sound⟩ : _ ∧ _ ∧ _ := by simpa only [not_or] using condition
    obtain ⟨result, gave⟩ := law.returns
    rw [makeIovs_eq, if_neg checked, readIovs_outside (by omega) (by omega) sound] at gave
    cases gave
  · intro condition
    cases memory with
    | none => exact .of_refused rfl
    | some data =>
      by_cases checked : data.length < iovs.toNat + 8 * iovsLen.toNat % 2 ^ 32
      · exact .of_refused (by rw [makeIovs_eq, if_pos checked])
      · have loop := makeIovs_eq data iovs iovsLen
        rw [if_neg checked] at loop
        by_cases dangling : Dangling data iovs.toNat iovsLen.toNat
        · exact .of_refused (by rw [loop, readIovs_dangling dangling])
        · have array : iovs.toNat + 8 * iovsLen.toNat ≤ data.length := by
            rcases condition data rfl with array | small | found
            · exact array
            · exact absurd small checked
            · exact absurd found dangling
          have described := (described_or_dangling array).resolve_right dangling
          rw [readIovs_described described] at loop
          exact ⟨⟨_, loop⟩, fun vectors success => ⟨data, rfl, described_of_makeIovs success⟩,
            fun none => absurd described (none data rfl)⟩

/-- With one page of memory and 2^29 vectors at its end, nothing of the array is in the memory, and
its first entry is read. -/
theorem long_array_read_outside :
    makeIovs (some (List.replicate 65536 0)) 65536 536870912 = .error .outside := by
  have length : (List.replicate 65536 (0 : UInt8)).length = 65536 := List.length_replicate
  rw [makeIovs_eq, if_neg (by rw [length]; decide)]
  have entered : readIovs (List.replicate 65536 0) (536870911 + 1) 65536 = .error .outside :=
    readIovs_succ_outside (by rw [length]; decide)
  exact entered

end Respublica.Vm
