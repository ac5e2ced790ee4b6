import Mathlib.Data.FinEnum
import Mathlib.Data.Fintype.Vector

/-!
# Byte strings

`Bytes` is the sole byte container of the development. `SizedBytes` carries its
exact length, so a fixed-width field cannot hold a string of another width.
The little-endian codec turns machine words into bytes and back.
-/

namespace Respublica.Foundation

/-- A byte string of any length. -/
abbrev Bytes := List UInt8

/-- A byte string paired with proof that its length is exactly `count`. -/
abbrev SizedBytes (count : Nat) := {bytes : Bytes // bytes.length = count}

namespace SizedBytes

variable {count : Nat}

/-- Sized strings are equal exactly when their bytes are. -/
@[ext] theorem ext {left right : SizedBytes count} (bytes : left.1 = right.1) : left = right :=
  Subtype.ext bytes

/-- The string of `count` zero bytes. -/
def zero (count : Nat) : SizedBytes count := ⟨List.replicate count 0, List.length_replicate⟩

/-- Cut or pad an arbitrary string with zero bytes to exactly `count` bytes. -/
def fit (count : Nat) (bytes : Bytes) : SizedBytes count :=
  ⟨bytes.takeD count 0, List.takeD_length _ _ _⟩

/-- Equally many sized strings written one behind the other can be told apart. -/
theorem eq_of_flatMap {left right : List (SizedBytes count)} (number : left.length = right.length)
    (same : (left.flatMap fun piece => piece.1) = right.flatMap fun piece => piece.1) :
    left = right := by
  have widths (pieces : List (SizedBytes count)) :
      (pieces.map fun piece => piece.1).map List.length =
        List.replicate pieces.length count := by
    rw [List.map_map, ← List.map_const']
    exact List.map_congr_left fun piece _ => piece.2
  have bytes : (left.map fun piece => piece.1) = right.map fun piece => piece.1 :=
    List.eq_iff_flatten_eq.mpr ⟨same, by rw [widths, widths, number]⟩
  exact List.map_injective_iff.mpr Subtype.val_injective bytes

instance : Fintype (SizedBytes count) := inferInstanceAs (Fintype (List.Vector UInt8 count))

end SizedBytes

/-- Write `written` over the start of a buffer, keeping the bytes behind it. -/
def overwrite (buffer written : Bytes) : Bytes := written ++ buffer.drop written.length

/-- The low `width` bytes of a number, least significant first. -/
def littleEndian : Nat → Nat → Bytes
  | 0, _ => []
  | width + 1, value => UInt8.ofNat value :: littleEndian width (value / 256)

/-- Read a number whose least significant byte comes first. -/
def fromLittleEndian : Bytes → Nat
  | [] => 0
  | byte :: rest => byte.toNat + 256 * fromLittleEndian rest

@[simp] theorem length_littleEndian (width value : Nat) :
    (littleEndian width value).length = width := by
  induction width generalizing value with
  | zero => rfl
  | succ width ih => simp [littleEndian, ih]

/-- Decoding recovers every number that fits the encoded width. -/
theorem fromLittleEndian_littleEndian {width value : Nat} (fits : value < 256 ^ width) :
    fromLittleEndian (littleEndian width value) = value := by
  induction width generalizing value with
  | zero =>
    have isZero : value = 0 := by simpa using fits
    simp [littleEndian, fromLittleEndian, isZero]
  | succ width ih =>
    have quotientFits : value / 256 < 256 ^ width := by
      apply (Nat.div_lt_iff_lt_mul (by decide)).mpr
      simpa only [Nat.pow_succ] using fits
    simp only [littleEndian, fromLittleEndian, ih quotientFits, UInt8.toNat_ofNat']
    omega

/-- The eight bytes of a 64-bit word, as `native_to_little` stores them. -/
def storeWord (word : UInt64) : Bytes := littleEndian 8 word.toNat

/-- The 64-bit word stored in the first eight bytes of a string. -/
def loadWord (bytes : Bytes) : UInt64 := UInt64.ofNat (fromLittleEndian (bytes.take 8))

@[simp] theorem length_storeWord (word : UInt64) : (storeWord word).length = 8 :=
  length_littleEndian 8 word.toNat

/-- Every word survives being stored and read back. -/
@[simp] theorem loadWord_storeWord (word : UInt64) : loadWord (storeWord word) = word := by
  have fits : word.toNat < 256 ^ 8 := word.toNat_lt
  have whole : (storeWord word).take 8 = storeWord word := List.take_of_length_le (by simp)
  rw [loadWord, whole, storeWord, fromLittleEndian_littleEndian fits]
  exact UInt64.ofNat_toNat

/-- Distinct words have distinct bytes. -/
theorem storeWord_injective : Function.Injective storeWord :=
  Function.LeftInverse.injective loadWord_storeWord

/-- The largest word. -/
def maxWord : UInt64 := 18446744073709551615

theorem toNat_maxWord : maxWord.toNat = 18446744073709551615 := rfl

theorem le_maxWord (word : UInt64) : word ≤ maxWord := by
  have range := word.toNat_lt
  rw [UInt64.le_iff_toNat_le, toNat_maxWord]
  omega

end Respublica.Foundation
