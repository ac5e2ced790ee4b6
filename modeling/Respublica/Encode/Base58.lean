import Respublica.Encode.Error
import Respublica.Foundation.Positional

/-!
# Base58

Bytes and base58 digits are converted into each other as numbers in a buffer that is large enough
from the start, and leading zeros are carried over one by one.

The decoder goes through the text with one cursor in four loops. A text is a view into memory: the
cursor is what can still be read from there, and how far it is to the end of the view. The loop
over leading `1`s does not ask how far that is, so the cursor can go past the end, and from there
it never comes back to it.

A buffer is listed as its loop goes through it, least significant digit first. Sizes and counters
are natural numbers. In the source they have 64 bits, and 32 bits where the type is `int`: what is
proved here is about bytes and texts so short that no counter, nor 138 times the size of the bytes
or 733 times that of a text, overflows.
-/

namespace Respublica.Encode

open Foundation Positional

/-- `max_array_size`. -/
def maxArraySize : Nat := 1024 * 1024 * 10

/-- All alphanumeric characters except for `0`, `I`, `O` and `l`. -/
def pszBase58 : Bytes :=
  text [ '1', '2', '3', '4', '5', '6', '7', '8', '9', 'A', 'B', 'C', 'D', 'E', 'F', 'G', 'H', 'J',
    'K', 'L', 'M', 'N', 'P', 'Q', 'R', 'S', 'T', 'U', 'V', 'W', 'X', 'Y', 'Z', 'a', 'b', 'c',
    'd', 'e', 'f', 'g', 'h', 'i', 'j', 'k', 'm', 'n', 'o', 'p', 'q', 'r', 's', 't', 'u', 'v',
    'w', 'x', 'y', 'z']

/-- The digit of every character, or -1. -/
def mapBase58 : List Int :=
  List.flatten [ [-1, -1, -1, -1, -1, -1, -1, -1, -1, -1, -1, -1, -1, -1, -1, -1],
    [-1, -1, -1, -1, -1, -1, -1, -1, -1, -1, -1, -1, -1, -1, -1, -1],
    [-1, -1, -1, -1, -1, -1, -1, -1, -1, -1, -1, -1, -1, -1, -1, -1],
    [-1, 0, 1, 2, 3, 4, 5, 6, 7, 8, -1, -1, -1, -1, -1, -1],
    [-1, 9, 10, 11, 12, 13, 14, 15, 16, -1, 17, 18, 19, 20, 21, -1],
    [22, 23, 24, 25, 26, 27, 28, 29, 30, 31, 32, -1, -1, -1, -1, -1],
    [-1, 33, 34, 35, 36, 37, 38, 39, 40, 41, 42, 43, -1, 44, 45, 46],
    [47, 48, 49, 50, 51, 52, 53, 54, 55, 56, 57, -1, -1, -1, -1, -1],
    [-1, -1, -1, -1, -1, -1, -1, -1, -1, -1, -1, -1, -1, -1, -1, -1],
    [-1, -1, -1, -1, -1, -1, -1, -1, -1, -1, -1, -1, -1, -1, -1, -1],
    [-1, -1, -1, -1, -1, -1, -1, -1, -1, -1, -1, -1, -1, -1, -1, -1],
    [-1, -1, -1, -1, -1, -1, -1, -1, -1, -1, -1, -1, -1, -1, -1, -1],
    [-1, -1, -1, -1, -1, -1, -1, -1, -1, -1, -1, -1, -1, -1, -1, -1],
    [-1, -1, -1, -1, -1, -1, -1, -1, -1, -1, -1, -1, -1, -1, -1, -1],
    [-1, -1, -1, -1, -1, -1, -1, -1, -1, -1, -1, -1, -1, -1, -1, -1],
    [-1, -1, -1, -1, -1, -1, -1, -1, -1, -1, -1, -1, -1, -1, -1, -1]]

def isSpace (c : UInt8) : Bool :=
  c = char ' ' ∨ c = char '\x0c' ∨ c = char '\n' ∨ c = char '\r' ∨ c = char '\t' ∨ c = char '\x0b'

/-- What can be read from the cursor on, and how far it is to the end of the view. The distance is
negative behind the end. -/
structure Cursor where
  toEnd : Int
  psz : Bytes

/-- A number in a buffer, and how many of its digits are in use. -/
structure Digits where
  length : Nat
  buffer : List Nat

/-- Go on with a result. -/
def andThen {First Second : Type} (first : Decoding First) (next : First → Decoding Second) :
    Decoding Second :=
  match first with
  | .error fault => .error fault
  | .ok (.error error) => .ok (.error error)
  | .ok (.ok value) => next value

/-- Skip spaces up to the end. -/
def skipSpaces : Int → Bytes → Except Fault Cursor
  | toEnd, [] => if toEnd = 0 then .ok ⟨toEnd, []⟩ else .error .outside
  | toEnd, c :: rest =>
    if toEnd = 0 then .ok ⟨toEnd, c :: rest⟩
    else if isSpace c then skipSpaces (toEnd - 1) rest
    else .ok ⟨toEnd, c :: rest⟩

/-- Skip and count leading `1`s, wherever the end is. -/
def countOnes (maxRetLen : Nat) : Nat → Int → Bytes → Decoding (Nat × Cursor)
  | _, _, [] => .error .outside
  | zeroes, toEnd, c :: rest =>
    if c = char '1' then
      if maxRetLen < zeroes + 1 then .ok (.error .invalidLength)
      else countOnes maxRetLen (zeroes + 1) (toEnd - 1) rest
    else .ok (.ok (zeroes, ⟨toEnd, c :: rest⟩))

/-- Apply `b256 = b256 * 58 + digit` for one character. -/
def decodeCharacter (maxRetLen zeroes : Nat) (b256 : Digits) (c : UInt8) : Decoding Digits :=
  let digit := mapBase58.getD c.toNat (-1)
  if digit = -1 then .ok (.error .invalidCharacter)
  else
    let applied := mulAdd 58 256 digit.toNat b256.length b256.buffer
    if applied.2.1 ≠ 0 then .error .assertion
    else if maxRetLen < applied.2.2 + zeroes then .ok (.error .invalidLength)
    else .ok (.ok ⟨applied.2.2, applied.1⟩)

/-- Process characters up to a space or the end. -/
def decodeCharacters (maxRetLen zeroes : Nat) :
    Digits → Int → Bytes → Decoding (Digits × Cursor)
  | b256, toEnd, [] => if toEnd = 0 then .ok (.ok (b256, ⟨toEnd, []⟩)) else .error .outside
  | b256, toEnd, c :: rest =>
    if toEnd = 0 ∨ isSpace c then .ok (.ok (b256, ⟨toEnd, c :: rest⟩))
    else andThen (decodeCharacter maxRetLen zeroes b256 c) fun b256 =>
      decodeCharacters maxRetLen zeroes b256 (toEnd - 1) rest

/-- The digits of a buffer that are in use, most significant one first. -/
def Digits.used (digits : Digits) : List Nat := (digits.buffer.take digits.length).reverse

/-- An empty number in a buffer of the given size. -/
def Digits.zero (size : Nat) : Digits := ⟨0, List.replicate size 0⟩

def decodeBase58 (psz : Bytes) (size maxRetLen : Nat) : Decoding Bytes :=
  match skipSpaces size psz with
  | .error fault => .error fault
  | .ok start =>
    andThen (countOnes maxRetLen 0 start.toEnd start.psz) fun counted =>
      let b256 := Digits.zero (size * 733 / 1000 + 1)
      andThen (decodeCharacters maxRetLen counted.1 b256 counted.2.toEnd counted.2.psz)
        fun decoded =>
          match skipSpaces decoded.2.toEnd decoded.2.psz with
          | .error fault => .error fault
          | .ok finish =>
            if finish.toEnd ≠ 0 then .ok (.error .invalidLength)
            else .ok (.ok (List.replicate counted.1 0 ++ decoded.1.used.map UInt8.ofNat))

/-- Apply `b58 = b58 * 256 + ch` for all bytes. -/
def encodeBytes : Digits → Bytes → Except Fault Digits
  | b58, [] => .ok b58
  | b58, ch :: rest =>
    let applied := mulAdd 256 58 ch.toNat b58.length b58.buffer
    if applied.2.1 ≠ 0 then .error .assertion
    else encodeBytes ⟨applied.2.2, applied.1⟩ rest

def encodeBase58 (bytes : Bytes) : Except Fault Bytes := do
  let zeroes := (bytes.takeWhile (· = 0)).length
  let rest := bytes.dropWhile (· = 0)
  let b58 ← encodeBytes (Digits.zero (rest.length * 138 / 100 + 1)) rest
  let digits := b58.used.dropWhile (· = 0)
  pure (List.replicate zeroes (char '1') ++ digits.map fun digit => pszBase58.getD digit 0)

def toBase58 (s : Bytes) : Except Fault Bytes := encodeBase58 s

/-- Decode a view that is followed by other bytes in memory. -/
def fromBase58 (sv beyond : Bytes) : Decoding Bytes :=
  decodeBase58 (sv ++ beyond) sv.length maxArraySize

/-! Characters -/

/-- The digit of a character of the alphabet. -/
def digitOf (c : UInt8) : Nat := (mapBase58.getD c.toNat (-1)).toNat

/-- The character of a digit. -/
def characterOf (digit : Nat) : UInt8 := pszBase58.getD digit 0

/-- The two tables are inverse to each other on the alphabet, -/
theorem map_mapBase58 : pszBase58.map (fun c => mapBase58.getD c.toNat (-1)) =
    (List.range 58).map Int.ofNat := by
  decide +kernel

/-- and outside of it there are no digits. -/
theorem all_mapBase58 : mapBase58.zipIdx.all (fun entry =>
    entry.1 == -1 || (entry.1.toNat < 58 && characterOf entry.1.toNat == UInt8.ofNat entry.2)) =
      true := by
  decide +kernel

variable {digit : Nat} {c : UInt8}

/-- The table is right about the alphabet. -/
theorem mapBase58_getElem (small : digit < pszBase58.length) :
    mapBase58.getD pszBase58[digit].toNat (-1) = digit := by
  have entry : (pszBase58.map fun c => mapBase58.getD c.toNat (-1))[digit]? =
      some (digit : Int) := by
    rw [map_mapBase58, List.getElem?_map, List.getElem?_range (show digit < 58 from small)]
    rfl
  rw [List.getElem?_map, List.getElem?_eq_getElem small] at entry
  exact Option.some.inj entry

theorem characterOf_eq (small : digit < pszBase58.length) :
    characterOf digit = pszBase58[digit] := (List.getElem_eq_getD 0).symm

/-- Characters and digits correspond. -/
theorem digitOf_characterOf (small : digit < 58) :
    digitOf (characterOf digit) = digit ∧ characterOf digit ∈ pszBase58 := by
  rw [characterOf_eq small, digitOf, mapBase58_getElem small]
  exact ⟨rfl, List.getElem_mem _⟩

/-- A character of the alphabet has its digit in the table. -/
theorem mapBase58_of_mem (mem : c ∈ pszBase58) :
    mapBase58.getD c.toNat (-1) = digitOf c ∧ digitOf c < 58 ∧ characterOf (digitOf c) = c := by
  obtain ⟨digit, small, rfl⟩ := List.getElem_of_mem mem
  have mapped := mapBase58_getElem small
  have digits : digitOf pszBase58[digit] = digit := by rw [digitOf, mapped, Int.toNat_natCast]
  rw [digits, characterOf_eq small]
  exact ⟨mapped, small, rfl⟩

/-- No other character has one. -/
theorem mapBase58_of_not_mem (other : c ∉ pszBase58) :
    mapBase58.getD c.toNat (-1) = -1 := by
  have length : mapBase58.length = 256 := by decide +kernel
  have bound : c.toNat < mapBase58.length := length ▸ c.toNat_lt
  have entry : (mapBase58.getD c.toNat (-1), c.toNat) ∈ mapBase58.zipIdx := by
    rw [← List.getElem_eq_getD (h := bound) (-1), List.mem_zipIdx_iff_getElem?]
    exact List.getElem?_eq_getElem bound
  have checked := List.all_eq_true.mp all_mapBase58 _ entry
  simp only [Bool.or_eq_true, Bool.and_eq_true, beq_iff_eq, decide_eq_true_eq,
    UInt8.ofNat_toNat] at checked
  refine checked.resolve_right ?_
  rintro ⟨small, same⟩
  exact other (same ▸ (digitOf_characterOf small).2)

theorem isSpace_of_mem (mem : c ∈ pszBase58) : isSpace c = false := by
  have none : pszBase58.all (fun c => !isSpace c) = true := by decide +kernel
  simpa using List.all_eq_true.mp none c mem

/-- The character of the digit zero is `1`. -/
theorem digitOf_eq_zero_iff (mem : c ∈ pszBase58) :
    digitOf c = 0 ↔ c = char '1' := by
  constructor
  · intro zero
    rw [← (mapBase58_of_mem mem).2.2, zero]
    rfl
  · rintro rfl
    rfl

/-! Numbers in buffers -/

/-- A number in a buffer of the given size. -/
def holding (base size value : Nat) : Digits :=
  ⟨(Nat.digits base value).length, padded base size value⟩

theorem zero_eq_holding (base size : Nat) : Digits.zero size = holding base size 0 := by
  simp [Digits.zero, holding, padded]

/-- What is used of a buffer are the digits of its number. -/
theorem used_holding (base size value : Nat) :
    (holding base size value).used = (Nat.digits base value).reverse := by
  rw [holding, Digits.used, take_padded]

/-- A character of the alphabet is shifted in, as long as the result is not too long. -/
theorem decodeCharacter_of_mem (maxRetLen zeroes : Nat) {size value : Nat} (mem : c ∈ pszBase58)
    (fits : digitOf c + 58 * value < 256 ^ size) :
    decodeCharacter maxRetLen zeroes (holding 256 size value) c =
      if maxRetLen < (Nat.digits 256 (digitOf c + 58 * value)).length + zeroes then
        .ok (.error .invalidLength)
      else .ok (.ok (holding 256 size (digitOf c + 58 * value))) := by
  obtain ⟨mapped, -, -⟩ := mapBase58_of_mem mem
  have digit : ¬ ((digitOf c : Int) = -1) := by omega
  rw [decodeCharacter, mapped]
  simp only [if_neg digit, Int.toNat_natCast, holding, mulAdd_padded (by omega) (by omega) fits]
  rfl

/-- Any other character is invalid. -/
theorem decodeCharacter_of_not_mem (maxRetLen zeroes : Nat) (b256 : Digits)
    (other : c ∉ pszBase58) :
    decodeCharacter maxRetLen zeroes b256 c = .ok (.error .invalidCharacter) := by
  rw [decodeCharacter, mapBase58_of_not_mem other]
  rfl

/-- With enough room every byte is shifted in. -/
theorem encodeBytes_eq {size value : Nat} {bytes : Bytes}
    (room : (value + 1) * 256 ^ bytes.length ≤ 58 ^ size) :
    encodeBytes (holding 58 size value) bytes =
      .ok (holding 58 size (shiftIn 256 value (bytes.map UInt8.toNat))) := by
  induction bytes generalizing value with
  | nil => rfl
  | cons ch rest ih =>
    have next := room_step ch.toNat_lt room
    have fits := lt_of_room (by omega) next
    rw [encodeBytes]
    simp only [holding, mulAdd_padded (by omega) (by omega) fits]
    exact ih next

/-! The loops inside a view -/

section Loops

variable {maxRetLen : Nat}

/-- A cursor on a character is not at the end, and the next one leaves what is behind it. -/
theorem remaining_cons (c : UInt8) (rest : Bytes) :
    ((c :: rest).length : Int) ≠ 0 ∧ ((c :: rest).length : Int) - 1 = rest.length := by
  rw [List.length_cons]
  omega

/-- Spaces are skipped. -/
theorem skipSpaces_eq (inside beyond : Bytes) :
    skipSpaces inside.length (inside ++ beyond) =
      .ok ⟨(inside.dropWhile isSpace).length, inside.dropWhile isSpace ++ beyond⟩ := by
  induction inside with
  | nil =>
    cases beyond with
    | nil => rfl
    | cons c rest => rfl
  | cons c rest ih =>
    obtain ⟨before, next⟩ := remaining_cons c rest
    rw [List.cons_append, skipSpaces, if_neg before, next, ih]
    cases space : isSpace c with
    | true => simp [space]
    | false => simp [space]

/-- What the loop over `1`s meets first: a character of the view that is none, more of them than a
result may be long, or a character behind the view that is none. -/
def OnesEnd (maxRetLen zeroes : Nat) (inside beyond : Bytes) : Prop :=
  inside.dropWhile (· = char '1') ≠ [] ∨
    maxRetLen < zeroes + (inside.takeWhile (· = char '1')).length ∨
    ∃ c rest, beyond = c :: rest ∧ c ≠ char '1'

variable {zeroes : Nat} {inside : Bytes} {First Second : Type}

/-- Leading ones are counted, as long as they end. -/
theorem countOnes_eq {beyond : Bytes} (within_ : zeroes ≤ maxRetLen)
    (ends : OnesEnd maxRetLen zeroes inside beyond) :
    countOnes maxRetLen zeroes inside.length (inside ++ beyond) =
      if maxRetLen < zeroes + (inside.takeWhile (· = char '1')).length then
        .ok (.error .invalidLength)
      else .ok (.ok (zeroes + (inside.takeWhile (· = char '1')).length,
        ⟨(inside.dropWhile (· = char '1')).length,
          inside.dropWhile (· = char '1') ++ beyond⟩)) := by
  induction inside generalizing zeroes with
  | nil =>
    rcases ends with present | many | ⟨c, rest, rfl, other⟩
    · exact absurd rfl present
    · exact absurd many (Nat.not_lt.mpr within_)
    · rw [List.nil_append, countOnes, if_neg other, List.takeWhile_nil, List.length_nil,
        Nat.add_zero, if_neg (Nat.not_lt.mpr within_)]
      rfl
  | cons c rest ih =>
    rw [List.cons_append, countOnes]
    by_cases one : c = char '1'
    · have dropped : (c :: rest).dropWhile (· = char '1') = rest.dropWhile (· = char '1') :=
        List.dropWhile_cons_of_pos (by simpa using one)
      have count : zeroes + ((c :: rest).takeWhile (· = char '1')).length =
          zeroes + 1 + (rest.takeWhile (· = char '1')).length := by
        rw [List.takeWhile_cons_of_pos (by simpa using one), List.length_cons]
        omega
      rw [OnesEnd, dropped, count] at ends
      rw [if_pos one, dropped, count]
      by_cases many : maxRetLen < zeroes + 1
      · rw [if_pos many, if_pos (by omega)]
      · rw [if_neg many, (remaining_cons c rest).2, ih (by omega) ends]
    · rw [if_neg one]
      have taken : (c :: rest).takeWhile (· = char '1') = [] := by simp [one]
      have dropped : (c :: rest).dropWhile (· = char '1') = c :: rest := by simp [one]
      rw [taken, dropped, List.length_nil, Nat.add_zero, if_neg (Nat.not_lt.mpr within_)]
      rfl

/-- With nothing but `1`s up to the end of the memory, the loop leaves it. -/
theorem countOnes_outside (only : inside.dropWhile (· = char '1') = [])
    (few : zeroes + (inside.takeWhile (· = char '1')).length ≤ maxRetLen) (toEnd : Int) :
    countOnes maxRetLen zeroes toEnd inside = .error .outside := by
  induction inside generalizing zeroes toEnd with
  | nil => rfl
  | cons c rest ih =>
    by_cases one : c = char '1'
    · rw [List.dropWhile_cons_of_pos (by simpa using one)] at only
      rw [List.takeWhile_cons_of_pos (by simpa using one), List.length_cons] at few
      rw [countOnes, if_pos one, if_neg (by omega)]
      exact ih only (by omega) _
    · rw [List.dropWhile_cons_of_neg (by simpa using one)] at only
      cases only

/-- The loop over characters without its cursor. -/
def feed (maxRetLen zeroes : Nat) : Digits → Bytes → Decoding Digits
  | b256, [] => .ok (.ok b256)
  | b256, c :: rest =>
    andThen (decodeCharacter maxRetLen zeroes b256 c) fun b256 => feed maxRetLen zeroes b256 rest

@[simp] theorem andThen_ok (value : First) (next : First → Decoding Second) :
    andThen (.ok (.ok value)) next = next value := rfl

@[simp] theorem andThen_error (error : EncodeErrc) (next : First → Decoding Second) :
    andThen (.ok (.error error)) next = .ok (.error error) := rfl

theorem andThen_assoc {Third : Type} (first : Decoding First) (next : First → Decoding Second)
    (last : Second → Decoding Third) :
    andThen (andThen first next) last = andThen first fun value => andThen (next value) last := by
  rcases first with fault | (error | value) <;> rfl

/-- The loop over the characters feeds them up to the first space. -/
theorem decodeCharacters_eq (zeroes : Nat) (b256 : Digits) (inside beyond : Bytes) :
    decodeCharacters maxRetLen zeroes b256 inside.length (inside ++ beyond) =
      andThen (feed maxRetLen zeroes b256 (inside.takeWhile fun c => !isSpace c)) fun b256 =>
        .ok (.ok (b256, ⟨(inside.dropWhile fun c => !isSpace c).length,
          (inside.dropWhile fun c => !isSpace c) ++ beyond⟩)) := by
  induction inside generalizing b256 with
  | nil =>
    cases beyond with
    | nil => rfl
    | cons c rest => rfl
  | cons c rest ih =>
    obtain ⟨before, next⟩ := remaining_cons c rest
    rw [List.cons_append, decodeCharacters]
    cases space : isSpace c with
    | true =>
      rw [if_pos (.inr rfl), List.takeWhile_cons_of_neg (by simp [space]),
        List.dropWhile_cons_of_neg (by simp [space])]
      rfl
    | false =>
      rw [if_neg (by simpa using before), List.takeWhile_cons_of_pos (by simp [space]),
        List.dropWhile_cons_of_pos (by simp [space]), feed, andThen_assoc, next]
      simp only [ih]

/-- The characters leave the buffer no carry; they are accepted if they are all of the alphabet and
the number is not too long. -/
theorem feed_eq {size value : Nat} {chars : Bytes}
    (room : (value + 1) * 58 ^ chars.length ≤ 256 ^ size)
    (short : (Nat.digits 256 value).length + zeroes ≤ maxRetLen) :
    ∃ result, feed maxRetLen zeroes (holding 256 size value) chars = .ok result ∧
      ∀ b256, result = .ok b256 ↔
        b256 = holding 256 size (shiftIn 58 value (chars.map digitOf)) ∧
          (∀ c ∈ chars, c ∈ pszBase58) ∧
          (Nat.digits 256 (shiftIn 58 value (chars.map digitOf))).length + zeroes ≤ maxRetLen := by
  induction chars generalizing value with
  | nil =>
    refine ⟨_, rfl, fun b256 => ?_⟩
    simpa [shiftIn, eq_comm] using fun _ => short
  | cons c rest ih =>
    rw [feed]
    by_cases mem : c ∈ pszBase58
    · have next := room_step (mapBase58_of_mem mem).2.1 room
      rw [decodeCharacter_of_mem maxRetLen zeroes mem (lt_of_room (by omega) next)]
      by_cases long : maxRetLen < (Nat.digits 256 (digitOf c + 58 * value)).length + zeroes
      · -- The number only grows from here on.
        have grows := Nat.le_length_digits_le 256 _ _
          (le_shiftIn (show 0 < 58 by omega) (digitOf c + 58 * value) (rest.map digitOf))
        rw [if_pos long]
        refine ⟨_, rfl, fun b256 => ⟨by rintro ⟨⟩, ?_⟩⟩
        rintro ⟨-, -, inside⟩
        exact absurd (long.trans_le (Nat.add_le_add_right grows zeroes)) (Nat.not_lt.mpr inside)
      · rw [if_neg long]
        obtain ⟨result, fed, accepted⟩ := ih next (Nat.not_lt.mp long)
        refine ⟨result, fed, fun b256 => (accepted b256).trans ?_⟩
        rw [List.forall_mem_cons, and_iff_right mem]
        rfl
    · rw [decodeCharacter_of_not_mem _ _ _ mem]
      refine ⟨_, rfl, fun b256 => ⟨by rintro ⟨⟩, ?_⟩⟩
      rintro ⟨-, all, -⟩
      exact absurd (all c List.mem_cons_self) mem

end Loops

end Respublica.Encode
