import Respublica.Encode.Error

/-!
# Hexadecimal strings

`to_hex` writes two lower-case digits per byte behind `0x`. `from_hex` takes the prefix or leaves
it, and digits of either case. It looks for the prefix before it knows that the text has a first
character.
-/

namespace Respublica.Encode

open Foundation

/-- A digit as `std::hex` prints it. -/
def hexDigit (value : UInt8) : UInt8 :=
  if value < 10 then char '0' + value else char 'a' + (value - 10)

/-- A number below 256 as `std::hex` prints it, without leading zeros. -/
def hexNumber (value : UInt8) : Bytes :=
  if value < 16 then [hexDigit value] else [hexDigit (value / 16), hexDigit (value % 16)]

/-- `std::setw( 2 )` with `std::setfill( '0' )`. -/
def setw2 (digits : Bytes) : Bytes := List.replicate (2 - digits.length) (char '0') ++ digits

def toHex (bytes : Bytes) : Bytes :=
  text ['0', 'x'] ++ bytes.flatMap fun byte => setw2 (hexNumber byte)

def hexToChar (in_ : UInt8) : Result UInt8 :=
  if char '0' ≤ in_ ∧ in_ ≤ char '9' then .ok (in_ - char '0')
  else if char 'a' ≤ in_ ∧ in_ ≤ char 'f' then .ok (in_ - char 'a' + 10)
  else if char 'A' ≤ in_ ∧ in_ ≤ char 'F' then .ok (in_ - char 'A' + 10)
  else .error .invalidCharacter

/-- `sv.at`, which throws behind the end of the text. -/
def at_ (sv : Bytes) (index : Nat) : Except Fault UInt8 :=
  match sv[index]? with
  | some character => .ok character
  | none => .error .terminate

/-- The loop of `from_hex` over what is left of the text, with the bytes pushed so far. -/
def fromHexLoop (bytes : Bytes) : Bytes → Decoding Bytes
  | [] => .ok (.ok bytes)
  | [single] =>
    match hexToChar single with
    | .ok _ => .error .terminate
    | .error error => .ok (.error error)
  | first :: second :: rest =>
    match hexToChar first with
    | .error error => .ok (.error error)
    | .ok firstChar =>
      match hexToChar second with
      | .error error => .ok (.error error)
      | .ok secondChar => fromHexLoop (bytes ++ [firstChar <<< 4 ||| secondChar]) rest

def fromHex (sv : Bytes) : Except Fault (Result Bytes) :=
  if sv.length % 2 ≠ 0 then .ok (.error .invalidLength)
  else do
    let first ← at_ sv 0
    if first = char '0' then do
      let second ← at_ sv 1
      if second = char 'x' then fromHexLoop [] (sv.drop 2) else fromHexLoop [] sv
    else fromHexLoop [] sv

/-! What is accepted -/

/-- A hexadecimal digit of either case. -/
def IsHexDigit (character : UInt8) : Prop :=
  (char '0' ≤ character ∧ character ≤ char '9') ∨ (char 'a' ≤ character ∧ character ≤ char 'f') ∨
    (char 'A' ≤ character ∧ character ≤ char 'F')

instance (character : UInt8) : Decidable (IsHexDigit character) :=
  inferInstanceAs (Decidable (_ ∨ _))

/-- Upper-case letters as lower-case letters. -/
def toLower (character : UInt8) : UInt8 :=
  if char 'A' ≤ character ∧ character ≤ char 'Z' then character + 32 else character

/-- The text behind an optional leading `0x`. -/
def hexPayload (sv : Bytes) : Bytes :=
  if text ['0', 'x'] <+: sv then sv.drop 2 else sv

/-- An even number of hexadecimal digits behind an optional `0x`. -/
structure IsHex (sv : Bytes) : Prop where
  even : (hexPayload sv).length % 2 = 0
  digits : ∀ character ∈ hexPayload sv, IsHexDigit character

/-! Digits -/

/-- A byte is printed as two digits. -/
theorem setw2_hexNumber (byte : UInt8) :
    setw2 (hexNumber byte) = [hexDigit (byte / 16), hexDigit (byte % 16)] := by
  revert byte
  decide +kernel

/-- Digits are read back. -/
theorem hexToChar_hexDigit :
    ∀ value : UInt8, value < 16 → hexToChar (hexDigit value) = .ok value := by
  decide +kernel

/-- A digit that is read is written in lower case. -/
theorem hexToChar_spec (character : UInt8) : (hexToChar character).toOption.all
    (fun value => value < 16 ∧ hexDigit value = toLower character) = true := by
  revert character
  decide +kernel

/-- Just the digits are read. -/
theorem hexToChar_isSome (character : UInt8) :
    (hexToChar character).toOption.isSome = true ↔ IsHexDigit character := by
  revert character
  decide +kernel

/-- A digit has its value. -/
theorem exists_value {character : UInt8} (digit : IsHexDigit character) :
    ∃ value, hexToChar character = .ok value ∧ value < 16 ∧ hexDigit value = toLower character := by
  have read := (hexToChar_isSome character).mpr digit
  have spec := hexToChar_spec character
  cases found : hexToChar character with
  | error error =>
    rw [found] at read
    cases read
  | ok value =>
    rw [found] at spec
    exact ⟨value, rfl, of_decide_eq_true spec⟩

/-- No other character has one. -/
theorem invalid_of_not_digit {character : UInt8} (other : ¬ IsHexDigit character) :
    ∃ error, hexToChar character = .error error := by
  cases found : hexToChar character with
  | error error => exact ⟨error, rfl⟩
  | ok value =>
    refine absurd ((hexToChar_isSome character).mp ?_) other
    rw [found]
    rfl

/-- The halves of a byte put together, and the halves taken apart again. -/
theorem halves (byte : UInt8) : byte / 16 < 16 ∧ byte % 16 < 16 ∧
    (byte / 16) <<< 4 ||| byte % 16 = byte := by
  revert byte
  decide +kernel

/-- The two digits of a byte are found in it. -/
theorem halves_of_digits {high low : UInt8} (highSmall : high < 16) (lowSmall : low < 16) :
    (high <<< 4 ||| low) / 16 = high ∧ (high <<< 4 ||| low) % 16 = low := by
  have all : ∀ first second : Fin 16, let high := UInt8.ofNat first; let low := UInt8.ofNat second
      (high <<< 4 ||| low) / 16 = high ∧ (high <<< 4 ||| low) % 16 = low := by decide +kernel
  have taken := all ⟨high.toNat, UInt8.lt_iff_toNat_lt.mp highSmall⟩
    ⟨low.toNat, UInt8.lt_iff_toNat_lt.mp lowSmall⟩
  simpa using taken

/-! The loop -/

/-- What was printed is read back. -/
theorem fromHexLoop_flatMap (bytes decoded : Bytes) :
    fromHexLoop bytes (decoded.flatMap fun byte => setw2 (hexNumber byte)) =
      .ok (.ok (bytes ++ decoded)) := by
  induction decoded generalizing bytes with
  | nil => rw [List.flatMap_nil, fromHexLoop, List.append_nil]
  | cons byte rest ih =>
    obtain ⟨high, low, whole⟩ := halves byte
    rw [List.flatMap_cons, setw2_hexNumber, List.cons_append, List.cons_append, List.nil_append,
      fromHexLoop, hexToChar_hexDigit _ high, hexToChar_hexDigit _ low]
    simp only [whole]
    rw [ih, List.append_assoc]
    rfl

/-- Digits are decoded, and encoded again they are the same digits in lower case. -/
theorem fromHexLoop_digits {rest : Bytes} (bytes : Bytes) (even : rest.length % 2 = 0)
    (digits : ∀ character ∈ rest, IsHexDigit character) :
    ∃ decoded, fromHexLoop bytes rest = .ok (.ok (bytes ++ decoded)) ∧
      (decoded.flatMap fun byte => setw2 (hexNumber byte)) = rest.map toLower := by
  induction rest using List.twoStepInduction generalizing bytes with
  | nil => exact ⟨[], by rw [fromHexLoop, List.append_nil], rfl⟩
  | singleton single => cases even
  | cons_cons first second rest ih _ =>
    have evenRest : rest.length % 2 = 0 := by
      simp only [List.length_cons] at even
      omega
    simp only [List.forall_mem_cons] at digits
    obtain ⟨high, readHigh, highSmall, writtenHigh⟩ := exists_value digits.1
    obtain ⟨low, readLow, lowSmall, writtenLow⟩ := exists_value digits.2.1
    obtain ⟨decoded, loop, encoded⟩ := ih (bytes ++ [high <<< 4 ||| low]) evenRest digits.2.2
    obtain ⟨isHigh, isLow⟩ := halves_of_digits highSmall lowSmall
    refine ⟨(high <<< 4 ||| low) :: decoded, ?_, ?_⟩
    · rw [fromHexLoop, readHigh, readLow]
      simp only [loop, List.append_assoc]
      rfl
    · rw [List.flatMap_cons, setw2_hexNumber, isHigh, isLow, writtenHigh, writtenLow, encoded]
      rfl

/-- Anything else is refused. -/
theorem fromHexLoop_invalid {rest : Bytes} (bytes : Bytes) (even : rest.length % 2 = 0)
    (other : ¬ ∀ character ∈ rest, IsHexDigit character) :
    ∃ error, fromHexLoop bytes rest = .ok (.error error) := by
  induction rest using List.twoStepInduction generalizing bytes with
  | nil => exact absurd (fun _ mem => by cases mem) other
  | singleton single => cases even
  | cons_cons first second rest ih _ =>
    have evenRest : rest.length % 2 = 0 := by
      simp only [List.length_cons] at even
      omega
    rw [fromHexLoop]
    by_cases firstDigit : IsHexDigit first
    · obtain ⟨high, readHigh, -⟩ := exists_value firstDigit
      rw [readHigh]
      by_cases secondDigit : IsHexDigit second
      · obtain ⟨low, readLow, -⟩ := exists_value secondDigit
        rw [readLow]
        exact ih _ evenRest fun digits => other
          (List.forall_mem_cons.mpr ⟨firstDigit, List.forall_mem_cons.mpr ⟨secondDigit, digits⟩⟩)
      · obtain ⟨error, refused⟩ := invalid_of_not_digit secondDigit
        rw [refused]
        exact ⟨error, rfl⟩
    · obtain ⟨error, refused⟩ := invalid_of_not_digit firstDigit
      rw [refused]
      exact ⟨error, rfl⟩

/-- Of a text that has a first character, the loop decodes the payload. -/
theorem fromHex_eq {sv : Bytes} (present : sv ≠ []) (even : sv.length % 2 = 0) :
    fromHex sv = fromHexLoop [] (hexPayload sv) := by
  match sv, present, even with
  | [_], _, even => cases even
  | first :: second :: rest, _, even =>
    rw [fromHex, if_neg (by simpa using even)]
    by_cases zero : first = char '0'
    · by_cases cross : second = char 'x'
      · subst zero cross
        rw [hexPayload, if_pos ⟨rest, rfl⟩]
        rfl
      · have unprefixed : ¬ text ['0', 'x'] <+: first :: second :: rest := by
          rintro ⟨_, same⟩
          exact cross (List.cons.inj (List.cons.inj same).2).1.symm
        rw [hexPayload, if_neg unprefixed]
        change (if first = char '0' then _ else _) = _
        rw [if_pos zero]
        change (if second = char 'x' then _ else _) = _
        rw [if_neg cross]
    · have unprefixed : ¬ text ['0', 'x'] <+: first :: second :: rest := by
        rintro ⟨_, same⟩
        exact zero (List.cons.inj same).1.symm
      rw [hexPayload, if_neg unprefixed]
      change (if first = char '0' then _ else _) = _
      rw [if_neg zero]

/-- A marker is two characters. -/
theorem length_hexPayload (sv : Bytes) : (hexPayload sv).length % 2 = sv.length % 2 := by
  unfold hexPayload
  split
  · rename_i begins
    have long : 2 ≤ sv.length := begins.length_le
    rw [List.length_drop]
    omega
  · rfl

/-- What decoding a text is to do: return a result, which is a success for hexadecimal texts only,
with the bytes of their digits. -/
structure HexLaw (sv : Bytes) : Prop where
  returns : ∃ result, fromHex sv = .ok result
  accepts : (∃ bytes, fromHex sv = .ok (.ok bytes)) ↔ IsHex sv
  encodes : ∀ bytes, fromHex sv = .ok (.ok bytes) →
    toHex bytes = text ['0', 'x'] ++ (hexPayload sv).map toLower

/-- Every text but the empty one keeps the law. -/
theorem hexLaw_of_ne_nil {sv : Bytes} (present : sv ≠ []) : HexLaw sv := by
  have parity := length_hexPayload sv
  by_cases even : sv.length % 2 = 0
  · have decodes := fromHex_eq present even
    by_cases digits : ∀ character ∈ hexPayload sv, IsHexDigit character
    · obtain ⟨decoded, loop, encoded⟩ := fromHexLoop_digits [] (parity.trans even) digits
      rw [← decodes] at loop
      refine ⟨⟨_, loop⟩, iff_of_true ⟨_, loop⟩ ⟨parity.trans even, digits⟩, fun bytes success => ?_⟩
      obtain rfl := Except.ok.inj (Except.ok.inj (loop.symm.trans success))
      exact congrArg _ encoded
    · obtain ⟨error, loop⟩ := fromHexLoop_invalid [] (parity.trans even) digits
      rw [← decodes] at loop
      have fails (bytes : Bytes) : fromHex sv ≠ .ok (.ok bytes) := by
        rw [loop]
        rintro ⟨⟩
      exact ⟨⟨_, loop⟩, iff_of_false (fun accepted => accepted.elim fails)
        fun hex => digits hex.digits, fun bytes success => absurd success (fails bytes)⟩
  · have refused : fromHex sv = .ok (.error .invalidLength) := if_pos even
    have fails (bytes : Bytes) : fromHex sv ≠ .ok (.ok bytes) := by
      rw [refused]
      rintro ⟨⟩
    exact ⟨⟨_, refused⟩, iff_of_false (fun accepted => accepted.elim fails)
      fun hex => even (parity.symm.trans hex.even),
      fun bytes success => absurd success (fails bytes)⟩

/-- Encoded bytes are decoded again. -/
theorem fromHex_toHex (bytes : Bytes) : fromHex (toHex bytes) = .ok (.ok bytes) := by
  have digitsOnly : hexPayload (toHex bytes) =
      bytes.flatMap fun byte => setw2 (hexNumber byte) := by
    rw [hexPayload, if_pos ⟨_, rfl⟩]
    rfl
  have even : (toHex bytes).length % 2 = 0 := by
    have pairs : (bytes.map fun byte => (setw2 (hexNumber byte)).length) =
        List.replicate bytes.length 2 := by
      rw [← List.map_const']
      exact List.map_congr_left fun byte _ => by rw [setw2_hexNumber]; rfl
    rw [toHex, List.length_append, List.length_flatMap, pairs, List.sum_replicate_nat]
    simp
  rw [fromHex_eq (by rintro ⟨⟩) even, digitsOnly]
  exact fromHexLoop_flatMap [] bytes

/-- The law holds for exactly the texts that are not empty; encoding and decoding give back all
byte strings. -/
theorem hex_decoding_lawful_iff (sv bytes : Bytes) :
    (HexLaw sv ↔ sv ≠ []) ∧ fromHex (toHex bytes) = .ok (.ok bytes) := by
  refine ⟨⟨?_, hexLaw_of_ne_nil⟩, fromHex_toHex bytes⟩
  rintro law rfl
  obtain ⟨_, gave⟩ := law.returns
  cases gave

/-- The empty text is hexadecimal, and decoding it ends the process. -/
theorem empty_text_terminates : IsHex [] ∧ fromHex [] = .error .terminate :=
  ⟨⟨rfl, fun _ mem => by cases mem⟩, rfl⟩

end Respublica.Encode
