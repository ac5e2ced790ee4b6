import Mathlib.Data.Nat.Digits.Lemmas

/-!
# Numbers in buffers of digits

A number is kept in a buffer of fixed size, least significant digit first, together with how many
of its digits are in use. `mulAdd` multiplies it and adds a carry in place, digit by digit, and
stops when the carry is used up behind the last digit in use. It is the inner loop of a change of
base that takes the source digits from left to right.

A string of digits is determined by its number of leading zeros and the number it denotes, so
changing the base and keeping the leading zeros can be undone.
-/

namespace Respublica.Foundation.Positional

/-- Multiply by a factor and add a carry. Returned are the buffer, what is left of the carry, and
the number of digits that were gone through. -/
def mulAdd (factor base : Nat) : Nat → Nat → List Nat → List Nat × Nat × Nat
  | carry, _, [] => ([], carry, 0)
  | carry, length, digit :: rest =>
    if carry ≠ 0 ∨ 0 < length then
      let total := carry + factor * digit
      let higher := mulAdd factor base (total / base) (length - 1) rest
      (total % base :: higher.1, higher.2.1, higher.2.2 + 1)
    else (digit :: rest, carry, 0)

/-- The digits of a number in a buffer of the given size. -/
def padded (base size value : Nat) : List Nat :=
  Nat.digits base value ++ List.replicate (size - (Nat.digits base value).length) 0

variable {base factor : Nat}

variable {carry size value source : Nat} {digits : List Nat}

/-- In an empty buffer the carry is written out. -/
theorem mulAdd_zeros (factor : Nat) (larger : 1 < base) (fits : carry < base ^ size) :
    mulAdd factor base carry 0 (List.replicate size 0) =
      (padded base size carry, 0, (Nat.digits base carry).length) := by
  induction size generalizing carry with
  | zero =>
    obtain rfl : carry = 0 := by simpa using fits
    simp [mulAdd, padded]
  | succ size ih =>
    rcases Nat.eq_zero_or_pos carry with rfl | positive
    · simp [mulAdd, padded, List.replicate_succ]
    · have quotientFits : carry / base < base ^ size := by
        rw [Nat.div_lt_iff_lt_mul (by omega), ← Nat.pow_succ]
        exact fits
      rw [List.replicate_succ, mulAdd, if_pos (.inl (by omega))]
      simp only [Nat.mul_zero, Nat.add_zero, Nat.zero_sub, ih quotientFits]
      rw [padded, padded, Nat.digits_def' larger positive, List.length_cons,
        Nat.add_sub_add_right, List.cons_append]

/-- A number without leading zeros is not zero. -/
theorem ofDigits_pos (larger : 1 < base) (nonempty : digits ≠ [])
    (canonical : digits.getLast nonempty ≠ 0) : 0 < Nat.ofDigits base digits := by
  refine Nat.pos_of_ne_zero fun zero => canonical ?_
  have positive : base ≠ 0 := by omega
  exact Nat.digits_zero_of_eq_zero positive zero _ (List.getLast_mem nonempty)

/-- The last digit of a product and a carry is that of the last digit; the rest is carried on. -/
theorem div_mod_cons (factor carry digit : Nat) (rest : List Nat) (positive : 0 < base) :
    (carry + factor * Nat.ofDigits base (digit :: rest)) / base =
        (carry + factor * digit) / base + factor * Nat.ofDigits base rest ∧
      (carry + factor * Nat.ofDigits base (digit :: rest)) % base =
        (carry + factor * digit) % base := by
  have value : carry + factor * Nat.ofDigits base (digit :: rest) =
      carry + factor * digit + base * (factor * Nat.ofDigits base rest) := by
    rw [Nat.ofDigits_cons]
    ring
  rw [value]
  exact ⟨Nat.add_mul_div_left _ _ positive, Nat.add_mul_mod_self_left _ _ _⟩

/-- Canonical digits are multiplied with the carry into the canonical digits of the result. -/
theorem mulAdd_append (larger : 1 < base) (positive : 0 < factor) {zeros : Nat}
    (canonical : ∀ nonempty, digits.getLast nonempty ≠ 0)
    (fits : carry + factor * Nat.ofDigits base digits < base ^ (digits.length + zeros)) :
    mulAdd factor base carry digits.length (digits ++ List.replicate zeros 0) =
      (padded base (digits.length + zeros) (carry + factor * Nat.ofDigits base digits), 0,
        (Nat.digits base (carry + factor * Nat.ofDigits base digits)).length) := by
  induction digits generalizing carry with
  | nil =>
    simp only [Nat.ofDigits_nil, Nat.mul_zero, Nat.add_zero, List.length_nil, Nat.zero_add,
      List.nil_append] at fits ⊢
    exact mulAdd_zeros factor larger fits
  | cons digit rest ih =>
    obtain ⟨quotient, remainder⟩ := div_mod_cons factor carry digit rest (show 0 < base by omega)
    have higherCanonical : ∀ nonempty, rest.getLast nonempty ≠ 0 := by
      intro nonempty
      rw [← List.getLast_cons nonempty]
      exact canonical (List.cons_ne_nil _ _)
    have higherFits : (carry + factor * digit) / base + factor * Nat.ofDigits base rest <
        base ^ (rest.length + zeros) := by
      rw [← quotient, Nat.div_lt_iff_lt_mul (by omega), ← Nat.pow_succ]
      simpa only [List.length_cons, Nat.add_right_comm] using fits
    have nonzero : 0 < carry + factor * Nat.ofDigits base (digit :: rest) := by
      have product := Nat.mul_pos positive (ofDigits_pos larger (List.cons_ne_nil _ _)
        (canonical (List.cons_ne_nil digit rest)))
      omega
    rw [List.cons_append, mulAdd, if_pos (.inr (by simp))]
    simp only [List.length_cons, Nat.add_sub_cancel, ih higherCanonical higherFits]
    rw [padded, padded, Nat.digits_def' larger nonzero, quotient, remainder, List.length_cons,
      List.cons_append, show rest.length + 1 + zeros = rest.length + zeros + 1 by omega,
      Nat.add_sub_add_right]

/-- A buffer that is large enough holds the product, and nothing is carried out of it. -/
theorem mulAdd_padded (larger : 1 < base) (positive : 0 < factor)
    (fits : carry + factor * value < base ^ size) :
    mulAdd factor base carry (Nat.digits base value).length (padded base size value) =
      (padded base size (carry + factor * value), 0,
        (Nat.digits base (carry + factor * value)).length) := by
  have inside : value < base ^ size := by
    have grows := Nat.le_mul_of_pos_left value positive
    omega
  have short : (Nat.digits base value).length ≤ size :=
    (Nat.digits_length_le_iff larger value).mpr inside
  have whole : (Nat.digits base value).length + (size - (Nat.digits base value).length) = size := by
    omega
  have canonical : ∀ nonempty, (Nat.digits base value).getLast nonempty ≠ 0 := fun nonempty =>
    Nat.getLast_digit_ne_zero base (Nat.digits_ne_nil_iff_ne_zero.mp nonempty)
  have fitsDigits : carry + factor * Nat.ofDigits base (Nat.digits base value) <
      base ^ ((Nat.digits base value).length + (size - (Nat.digits base value).length)) := by
    rwa [Nat.ofDigits_digits, whole]
  have multiplied := mulAdd_append larger positive canonical fitsDigits
  rwa [Nat.ofDigits_digits, whole] at multiplied

theorem take_padded :
    (padded base size value).take (Nat.digits base value).length = Nat.digits base value := by
  rw [padded, List.take_left']
  rfl

/-- A ratio of digit counts that holds for one power holds for all of them, rounded up. -/
theorem pow_le_pow_ratio {target numerator denominator : Nat} (positive : 0 < denominator)
    (one : 0 < target) (ratio : source ^ denominator ≤ target ^ numerator) (count : Nat) :
    source ^ count ≤ target ^ (count * numerator / denominator + 1) := by
  have rounded : count * numerator ≤ denominator * (count * numerator / denominator + 1) := by
    have remainder := Nat.div_add_mod (count * numerator) denominator
    have small := Nat.mod_lt (count * numerator) positive
    rw [Nat.mul_add]
    omega
  have powers : (source ^ count) ^ denominator ≤
      (target ^ (count * numerator / denominator + 1)) ^ denominator :=
    calc (source ^ count) ^ denominator
        = (source ^ denominator) ^ count := Nat.pow_right_comm _ _ _
      _ ≤ (target ^ numerator) ^ count := Nat.pow_le_pow_left ratio count
      _ = target ^ (count * numerator) := by rw [← Nat.pow_mul, Nat.mul_comm]
      _ ≤ target ^ (denominator * (count * numerator / denominator + 1)) :=
          Nat.pow_le_pow_right one rounded
      _ = _ := by rw [← Nat.pow_mul, Nat.mul_comm]
  exact (Nat.pow_le_pow_iff_left (by omega)).mp powers

/-- A buffer with room for some digits to come has room for the rest of them after the next. -/
theorem room_step {remaining : Nat} (small : carry < factor)
    (room : (value + 1) * factor ^ (remaining + 1) ≤ base ^ size) :
    (carry + factor * value + 1) * factor ^ remaining ≤ base ^ size :=
  calc (carry + factor * value + 1) * factor ^ remaining
      ≤ (factor + factor * value) * factor ^ remaining := Nat.mul_le_mul_right _ (by omega)
    _ = (value + 1) * factor ^ (remaining + 1) := by ring
    _ ≤ base ^ size := room

/-- Where there is room for more digits a value fits. -/
theorem lt_of_room {remaining : Nat} (positive : 0 < factor)
    (room : (value + 1) * factor ^ remaining ≤ base ^ size) : value < base ^ size :=
  Nat.lt_of_succ_le ((Nat.le_mul_of_pos_right _ (Nat.pow_pos positive)).trans room)

/-! Changes of base -/

/-- The zeros a string of digits begins with. -/
def leadingZeros (digits : List Nat) : Nat := (digits.takeWhile (· = 0)).length

/-- The number that a string of digits denotes, most significant digit first. -/
def number (base : Nat) (digits : List Nat) : Nat := Nat.ofDigits base digits.reverse

/-- The number after digits were written behind those of a number. -/
def shiftIn (base value : Nat) (digits : List Nat) : Nat :=
  digits.foldl (fun value digit => digit + base * value) value

/-- The same number in another base, behind as many zeros. -/
def rebase (source target : Nat) (digits : List Nat) : List Nat :=
  List.replicate (leadingZeros digits) 0 ++ (Nat.digits target (number source digits)).reverse

theorem shiftIn_zero (base : Nat) (digits : List Nat) :
    shiftIn base 0 digits = number base digits := by
  rw [number, Nat.ofDigits_eq_foldr, List.foldr_reverse]
  rfl

/-- Shifting digits in makes nothing smaller. -/
theorem le_shiftIn (positive : 0 < base) (value : Nat) (digits : List Nat) :
    value ≤ shiftIn base value digits := by
  induction digits generalizing value with
  | nil => exact Nat.le_refl value
  | cons digit rest ih =>
    calc value
        ≤ base * value := Nat.le_mul_of_pos_left value positive
      _ ≤ digit + base * value := Nat.le_add_left _ _
      _ ≤ shiftIn base value (digit :: rest) := ih _

@[simp] theorem leadingZeros_zero_cons (digits : List Nat) :
    leadingZeros (0 :: digits) = leadingZeros digits + 1 := by
  simp [leadingZeros]

theorem leadingZeros_cons_of_ne {digit : Nat} (nonzero : digit ≠ 0) (digits : List Nat) :
    leadingZeros (digit :: digits) = 0 := by
  simp [leadingZeros, nonzero]

@[simp] theorem number_zero_cons (base : Nat) (digits : List Nat) :
    number base (0 :: digits) = number base digits := by
  rw [number, Nat.ofDigits_reverse_zero_cons, number]

/-- Leading zeros can be counted and skipped where the digits are looked up from. -/
theorem rebase_map {Symbol : Type} (source target : Nat) {lookup : Symbol → Nat}
    {isZero : Symbol → Bool} {symbols : List Symbol}
    (zero : ∀ symbol ∈ symbols, lookup symbol = 0 ↔ isZero symbol = true) :
    rebase source target (symbols.map lookup) =
      List.replicate (symbols.takeWhile isZero).length 0 ++
        (Nat.digits target (number source ((symbols.dropWhile isZero).map lookup))).reverse := by
  induction symbols with
  | nil => rfl
  | cons symbol rest ih =>
    have first := zero symbol List.mem_cons_self
    cases leading : isZero symbol with
    | true =>
      rw [List.map_cons, first.mpr leading, rebase, leadingZeros_zero_cons, number_zero_cons,
        List.takeWhile_cons_of_pos leading, List.dropWhile_cons_of_pos leading,
        List.length_cons, List.replicate_succ, List.replicate_succ, List.cons_append,
        List.cons_append, ← ih fun other mem => zero other (List.mem_cons_of_mem _ mem),
        rebase]
    | false =>
      have nonzero : lookup symbol ≠ 0 := fun same => by simp [first.mp same] at leading
      rw [List.takeWhile_cons_of_neg (by simp [leading]),
        List.dropWhile_cons_of_neg (by simp [leading]), List.map_cons, rebase,
        leadingZeros_cons_of_ne nonzero]
      rfl

/-- A string of digits is its leading zeros followed by the digits of its number. -/
theorem eq_zeros_append_digits (larger : 1 < base) (small : ∀ digit ∈ digits, digit < base) :
    List.replicate (leadingZeros digits) 0 ++ (Nat.digits base (number base digits)).reverse =
      digits := by
  induction digits with
  | nil => simp [leadingZeros, number]
  | cons digit rest ih =>
    rcases eq_or_ne digit 0 with rfl | nonzero
    · rw [leadingZeros_zero_cons, number_zero_cons, List.replicate_succ, List.cons_append,
        ih fun other mem => small other (List.mem_cons_of_mem _ mem)]
    · have canonical :
          Nat.digits base (number base (digit :: rest)) = (digit :: rest).reverse := by
        refine Nat.digits_ofDigits base larger _ ?_ ?_
        · exact fun other mem => small other (List.mem_reverse.mp mem)
        · intro nonempty
          simpa using nonzero
      rw [leadingZeros_cons_of_ne nonzero, canonical, List.reverse_reverse]
      rfl

/-- What was written with leading zeros in a base is read back from it. -/
theorem leadingZeros_number (base zeros value : Nat) :
    leadingZeros (List.replicate zeros 0 ++ (Nat.digits base value).reverse) = zeros ∧
      number base (List.replicate zeros 0 ++ (Nat.digits base value).reverse) = value := by
  induction zeros with
  | zero =>
    rw [List.replicate_zero, List.nil_append]
    refine ⟨?_, by rw [number, List.reverse_reverse, Nat.ofDigits_digits]⟩
    cases top : (Nat.digits base value).reverse with
    | nil => rfl
    | cons digit rest =>
      refine leadingZeros_cons_of_ne ?_ rest
      have digits : Nat.digits base value = rest.reverse ++ [digit] := by
        rw [← List.reverse_reverse (Nat.digits base value), top, List.reverse_cons]
      have nonzero : value ≠ 0 := by
        rintro rfl
        simp at digits
      have last := Nat.getLast_digit_ne_zero base nonzero
      simpa only [digits, List.getLast_concat] using last
  | succ zeros ih =>
    rw [List.replicate_succ, List.cons_append, leadingZeros_zero_cons, number_zero_cons]
    exact ⟨congrArg (· + 1) ih.1, ih.2⟩

/-- There is no zero to skip before the digits of a number. -/
theorem dropWhile_digits (base value : Nat) :
    (Nat.digits base value).reverse.dropWhile (· = 0) = (Nat.digits base value).reverse := by
  have none : leadingZeros (Nat.digits base value).reverse = 0 :=
    (leadingZeros_number base 0 value).1
  have split := List.takeWhile_append_dropWhile (p := (· = 0))
    (l := (Nat.digits base value).reverse)
  rwa [List.length_eq_zero_iff.mp none] at split

/-- A change of base is undone by the opposite one. -/
theorem rebase_rebase (larger : 1 < source) (target : Nat)
    (small : ∀ digit ∈ digits, digit < source) :
    rebase target source (rebase source target digits) = digits := by
  obtain ⟨zeros, value⟩ := leadingZeros_number target (leadingZeros digits) (number source digits)
  rw [rebase, rebase, zeros, value]
  exact eq_zeros_append_digits larger small

/-- Digits in a base are below it. -/
theorem rebase_lt {target : Nat} (larger : 1 < target) (digits : List Nat) :
    ∀ digit ∈ rebase source target digits, digit < target := by
  intro digit mem
  rcases List.mem_append.mp mem with zero | inside
  · rw [List.eq_of_mem_replicate zero]
    omega
  · exact Nat.digits_lt_base larger (List.mem_reverse.mp inside)

end Respublica.Foundation.Positional
