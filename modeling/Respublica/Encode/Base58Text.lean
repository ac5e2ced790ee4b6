import Respublica.Encode.Base58
import Mathlib.Data.List.TakeWhile

/-!
# Base58 texts

Encoding is a change of base, and so is decoding a view in which the loop over `1`s ends. Hence
bytes and the texts that spell them in base58 determine each other, whatever spaces surround a text.

A view of nothing but `1`s does not end that loop, and the decoder goes on behind the view.
-/

namespace Respublica.Encode

open Foundation Positional

/-! Encoding -/

/-- The buffer is large enough for all bytes, so encoding is a change of base. -/
theorem toBase58_eq (s : Bytes) :
    toBase58 s = .ok ((rebase 256 58 (s.map UInt8.toNat)).map characterOf) := by
  have zero (byte : UInt8) : byte.toNat = 0 ↔ decide (byte = 0) = true := by
    rw [decide_eq_true_iff, ← UInt8.toNat_inj]
    rfl
  have room : (0 + 1) * 256 ^ (s.dropWhile (· = 0)).length ≤
      58 ^ ((s.dropWhile (· = 0)).length * 138 / 100 + 1) := by
    rw [Nat.zero_add, Nat.one_mul]
    exact pow_le_pow_ratio (by omega) (by omega) (by decide +kernel) _
  rw [rebase_map 256 58 fun byte _ => zero byte, toBase58, encodeBase58, zero_eq_holding 58,
    encodeBytes_eq room, shiftIn_zero, List.map_append, List.map_replicate]
  change Except.ok _ = Except.ok _
  rw [used_holding, dropWhile_digits]
  rfl

/-! Decoding -/

/-- What decoding a view returns as far as the view determines it. -/
def viewResult (maxRetLen : Nat) (view : Bytes) : Decoding Bytes :=
  let start := view.dropWhile isSpace
  let zeroes := (start.takeWhile (· = char '1')).length
  let rest := start.dropWhile (· = char '1')
  if maxRetLen < zeroes then .ok (.error .invalidLength)
  else
    andThen (feed maxRetLen zeroes (Digits.zero (view.length * 733 / 1000 + 1))
        (rest.takeWhile fun c => !isSpace c)) fun b256 =>
      if (rest.dropWhile fun c => !isSpace c).dropWhile isSpace ≠ [] then
        .ok (.error .invalidLength)
      else .ok (.ok (List.replicate zeroes 0 ++ b256.used.map UInt8.ofNat))

/-- Decoding reads the view alone where the ones end in it. -/
theorem decodeBase58_eq {maxRetLen : Nat} {view beyond : Bytes}
    (ends : OnesEnd maxRetLen 0 (view.dropWhile isSpace) beyond) :
    decodeBase58 (view ++ beyond) view.length maxRetLen = viewResult maxRetLen view := by
  have ones := countOnes_eq (Nat.zero_le maxRetLen) ends
  rw [Nat.zero_add] at ones
  simp only [decodeBase58, skipSpaces_eq, ones, viewResult]
  by_cases many : maxRetLen < ((view.dropWhile isSpace).takeWhile (· = char '1')).length
  · rw [if_pos many, if_pos many, andThen_error]
  · rw [if_neg many, if_neg many, andThen_ok, decodeCharacters_eq, andThen_assoc]
    simp only [andThen_ok, skipSpaces_eq, ne_eq, Int.natCast_eq_zero, List.length_eq_zero_iff]

/-- A body of base58 characters between spaces. -/
structure Spelled (s body : Bytes) : Prop where
  surrounded : ∃ before after, s = before ++ body ++ after ∧
    (∀ c ∈ before, isSpace c = true) ∧ ∀ c ∈ after, isSpace c = true
  alphabet : ∀ c ∈ body, c ∈ pszBase58

/-- The bytes that a body of base58 characters stands for. -/
def decoded (body : Bytes) : Bytes := (rebase 58 256 (body.map digitOf)).map UInt8.ofNat

/-- The body is what stands between the leading spaces and the next space. -/
theorem spelled_iff {view body : Bytes} :
    Spelled view body ↔ body = (view.dropWhile isSpace).takeWhile (fun c => !isSpace c) ∧
      (∀ c ∈ body, c ∈ pszBase58) ∧
      ((view.dropWhile isSpace).dropWhile fun c => !isSpace c).dropWhile isSpace = [] := by
  constructor
  · rintro ⟨⟨before, after, rfl, leading, trailing⟩, alphabet⟩
    have visible : ∀ c ∈ body, (!isSpace c) = true := fun c mem => by
      rw [isSpace_of_mem (alphabet c mem)]
      rfl
    have afterTaken : after.takeWhile (fun c => !isSpace c) = [] := by
      rw [List.takeWhile_eq_nil_iff]
      intro present
      simpa using trailing _ (List.getElem_mem present)
    have afterDropped : after.dropWhile (fun c => !isSpace c) = after := by
      rw [List.dropWhile_eq_self_iff]
      intro present
      simpa using trailing _ (List.getElem_mem present)
    rw [List.append_assoc, List.dropWhile_append_of_pos leading]
    cases body with
    | nil => simp [List.dropWhile_eq_nil_iff.mpr trailing]
    | cons c rest =>
      have first : ¬ isSpace c = true := by simpa using visible c List.mem_cons_self
      rw [List.cons_append, List.dropWhile_cons_of_neg first, ← List.cons_append,
        List.takeWhile_append_of_pos visible, List.dropWhile_append_of_pos visible, afterTaken,
        afterDropped, List.append_nil]
      exact ⟨rfl, alphabet, List.dropWhile_eq_nil_iff.mpr trailing⟩
  · rintro ⟨rfl, alphabet, trailing⟩
    refine ⟨⟨view.takeWhile isSpace, (view.dropWhile isSpace).dropWhile fun c => !isSpace c, ?_, ?_,
      List.dropWhile_eq_nil_iff.mp trailing⟩, alphabet⟩
    · rw [List.append_assoc, List.takeWhile_append_dropWhile, List.takeWhile_append_dropWhile]
    · exact fun c mem => List.mem_takeWhile_imp mem

/-- Leading `1`s are part of the body. -/
theorem takeWhile_ones (start : Bytes) :
    (start.takeWhile fun c => !isSpace c).takeWhile (· = char '1') =
        start.takeWhile (· = char '1') ∧
      (start.takeWhile fun c => !isSpace c).dropWhile (· = char '1') =
        (start.dropWhile (· = char '1')).takeWhile (fun c => !isSpace c) ∧
      (start.dropWhile fun c => !isSpace c) =
        (start.dropWhile (· = char '1')).dropWhile fun c => !isSpace c := by
  have visible : ∀ c ∈ start.takeWhile (· = char '1'), (!isSpace c) = true := by
    intro c mem
    have one : c = char '1' := by simpa using List.mem_takeWhile_imp mem
    rw [one]
    rfl
  have whole := List.takeWhile_append_dropWhile (p := (· = char '1')) (l := start)
  have body : start.takeWhile (fun c => !isSpace c) = start.takeWhile (· = char '1') ++
      (start.dropWhile (· = char '1')).takeWhile fun c => !isSpace c := by
    rw [← List.takeWhile_append_of_pos visible, whole]
  have tail : start.dropWhile (fun c => !isSpace c) =
      (start.dropWhile (· = char '1')).dropWhile fun c => !isSpace c := by
    conv_lhs => rw [← whole]
    exact List.dropWhile_append_of_pos visible
  have ones : (start.takeWhile fun c => !isSpace c).takeWhile (· = char '1') =
      start.takeWhile (· = char '1') := by
    rw [List.takeWhile_takeWhile]
    congr 1
    funext c
    rw [decide_eq_decide]
    constructor
    · exact fun both => by simpa using both.1
    · rintro rfl
      exact ⟨by simp, rfl⟩
  refine ⟨ones, ?_, tail⟩
  have split := List.takeWhile_append_dropWhile (p := (· = char '1'))
    (l := start.takeWhile fun c => !isSpace c)
  rw [ones] at split
  exact List.append_cancel_left (split.trans body)

/-- Digits in a body are looked up behind its leading `1`s. -/
theorem decoded_eq {body : Bytes} (alphabet : ∀ c ∈ body, c ∈ pszBase58) :
    decoded body = List.replicate (body.takeWhile (· = char '1')).length 0 ++
      (Nat.digits 256 (number 58 ((body.dropWhile (· = char '1')).map digitOf))).reverse.map
        UInt8.ofNat := by
  have zero : ∀ c ∈ body, digitOf c = 0 ↔ decide (c = char '1') = true := fun c mem => by
    rw [decide_eq_true_iff]
    exact digitOf_eq_zero_iff (alphabet c mem)
  rw [decoded, rebase_map 58 256 zero, List.map_append, List.map_replicate]
  rfl

/-- What the decoder finds out about a view, in terms of its parts. -/
theorem spelled_decoded_iff (maxRetLen : Nat) (view x : Bytes) :
    (∃ body, Spelled view body ∧ (decoded body).length ≤ maxRetLen ∧ x = decoded body) ↔
      let start := view.dropWhile isSpace
      let zeroes := (start.takeWhile (· = char '1')).length
      let rest := start.dropWhile (· = char '1')
      let chars := rest.takeWhile fun c => !isSpace c
      let digits := Nat.digits 256 (number 58 (chars.map digitOf))
      (∀ c ∈ chars, c ∈ pszBase58) ∧ digits.length + zeroes ≤ maxRetLen ∧
        (rest.dropWhile fun c => !isSpace c).dropWhile isSpace = [] ∧
        x = List.replicate zeroes 0 ++ digits.reverse.map UInt8.ofNat := by
  obtain ⟨ones, digits, tail⟩ := takeWhile_ones (view.dropWhile isSpace)
  have split := List.takeWhile_append_dropWhile (p := (· = char '1'))
    (l := (view.dropWhile isSpace).takeWhile fun c => !isSpace c)
  rw [ones, digits] at split
  have alphabet_iff :
      (∀ c ∈ (view.dropWhile isSpace).takeWhile (fun c => !isSpace c), c ∈ pszBase58) ↔
      ∀ c ∈ ((view.dropWhile isSpace).dropWhile (· = char '1')).takeWhile (fun c => !isSpace c),
        c ∈ pszBase58 := by
    rw [← split, List.forall_mem_append, and_iff_right]
    intro c mem
    have one : c = char '1' := by simpa using List.mem_takeWhile_imp mem
    rw [one]
    exact List.mem_cons_self
  simp only [spelled_iff, and_assoc, exists_eq_left, tail, alphabet_iff]
  refine and_congr_right fun alphabet => ?_
  have reads := decoded_eq (alphabet_iff.mpr alphabet)
  rw [ones, digits] at reads
  rw [reads]
  simp only [List.length_append, List.length_replicate, List.length_map, List.length_reverse]
  rw [Nat.add_comm]
  tauto

/-- A view that ends the loop over `1`s is decoded without a fault, and accepted if it is spelled
in base58 and what it stands for is not too long. -/
theorem viewResult_accepts (maxRetLen : Nat) (view : Bytes) :
    ∃ result, viewResult maxRetLen view = .ok result ∧ ∀ x, result = .ok x ↔
      ∃ body, Spelled view body ∧ (decoded body).length ≤ maxRetLen ∧ x = decoded body := by
  simp only [spelled_decoded_iff, viewResult]
  by_cases many : maxRetLen < ((view.dropWhile isSpace).takeWhile (· = char '1')).length
  · rw [if_pos many]
    refine ⟨_, rfl, fun x => ⟨by rintro ⟨⟩, ?_⟩⟩
    rintro ⟨-, short, -⟩
    omega
  · have shorter : (((view.dropWhile isSpace).dropWhile (· = char '1')).takeWhile
        fun c => !isSpace c).length ≤ view.length :=
      (List.takeWhile_prefix _).length_le.trans
        ((List.length_dropWhile_le _ _).trans (List.length_dropWhile_le _ _))
    have room : (0 + 1) * 58 ^ (((view.dropWhile isSpace).dropWhile (· = char '1')).takeWhile
        fun c => !isSpace c).length ≤ 256 ^ (view.length * 733 / 1000 + 1) := by
      rw [Nat.zero_add, Nat.one_mul]
      exact (Nat.pow_le_pow_right (by omega) shorter).trans
        (pow_le_pow_ratio (by omega) (by omega) (by decide +kernel) _)
    obtain ⟨fed, gave, accepted⟩ := feed_eq room (by simpa using many)
    rw [shiftIn_zero] at accepted
    rw [if_neg many, zero_eq_holding 256, gave]
    rcases fed with error | b256
    · refine ⟨_, rfl, fun x => ⟨by rintro ⟨⟩, ?_⟩⟩
      rintro ⟨alphabet, short, -⟩
      cases (accepted _).mpr ⟨rfl, alphabet, short⟩
    · obtain ⟨rfl, alphabet, short⟩ := (accepted b256).mp rfl
      rw [andThen_ok, used_holding]
      split
      · rename_i trailing
        exact ⟨_, rfl, fun x => ⟨by rintro ⟨⟩, fun parts => absurd parts.2.2.1 trailing⟩⟩
      · rename_i trailing
        refine ⟨_, rfl, fun x => ?_⟩
        rw [and_iff_right alphabet, and_iff_right short, and_iff_right (not_not.mp trailing),
          Except.ok.injEq, eq_comm]

/-- A terminator ends the ones. -/
theorem onesEnd_of_terminated (maxRetLen zeroes : Nat) (inside beyond : Bytes) :
    OnesEnd maxRetLen zeroes inside (0 :: beyond) :=
  .inr (.inr ⟨0, beyond, rfl, by decide⟩)

/-- Encoding what a body stands for gives the body back. -/
theorem toBase58_decoded {body : Bytes} (alphabet : ∀ c ∈ body, c ∈ pszBase58) :
    toBase58 (decoded body) = .ok body := by
  have bytes : (decoded body).map UInt8.toNat = rebase 58 256 (body.map digitOf) := by
    rw [decoded, List.map_map, List.map_congr_left (g := id), List.map_id]
    intro digit mem
    exact Nat.mod_eq_of_lt (rebase_lt (by omega) _ digit mem)
  have small : ∀ digit ∈ body.map digitOf, digit < 58 := by
    intro digit mem
    obtain ⟨c, inside, rfl⟩ := List.mem_map.mp mem
    exact (mapBase58_of_mem (alphabet c inside)).2.1
  rw [toBase58_eq, bytes, rebase_rebase (by omega) _ small, List.map_map,
    List.map_congr_left (g := id), List.map_id]
  exact fun c mem => (mapBase58_of_mem (alphabet c mem)).2.2

/-- Encoded bytes are spelled in base58, and stand for the bytes. -/
theorem spelled_encoded (x : Bytes) :
    ∃ s, toBase58 x = .ok s ∧ Spelled s s ∧ decoded s = x := by
  have digits : ∀ digit ∈ rebase 256 58 (x.map UInt8.toNat), digit < 58 := rebase_lt (by omega) _
  have small : ∀ digit ∈ x.map UInt8.toNat, digit < 256 := by
    intro digit mem
    obtain ⟨byte, -, rfl⟩ := List.mem_map.mp mem
    exact byte.toNat_lt
  have looked : ((rebase 256 58 (x.map UInt8.toNat)).map characterOf).map digitOf =
      rebase 256 58 (x.map UInt8.toNat) := by
    rw [List.map_map, List.map_congr_left (g := id), List.map_id]
    exact fun digit mem => (digitOf_characterOf (digits digit mem)).1
  refine ⟨_, toBase58_eq x, ⟨⟨[], [], by simp, by simp, by simp⟩, ?_⟩, ?_⟩
  · intro c mem
    obtain ⟨digit, inside, rfl⟩ := List.mem_map.mp mem
    exact (digitOf_characterOf (digits digit inside)).2
  · rw [decoded, looked, rebase_rebase (by omega) _ small, List.map_map,
      List.map_congr_left (g := id), List.map_id]
    exact fun byte _ => UInt8.ofNat_toNat

/-- Encoding always returns, and what it returns is decoded again. A terminated text is decoded
without a fault; it is accepted if it is spelled in base58 and does not stand for too much, and
encoding the result gives its body back. -/
theorem base58_round_trips :
    (∀ x, ∃ s, toBase58 x = .ok s) ∧
      (∀ x : Bytes, x.length ≤ maxArraySize →
        ∃ s, toBase58 x = .ok s ∧ ∀ beyond, fromBase58 s (0 :: beyond) = .ok (.ok x)) ∧
      ∀ s beyond, ∃ result, fromBase58 s (0 :: beyond) = .ok result ∧
        ((∃ x, result = .ok x) ↔ ∃ body, Spelled s body ∧ (decoded body).length ≤ maxArraySize) ∧
        ∀ x, result = .ok x → ∃ body, Spelled s body ∧ toBase58 x = .ok body := by
  refine ⟨fun x => ⟨_, toBase58_eq x⟩, fun x short => ?_, fun s beyond => ?_⟩
  · obtain ⟨s, encoded, spelled, stands⟩ := spelled_encoded x
    refine ⟨s, encoded, fun beyond => ?_⟩
    obtain ⟨result, gave, accepted⟩ := viewResult_accepts maxArraySize s
    rw [fromBase58, decodeBase58_eq (onesEnd_of_terminated _ _ _ _), gave,
      (accepted x).mpr ⟨s, spelled, stands.symm ▸ short, stands.symm⟩]
  · obtain ⟨result, gave, accepted⟩ := viewResult_accepts maxArraySize s
    refine ⟨result, ?_, ?_, fun x success => ?_⟩
    · rw [fromBase58, decodeBase58_eq (onesEnd_of_terminated _ _ _ _), gave]
    · simp only [accepted]
      constructor
      · rintro ⟨_, body, spelled, short, -⟩
        exact ⟨body, spelled, short⟩
      · rintro ⟨body, spelled, short⟩
        exact ⟨_, body, spelled, short, rfl⟩
    · obtain ⟨body, spelled, -, rfl⟩ := (accepted x).mp success
      exact ⟨body, spelled, toBase58_decoded spelled.alphabet⟩

/-- A zero and a byte, and a text with spaces, are converted there and back. -/
theorem base58_round_trips_two :
    (∃ s, toBase58 [0, 255] = .ok s ∧ fromBase58 s [0] = .ok (.ok [0, 255])) ∧
      ∃ body, Spelled (text [' ', '1', '2', ' ']) body ∧ toBase58 [0, 1] = .ok body := by
  constructor
  · obtain ⟨s, encoded, read⟩ := base58_round_trips.2.1 [0, 255] (by decide)
    exact ⟨s, encoded, read []⟩
  · obtain ⟨result, gave, -, body⟩ := base58_round_trips.2.2 (text [' ', '1', '2', ' ']) []
    have success : fromBase58 (text [' ', '1', '2', ' ']) [0] = .ok (.ok [0, 1]) := rfl
    exact body _ (Except.ok.inj (gave.symm.trans success))

/-- Decoding depends on the view alone if and only if the loop over `1`s ends inside it: at another
character, or because there are too many of them. -/
theorem base58_reads_view_iff (view : Bytes) :
    (∃ result, ∀ beyond, fromBase58 view beyond = .ok result) ↔
      (view.dropWhile isSpace).dropWhile (· = char '1') ≠ [] ∨
        maxArraySize < ((view.dropWhile isSpace).takeWhile (· = char '1')).length := by
  constructor
  · rintro ⟨result, gave⟩
    by_contra inside
    obtain ⟨only, few⟩ := not_or.mp inside
    have outside : countOnes maxArraySize 0 (view.dropWhile isSpace).length
        (view.dropWhile isSpace) = .error .outside :=
      countOnes_outside (not_not.mp only) (by omega) _
    have read := gave []
    rw [fromBase58, decodeBase58, skipSpaces_eq, List.append_nil] at read
    simp only [outside] at read
    cases read
  · intro ends
    obtain ⟨result, gave, -⟩ := viewResult_accepts maxArraySize view
    refine ⟨result, fun beyond => ?_⟩
    rw [fromBase58, decodeBase58_eq, gave]
    rcases ends with other | many
    · exact .inl other
    · exact .inr (.inl (by omega))

/-- Nothing is left of an empty view when the first character is examined, and a `1` at the end of
a view is decoded differently before different bytes. -/
theorem base58_reads_behind_view :
    fromBase58 [] [] = .error .outside ∧ fromBase58 (text ['1']) [0] = .ok (.ok [0]) ∧
      fromBase58 (text ['1']) (text ['1'] ++ [0]) = .ok (.error .invalidCharacter) :=
  ⟨rfl, rfl, rfl⟩

end Respublica.Encode
