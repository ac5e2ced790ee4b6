import Mathlib.Data.List.TakeDrop

/-!
# Regions of a memory

A memory is a list of cells, and a region of it is given by its start and its size. `slice` reads a
region and `patch` writes one. What is written is read back, and a region apart from it keeps what
it held.
-/

namespace Respublica.Foundation.Region

variable {Cell : Type} {memory other cells : List Cell} {start size position : Nat}

/-- The cells of a region. -/
def slice (memory : List Cell) (start size : Nat) : List Cell := (memory.drop start).take size

/-- Write cells from a position on. -/
def patch (memory : List Cell) (start : Nat) (cells : List Cell) : List Cell :=
  memory.take start ++ cells ++ memory.drop (start + cells.length)

/-- Two regions have no cell in common. -/
def Apart (start size position extent : Nat) : Prop :=
  start + size ≤ position ∨ position + extent ≤ start

instance (start size position extent : Nat) : Decidable (Apart start size position extent) :=
  inferInstanceAs (Decidable (_ ∨ _))

theorem length_slice (inside : start + size ≤ memory.length) :
    (slice memory start size).length = size := by
  rw [slice, List.length_take, List.length_drop]
  omega

theorem slice_zero (memory : List Cell) (start : Nat) : slice memory start 0 = [] := List.take_zero

theorem slice_add (memory : List Cell) (start first second : Nat) :
    slice memory start (first + second) =
      slice memory start first ++ slice memory (start + first) second := by
  rw [slice, slice, slice, ← List.drop_drop, List.take_add]

/-- Memories that agree on a region have the same slice. -/
theorem slice_congr (same : ∀ offset < size, memory[start + offset]? = other[start + offset]?) :
    slice memory start size = slice other start size := by
  refine List.ext_getElem? fun offset => ?_
  rw [slice, slice, List.getElem?_take, List.getElem?_take]
  split
  · rename_i inside
    rw [List.getElem?_drop, List.getElem?_drop, same offset inside]
  · rfl

section

variable (inside : start + cells.length ≤ memory.length)
include inside

theorem length_patch :
    (patch memory start cells).length = memory.length := by
  rw [patch, List.length_append, List.length_append, List.length_take, List.length_drop]
  omega

/-- What is written is read back. -/
theorem slice_patch :
    slice (patch memory start cells) start cells.length = cells := by
  have position : (memory.take start).length = start := by
    rw [List.length_take]
    omega
  rw [slice, patch, List.append_assoc, List.drop_left' position, List.take_left' rfl]

/-- Cells outside of what is written stay as they are. -/
theorem getElem?_patch (elsewhere : position < start ∨ start + cells.length ≤ position) :
    (patch memory start cells)[position]? = memory[position]? := by
  have width : (memory.take start).length = start := by
    rw [List.length_take]
    omega
  rw [patch]
  rcases elsewhere with before | behind
  · rw [List.append_assoc, List.getElem?_append_left (by omega), List.getElem?_take, if_pos before]
  · rw [List.getElem?_append_right (by rw [List.length_append, width]; omega), List.length_append,
      width, List.getElem?_drop]
    congr 1
    omega

/-- Patched cells read as the patch. -/
theorem getElem?_patch_inside {offset : Nat}
    (bound : offset < cells.length) :
    (patch memory start cells)[start + offset]? = cells[offset]? := by
  have width : (memory.take start).length = start := by
    rw [List.length_take]
    omega
  rw [patch, List.append_assoc, List.getElem?_append_right (by omega), width,
    Nat.add_sub_cancel_left, List.getElem?_append_left bound]

/-- A slice inside a patch is one of the patch. -/
theorem slice_patch_within {offset extent : Nat} (bound : offset + extent ≤ cells.length) :
    slice (patch memory start cells) (start + offset) extent = slice cells offset extent := by
  refine List.ext_getElem? fun place => ?_
  rw [slice, slice, List.getElem?_take, List.getElem?_take]
  split
  · rename_i near
    rw [List.getElem?_drop, List.getElem?_drop, Nat.add_assoc,
      getElem?_patch_inside inside (by omega)]
  · rfl

/-- A slice apart from a patch is as before. -/
theorem slice_patch_of_apart {extent : Nat} (apart : Apart start cells.length position extent) :
    slice (patch memory start cells) position extent = slice memory position extent := by
  refine slice_congr fun offset bound => getElem?_patch inside ?_
  rcases apart with before | behind
  · exact .inr (by omega)
  · exact .inl (by omega)

/-- Every cell is inside of a region or not. -/
theorem eq_patch (same : ∀ position, position < start ∨ start + cells.length ≤ position →
      other[position]? = memory[position]?)
    (written : ∀ offset < cells.length, other[start + offset]? = cells[offset]?) :
    other = patch memory start cells := by
  refine List.ext_getElem? fun position => ?_
  by_cases elsewhere : position < start ∨ start + cells.length ≤ position
  · rw [same position elsewhere, getElem?_patch inside elsewhere]
  · obtain ⟨offset, rfl⟩ := Nat.exists_eq_add_of_le (show start ≤ position by omega)
    rw [written offset (by omega), getElem?_patch_inside inside (by omega)]

end

variable {more : List Cell}

/-- Writing on where a write ended is one write. -/
theorem patch_append (inside : start + (cells.length + more.length) ≤ memory.length) :
    patch (patch memory start cells) (start + cells.length) more =
      patch memory start (cells ++ more) := by
  have first : start + cells.length ≤ memory.length := by omega
  have second : start + cells.length + more.length ≤ (patch memory start cells).length := by
    rw [length_patch first]
    omega
  refine eq_patch (by rwa [List.length_append]) (fun position elsewhere => ?_)
    fun offset bound => ?_
  · rw [List.length_append] at elsewhere
    rw [getElem?_patch second (by omega), getElem?_patch first (by omega)]
  · rw [List.length_append] at bound
    rcases Nat.lt_or_ge offset cells.length with early | late
    · rw [getElem?_patch second (by omega), getElem?_patch_inside first early,
        List.getElem?_append_left early]
    · obtain ⟨rest, rfl⟩ := Nat.exists_eq_add_of_le late
      rw [← Nat.add_assoc, getElem?_patch_inside second (by omega),
        List.getElem?_append_right late, Nat.add_sub_cancel_left]

/-- Writes to regions apart can be made in either order. -/
theorem patch_comm (inside : start + cells.length ≤ memory.length)
    (insideOther : position + more.length ≤ memory.length)
    (apart : Apart start cells.length position more.length) :
    patch (patch memory start cells) position more = patch (patch memory position more) start
      cells := by
  have first : position + more.length ≤ (patch memory start cells).length := by
    rwa [length_patch inside]
  have second : start + cells.length ≤ (patch memory position more).length := by
    rwa [length_patch insideOther]
  rw [Apart] at apart
  refine eq_patch second (fun place elsewhere => ?_) fun offset bound => ?_
  · by_cases there : place < position ∨ position + more.length ≤ place
    · rw [getElem?_patch first there, getElem?_patch inside elsewhere,
        getElem?_patch insideOther there]
    · obtain ⟨offset, rfl⟩ := Nat.exists_eq_add_of_le (show position ≤ place by omega)
      rw [getElem?_patch_inside first (by omega), getElem?_patch_inside insideOther (by omega)]
  · rw [getElem?_patch first (by omega), getElem?_patch_inside inside bound]

/-- A write is lost when another one is made to the same region. -/
theorem patch_patch (inside : start + cells.length ≤ memory.length)
    (sameSize : more.length = cells.length) :
    patch (patch memory start cells) start more = patch memory start more := by
  have first : start + more.length ≤ (patch memory start cells).length := by
    rw [length_patch inside, sameSize]
    exact inside
  refine eq_patch (by rwa [sameSize]) (fun position elsewhere => ?_) fun offset bound => ?_
  · rw [getElem?_patch first elsewhere, getElem?_patch inside (by omega)]
  · exact getElem?_patch_inside first bound

/-- A cell that is written again and again beside a growing text holds what was written last. -/
theorem patch_beside {cell text latest : List Cell} (sameSize : latest.length = cell.length)
    (inside : start + cell.length ≤ memory.length)
    (room : position + (text.length + more.length) ≤ memory.length)
    (apart : Apart start cell.length position (text.length + more.length)) :
    patch (patch (patch (patch memory start cell) position text) start latest)
        (position + text.length) more =
      patch (patch memory start latest) position (text ++ more) := by
  have insideLatest : start + latest.length ≤ memory.length := by rwa [sameSize]
  have apartText : Apart start latest.length position text.length := by
    rw [Apart] at apart ⊢
    omega
  have widthCell := length_patch inside
  have widthLatest := length_patch insideLatest
  calc patch (patch (patch (patch memory start cell) position text) start latest)
        (position + text.length) more
      = patch (patch (patch (patch memory start cell) start latest) position text)
          (position + text.length) more := by
        rw [patch_comm (by omega) (by omega) apartText]
    _ = patch (patch (patch memory start latest) position text) (position + text.length) more := by
        rw [patch_patch inside sameSize]
    _ = patch (patch memory start latest) position (text ++ more) := patch_append (by omega)

end Respublica.Foundation.Region
