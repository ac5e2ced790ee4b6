import Mathlib.Data.List.Nodup
import Mathlib.Data.List.Perm.Subperm
import Mathlib.Logic.Relation

/-!
# Work lists over a forest

`scan` reads a growing list from the front and appends the children of each entry, until it
has read everything. What it reads is exactly what can be reached from the start. If no entry
has two parents and none is its own descendant, nothing is read twice, so a scan of a finite
universe ends.
-/

namespace Respublica.Foundation.Worklist

variable {Node : Type} (children : Node → List Node)

/-- Everything read by a scan, in order; `none` when the steps do not suffice. -/
def scan : Nat → List Node → Option (List Node)
  | _, [] => some []
  | 0, _ :: _ => none
  | steps + 1, first :: rest => (scan steps (rest ++ children first)).map (first :: ·)

/-- One node is listed below the other. -/
def Child (parent child : Node) : Prop := child ∈ children parent

variable {children}

variable {steps : Nat} {queue pending universe_ : List Node} {start : Node}

theorem scan_cons {first : Node} {rest : List Node} :
    scan children (steps + 1) (first :: rest) = some queue ↔
      ∃ behind, scan children steps (rest ++ children first) = some behind ∧
        queue = first :: behind := by
  rw [scan, Option.map_eq_some_iff]
  exact exists_congr fun _ => and_congr_right fun _ => eq_comm

/-- A completed scan has read what can be reached from what was pending. -/
theorem mem_scan_iff (completed : scan children steps pending = some queue) (node : Node) :
    node ∈ queue ↔ ∃ start ∈ pending, Relation.ReflTransGen (Child children) start node := by
  induction steps generalizing pending queue with
  | zero =>
    cases pending with
    | nil => simp_all [scan]
    | cons first rest => cases completed
  | succ steps ih =>
    cases pending with
    | nil => simp_all [scan]
    | cons first rest =>
      obtain ⟨behind, later, rfl⟩ := scan_cons.mp completed
      rw [List.mem_cons, ih later]
      constructor
      · rintro (rfl | ⟨start, mem, reached⟩)
        · exact ⟨node, List.mem_cons_self, .refl⟩
        · rcases List.mem_append.mp mem with inRest | isChild
          · exact ⟨start, List.mem_cons_of_mem _ inRest, reached⟩
          · exact ⟨first, List.mem_cons_self, reached.head isChild⟩
      · rintro ⟨start, mem, reached⟩
        rcases List.mem_cons.mp mem with rfl | inRest
        · rcases reached.cases_head with rfl | ⟨child, isChild, below⟩
          · exact .inl rfl
          · exact .inr ⟨child, List.mem_append_right _ isChild, below⟩
        · exact .inr ⟨start, List.mem_append_left _ inRest, reached⟩

/-- Children form a forest inside a finite universe, with nothing above the start. -/
structure Grounded (children : Node → List Node) (universe_ : List Node) (start : Node) : Prop where
  inside : ∀ parent, ∀ child ∈ children parent, child ∈ universe_
  nodup : ∀ parent, (children parent).Nodup
  unique : ∀ parent other child, child ∈ children parent → child ∈ children other → parent = other
  topmost : ∀ node, Relation.ReflTransGen (Child children) start node → start ∉ children node

/-- What was read and what is pending has no repetition, and apart from the start all of it
is there because its parent was read. -/
structure Progress (children : Node → List Node) (universe_ : List Node) (start : Node)
    (done pending : List Node) : Prop where
  nodup : (done ++ pending).Nodup
  inside : ∀ node ∈ done ++ pending, node ∈ universe_
  reached : ∀ node ∈ done ++ pending, Relation.ReflTransGen (Child children) start node
  listed : ∀ node ∈ done ++ pending, node = start ∨ ∃ parent ∈ done, node ∈ children parent

namespace Progress

variable {universe_ done rest : List Node} {start first : Node}

/-- No child of a pending node is there yet. -/
theorem child_notMem (progress : Progress children universe_ start done (first :: rest))
    (grounded : Grounded children universe_ start) {child : Node}
    (isChild : child ∈ children first) : child ∉ done ++ first :: rest := by
  intro mem
  have firstReached := progress.reached first (by simp)
  rcases progress.listed child mem with rfl | ⟨parent, isDone, below⟩
  · exact grounded.topmost first firstReached isChild
  · obtain rfl := grounded.unique parent first child below isChild
    exact List.disjoint_of_nodup_append progress.nodup isDone List.mem_cons_self

/-- One step of the scan makes progress. -/
theorem step (progress : Progress children universe_ start done (first :: rest))
    (grounded : Grounded children universe_ start) :
    Progress children universe_ start (done ++ [first]) (rest ++ children first) := by
  have same : done ++ [first] ++ (rest ++ children first) =
      (done ++ first :: rest) ++ children first := by simp
  refine ⟨?_, ?_, ?_, ?_⟩ <;> rw [same]
  · refine List.Nodup.append progress.nodup (grounded.nodup first) ?_
    exact fun node mem isChild => progress.child_notMem grounded isChild mem
  · intro node mem
    rcases List.mem_append.mp mem with old | isChild
    · exact progress.inside node old
    · exact grounded.inside first node isChild
  · intro node mem
    rcases List.mem_append.mp mem with old | isChild
    · exact progress.reached node old
    · exact (progress.reached first (by simp)).tail isChild
  · intro node mem
    rcases List.mem_append.mp mem with old | isChild
    · refine (progress.listed node old).imp_right ?_
      rintro ⟨parent, isDone, below⟩
      exact ⟨parent, List.mem_append_left _ isDone, below⟩
    · exact .inr ⟨first, by simp, isChild⟩

end Progress

/-- A scan with room for what is left of the universe completes and reads nothing twice. -/
theorem scan_completes_of_progress (grounded : Grounded children universe_ start) {done : List Node}
    (progress : Progress children universe_ start done pending)
    (room : universe_.length ≤ steps + done.length) :
    ∃ queue, scan children steps pending = some queue ∧ (done ++ queue).Nodup := by
  induction steps generalizing done pending with
  | zero =>
    cases pending with
    | nil => exact ⟨[], rfl, progress.nodup⟩
    | cons first rest =>
      have bounded := (List.subperm_of_subset progress.nodup progress.inside).length_le
      simp only [List.length_append, List.length_cons] at bounded
      omega
  | succ steps ih =>
    cases pending with
    | nil => exact ⟨[], rfl, progress.nodup⟩
    | cons first rest =>
      obtain ⟨behind, later, nodup⟩ := ih (progress.step grounded)
        (by simp only [List.length_append, List.length_singleton]; omega)
      refine ⟨first :: behind, scan_cons.mpr ⟨behind, later, rfl⟩, ?_⟩
      simpa using nodup

/-- A scan from one node of the universe reads each of its descendants once. -/
theorem scan_completes (grounded : Grounded children universe_ start) (mem : start ∈ universe_)
    (room : universe_.length ≤ steps) :
    ∃ queue, scan children steps [start] = some queue ∧ queue.Nodup ∧
      ∀ node, node ∈ queue ↔ Relation.ReflTransGen (Child children) start node := by
  have progress : Progress children universe_ start [] [start] :=
    ⟨by simp, by simpa using mem, by simpa using .refl, by simp⟩
  obtain ⟨queue, completed, nodup⟩ :=
    scan_completes_of_progress grounded progress (by simpa using room)
  exact ⟨queue, completed, nodup, fun node => by simp [mem_scan_iff completed]⟩

end Respublica.Foundation.Worklist
