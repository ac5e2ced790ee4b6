import Respublica.StateDb.Refinement

/-!
# Changes confined to some keys of one delta

The frame of everything a program can do to the state: all deltas but one are as they
were, and that one keeps its records for every key outside a given set. The relation is
a preorder, so it follows a program through any number of calls.
-/

namespace Respublica.StateDb

open Foundation Forest

/-- A delta keeps its finality, its id and revision, and its records outside `writes`. -/
structure Delta.Confined (writes : Bytes → Prop) (before after : Delta) : Prop where
  final : after.final = before.final
  merkleRoot : after.merkleRoot = before.merkleRoot
  header : after.backend.map (fun backend => (backend.id, backend.revision)) =
    before.backend.map fun backend => (backend.id, backend.revision)
  objects : ∀ key, ¬ writes key →
    after.backend.bind (Backend.get · key) = before.backend.bind (Backend.get · key)
  removed : ∀ key, ¬ writes key →
    after.removedObjects.contains key = before.removedObjects.contains key

namespace Delta.Confined

variable {writes : Bytes → Prop} {first second third : Delta}

theorem refl (delta : Delta) : Delta.Confined writes delta delta :=
  ⟨rfl, rfl, rfl, fun _ _ => rfl, fun _ _ => rfl⟩

theorem trans (left : Delta.Confined writes first second)
    (right : Delta.Confined writes second third) : Delta.Confined writes first third :=
  ⟨right.final.trans left.final, right.merkleRoot.trans left.merkleRoot,
    right.header.trans left.header,
    fun key outside => (right.objects key outside).trans (left.objects key outside),
    fun key outside => (right.removed key outside).trans (left.removed key outside)⟩

/-- A confined change neither takes a backend away nor makes one. -/
theorem backed (confined : Delta.Confined writes first second) :
    second.backend.isSome = first.backend.isSome := by
  have headers := congrArg Option.isSome confined.header
  simpa using headers

end Delta.Confined

namespace Heap

/-- All deltas but one are as they were, and that one is confined. -/
structure Confined (writes : Bytes → Prop) (node : Nat) (before after : Heap) : Prop where
  size : after.size = before.size
  parents : ∀ index, after.parent? index = before.parent? index
  others : ∀ index, index ≠ node → after.node? index = before.node? index
  delta : ∀ old, before.node? node = some old →
    ∃ new, after.node? node = some new ∧ Delta.Confined writes old new

variable {writes : Bytes → Prop} {node : Nat}

instance : Std.Refl (Confined writes node) :=
  ⟨fun _ => ⟨rfl, fun _ => rfl, fun _ _ => rfl, fun old found => ⟨old, found, .refl old⟩⟩⟩

instance : IsTrans Heap (Confined writes node) :=
  ⟨fun _ _ _ left right =>
    ⟨right.size.trans left.size, fun index => (right.parents index).trans (left.parents index),
      fun index other => (right.others index other).trans (left.others index other),
      fun old found => by
        obtain ⟨middle, midFound, first⟩ := left.delta old found
        obtain ⟨new, newFound, second⟩ := right.delta middle midFound
        exact ⟨new, newFound, first.trans second⟩⟩⟩

/-- An update within the keys is confined. -/
theorem confined_update (heap : Heap) {change : Delta → Delta}
    (kept : ∀ delta, Delta.Confined writes delta (change delta)) :
    Confined writes node heap (heap.update node change) :=
  ⟨by simp, by simp, fun _ other => node?_update_of_ne other, fun old found =>
    ⟨change old, by simp [found], kept old⟩⟩

/-- A write is confined to its key. -/
theorem put_confined {key : Bytes} (value : Bytes) (inside : writes key) :
    (put node key value).Keeps (Confined writes node) := by
  refine put_keeps fun heap => confined_update heap fun delta => ⟨rfl, rfl, ?_, ?_, fun _ _ => rfl⟩
  · cases held : delta.backend <;> simp [changeBackend, held]
  · intro other outside
    have different : other ≠ key := fun same => outside (same ▸ inside)
    cases held : delta.backend <;> simp [changeBackend, held, Backend.get_put, different]

/-- A removal is confined to its key. -/
theorem remove_confined {key : Bytes} (inside : writes key) :
    (remove node key).Keeps (Confined writes node) := by
  refine remove_keeps fun heap size => confined_update heap fun delta => ⟨rfl, rfl, ?_, ?_, ?_⟩
  · cases held : delta.backend <;> simp [removeKey, changeBackend, held]
  · intro other outside
    have different : other ≠ key := fun same => outside (same ▸ inside)
    cases held : delta.backend <;> simp [removeKey, changeBackend, held, Backend.get_remove,
      different]
  · intro other outside
    have different : ¬ key = other := fun same => outside (same ▸ inside)
    by_cases nothing : size = 0 <;>
      simp [removeKey, changeBackend, nothing, Std.ExtTreeSet.contains_insert, different]

namespace Confined

variable {before after : Heap}

section

variable (confined : Confined writes node before after)
include confined

theorem lineage (index : Nat) :
    after.lineage index = before.lineage index :=
  lineage_congr (fun _ _ => by rw [confined.size]) fun position _ => confined.parents position

/-- A delta that was not there is not there. -/
theorem missing {index : Nat}
    (absent : before.node? index = none) : after.node? index = none := by
  have outside : ¬ index < after.size := by
    rw [confined.size, ← node?_isSome_iff, absent]
    simp
  simpa [← node?_isSome_iff] using outside

theorem final (index : Nat) :
    after.final index = before.final index := by
  by_cases here : index = node
  · subst here
    cases found : before.node? index with
    | none => simp [Heap.final, found, confined.missing found]
    | some old =>
      obtain ⟨new, newFound, kept⟩ := confined.delta old found
      rw [final_eq newFound, final_eq found, kept.final]
  · rw [Heap.final, Heap.final, confined.others index here]

/-- Confined work leaves a heap backed. -/
theorem backed (backed : before.Backed) :
    after.Backed := by
  intro index delta found
  by_cases here : index = node
  · subst here
    have inside : index < before.size := by
      rw [← confined.size]
      exact lt_size_of_node? found
    obtain ⟨old, oldFound⟩ := Option.isSome_iff_exists.mp (node?_isSome_iff.mpr inside)
    obtain ⟨new, newFound, kept⟩ := confined.delta old oldFound
    obtain rfl : delta = new := Option.some.inj (found.symm.trans newFound)
    rw [kept.backed]
    exact backed index old oldFound
  · rw [confined.others index here] at found
    exact backed index delta found

/-- Every delta keeps its id and revision. -/
theorem header (index : Nat) :
    (fun backend => (backend.id, backend.revision)) <$> after.backend index =
      (fun backend => (backend.id, backend.revision)) <$> before.backend index := by
  rw [Heap.backend, Heap.backend]
  by_cases here : index = node
  · subst here
    cases found : before.node? index with
    | none => rw [confined.missing found]
    | some old =>
      obtain ⟨new, newFound, kept⟩ := confined.delta old found
      have sameHeader := kept.header
      rw [newFound, Option.bind_some, Option.bind_some]
      cases newBackend : new.backend <;> cases oldBackend : old.backend <;>
        simp_all [Functor.map, Except.map]
  · rw [confined.others index here]

theorem id (index : Nat) :
    after.id index = before.id index := by
  have same := congrArg (Functor.map Prod.fst) (confined.header index)
  rwa [← comp_map, ← comp_map] at same

theorem revision (index : Nat) :
    after.revision index = before.revision index := by
  have same := congrArg (Functor.map Prod.snd) (confined.header index)
  rwa [← comp_map, ← comp_map] at same

/-- Deltas that do not descend from the node show what they showed. -/
theorem view_of_not_mem {index : Nat}
    (apart : node ∉ before.lineage index) : after.view index = before.view index := by
  apply OverlayTree.view_congr
  · simp only [abstraction, lineage_mapNodes, confined.lineage]
  · intro layer mem
    simp only [abstraction, lineage_mapNodes, confined.lineage] at mem
    have other : layer ≠ node := fun same => apart (same ▸ mem)
    simp [OverlayTree.overlay, abstraction, confined.others layer other, confined.parents]

/-- Below the node nothing is changed. -/
theorem below (key : Bytes) :
    after.below node key = before.below node key := by
  rw [Heap.below, Heap.below, confined.parents]
  cases points : before.parent? node with
  | none => rfl
  | some parent =>
    have apart : node ∉ before.lineage parent := fun mem =>
      Nat.lt_irrefl _ (lt_of_mem_lineage_parent points mem)
    rw [Option.bind_some, Option.bind_some, confined.view_of_not_mem apart]

/-- The node itself shows what it showed outside the confined keys. -/
theorem view {key : Bytes} (outside : ¬ writes key) :
    after.view node key = before.view node key := by
  cases found : before.node? node with
  | none =>
    have apart : node ∉ before.lineage node := by
      intro mem
      have inside := lt_size_of_mem_lineage mem
      rw [← node?_isSome_iff, found] at inside
      cases inside
    rw [confined.view_of_not_mem apart]
  | some old =>
    obtain ⟨new, newFound, kept⟩ := confined.delta old found
    rw [view_eq newFound, view_eq found, kept.objects key outside, kept.removed key outside,
      confined.below]

end

end Confined

end Heap

end Respublica.StateDb
