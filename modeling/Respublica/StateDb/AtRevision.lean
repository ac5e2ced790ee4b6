import Respublica.StateDb.Reset
import Respublica.StateDb.Settled

/-!
# The ancestor at a revision

`at_revision` walks from a node to its parents while their revisions are above the one that is
asked for. Revisions count the deltas above, whatever is done to a database, so the walk stops
at the revision itself and never runs off a root. But it also stops at once when the revision is
above the node's, and the root's revision is answered with the root before the node is looked
up, whether or not the node descends from the root.
-/

namespace Respublica.StateDb

open Foundation Effect Crypto Heap Forest

namespace Heap

/-- Revisions count the deltas above: a delta without a parent has revision zero, and any other
one the revision after its parent's. -/
structure Leveled (heap : Heap) : Prop where
  backed : heap.Backed
  roots : ∀ index < heap.size, heap.parent? index = none → heap.revision index = .ok 0
  children : ∀ index < heap.size, ∀ parent, heap.parent? index = some parent →
    ∃ revision, heap.revision parent = .ok revision ∧ heap.revision index = .ok (revision + 1)

/-- Deltas are only added, and revisions still count the deltas above. -/
structure Stacks (before after : Heap) : Prop where
  size : before.size ≤ after.size
  leveled : before.Leveled → after.Leveled

instance : Std.Refl Stacks := ⟨fun _ => ⟨Nat.le_refl _, fun leveled => leveled⟩⟩

instance : IsTrans Heap Stacks :=
  ⟨fun _ _ _ first second =>
    ⟨Nat.le_trans first.size second.size, fun leveled => second.leveled (first.leveled leveled)⟩⟩

/-- Changes of a delta that leave the revision of its backend. -/
def KeepsRevision (change : Delta → Delta) : Prop :=
  ∀ delta, (change delta).backend.map Backend.revision = delta.backend.map Backend.revision

variable {heap : Heap}

variable {change : Delta → Delta}

/-- Updates that keep revisions change none. -/
theorem revision_update (kept : KeepsRevision change) (index other : Nat) :
    Heap.revision (heap.update index change) other = heap.revision other := by
  rw [Heap.revision, Heap.revision, Heap.backend, Heap.backend, node?_update]
  by_cases here : index = other
  · rw [if_pos here]
    cases heap.node? other with
    | none => rfl
    | some delta =>
      have same := kept delta
      cases new : (change delta).backend <;> cases old : delta.backend <;>
        simp_all [Functor.map, Except.map]
  · rw [if_neg here]

/-- Updates that keep revisions stack a heap. -/
theorem stacks_update (kept : KeepsRevision change) (index : Nat) :
    Stacks heap (heap.update index change) := by
  refine ⟨by simp, fun leveled => ⟨backed_update leveled.backed fun delta held => ?_, ?_, ?_⟩⟩
  · have same := congrArg Option.isSome (kept delta)
    rwa [Option.isSome_map, Option.isSome_map, held] at same
  · intro other inside top
    rw [size_update] at inside
    rw [parent?_update] at top
    rw [revision_update kept]
    exact leveled.roots other inside top
  · intro other inside parent points
    rw [size_update] at inside
    rw [parent?_update] at points
    rw [revision_update kept, revision_update kept]
    exact leveled.children other inside parent points

/-- A new delta is level with what it is put below. -/
theorem stacks_push {parent : Option Nat} {delta : Delta} {own : Backend}
    (held : delta.backend = some own)
    (top : heap.Leveled → parent = none → own.revision = 0)
    (below : heap.Leveled → ∀ above, parent = some above → above < heap.size ∧
      ∃ revision, heap.revision above = .ok revision ∧ own.revision = revision + 1) :
    Stacks heap (heap.push parent delta) := by
  refine ⟨by simp, fun leveled => ⟨backed_push leveled.backed (by simp [held]), ?_, ?_⟩⟩
  all_goals
    have created : Heap.revision (heap.push parent delta) heap.size = .ok own.revision :=
      revision_of_backend (backend_eq_ok_iff.mpr ⟨delta, node?_push_self .., held⟩)
  · intro index inside isTop
    rw [size_push] at inside
    rw [parent?_push] at isTop
    by_cases here : index = heap.size
    · subst here
      rw [if_pos rfl] at isTop
      cases parent with
      | none => rw [created, top leveled rfl]
      | some above =>
        rw [Option.filter_some, decide_eq_true (below leveled above rfl).1, if_pos rfl] at isTop
        cases isTop
    · rw [if_neg here] at isTop
      have old : index < heap.size := by omega
      rw [revision_push_of_lt old]
      exact leveled.roots index old isTop
  · intro index inside parent' points
    rw [size_push] at inside
    rw [parent?_push] at points
    by_cases here : index = heap.size
    · subst here
      rw [if_pos rfl] at points
      obtain ⟨isParent, -⟩ := Option.filter_eq_some_iff.mp points
      obtain ⟨old, revision, revised, next⟩ := below leveled parent' isParent
      exact ⟨revision, by rw [revision_push_of_lt old, revised], by rw [created, next]⟩
    · rw [if_neg here] at points
      have old : index < heap.size := by omega
      obtain ⟨revision, revised, next⟩ := leveled.children index old parent' points
      have oldParent : parent' < heap.size := Nat.lt_trans (parent?_lt points) old
      exact ⟨revision, by rw [revision_push_of_lt oldParent, revised],
        by rw [revision_push_of_lt old, next]⟩

theorem createRoot_stacks (heap : Heap) : Stacks heap heap.createRoot :=
  stacks_push rfl (fun _ _ => rfl) fun _ _ isSome => by cases isSome

/-- Changes of backends that keep revisions do. -/
theorem keepsRevision_changeBackend {change : Backend → Backend}
    (kept : ∀ backend, (change backend).revision = backend.revision) :
    KeepsRevision (changeBackend change) := by
  intro delta
  cases held : delta.backend with
  | none => simp [changeBackend, held]
  | some backend => simp [changeBackend, held, kept]

theorem put_stacks (index : Nat) (key value : Bytes) : (put index key value).Keeps Stacks := by
  refine put_keeps fun _ => stacks_update ?_ index
  exact keepsRevision_changeBackend fun _ => rfl

theorem remove_stacks (index : Nat) (key : Bytes) : (remove index key).Keeps Stacks := by
  refine remove_keeps fun _ _ => stacks_update ?_ index
  exact keepsRevision_changeBackend fun _ => rfl

theorem keepsRevision_emptied : KeepsRevision emptied := keepsRevision_changeBackend fun _ => rfl

theorem clear_stacks (index : Nat) : (clear index).Keeps Stacks := by
  refine keeps_bind (keeps_bind keeps_read fun _ => keeps_expect _ _)
    fun _ => keeps_bind (keeps_expect _ _) fun _ => ?_
  exact keeps_modify fun _ => stacks_update keepsRevision_emptied index

theorem finalize_stacks (index : Nat) : (finalize index).Keeps Stacks := by
  refine keeps_bind (keeps_bind keeps_read fun _ => keeps_expect _ _)
    fun _ => ?_
  refine keeps_modify fun _ => stacks_update ?_ index
  exact fun _ => rfl

/-- Squashing keeps revisions. -/
theorem squash_stacks (index : Nat) : (squash index).Keeps Stacks := by
  intro heap
  cases points : heap.parent? index with
  | none =>
    refine related_bind (Std.Refl.refl _) fun _ before read => ?_
    obtain ⟨rfl, rfl⟩ := returns_read.mp read
    rw [points]
    exact keeps_pure _ _
  | some parent =>
    refine squash_keeps points (fun heap removed objects => stacks_update ?_ parent)
      fun heap => stacks_update keepsRevision_emptied index
    exact keepsRevision_changeBackend fun backend => (header_absorb backend removed objects).2

theorem merkleRoot_stacks (hash : Bytes → Digest) (index : Nat) :
    (merkleRoot hash index).Keeps Stacks := by
  refine merkleRoot_keeps fun _ _ _ _ _ _ => stacks_update ?_ index
  exact fun _ => rfl

/-- A child of a delta is level with its siblings. -/
theorem makeChild_stacks (index : Nat) (childId : StateNodeId) :
    (makeChild index childId).Keeps Stacks := by
  intro heap
  refine related_bind (Std.Refl.refl _) fun _ before read => ?_
  obtain ⟨rfl, rfl⟩ := returns_read.mp read
  refine related_bind (keeps_ofExcept _ _) fun own before held => ?_
  obtain ⟨stored, rfl⟩ := returns_ofExcept.mp held
  refine stacks_push rfl (fun _ isNone => by cases isNone) fun _ above isAbove => ?_
  obtain rfl := Option.some.inj isAbove
  exact ⟨lt_size_of_backend stored, own.revision, revision_of_backend stored, rfl⟩

/-- A copy of a delta is level with it. -/
theorem clone_stacks (index : Nat) (newId : StateNodeId) : (clone index newId).Keeps Stacks := by
  intro heap
  refine related_bind (Std.Refl.refl _) fun _ before read => ?_
  obtain ⟨rfl, rfl⟩ := returns_read.mp read
  refine related_bind
    (keeps_bind keeps_read (fun _ => keeps_expect _ _) _)
    fun node mid found => ?_
  obtain ⟨isNode, rfl⟩ := returns_delta.mp found
  refine related_bind (keeps_expect _ _ _) fun own mid held => ?_
  obtain ⟨stored, rfl⟩ := returns_expect.mp held
  have revised := revision_of_backend (backend_eq_ok_iff.mpr ⟨node, isNode, stored⟩)
  have inside := lt_size_of_node? isNode
  refine stacks_push rfl (fun leveled top => ?_) fun leveled above points => ?_
  · exact Except.ok.inj (revised.symm.trans (leveled.roots index inside top))
  · obtain ⟨revision, parentRevised, next⟩ := leveled.children index inside above points
    exact ⟨Nat.lt_trans (parent?_lt points) inside, revision, parentRevised,
      Except.ok.inj (revised.symm.trans next)⟩

/-- Every call on deltas stacks a heap. -/
theorem Call.perform_stacks (call : Call) : call.perform.Keeps Stacks := by
  cases call with
  | put index key value =>
    exact keeps_bind (put_stacks index key value) fun _ => keeps_pure _
  | remove index key =>
    exact keeps_bind (remove_stacks index key) fun _ => keeps_pure _
  | makeChild index childId =>
    exact keeps_bind (makeChild_stacks index childId) fun _ => keeps_pure _
  | clone index newId =>
    exact keeps_bind (clone_stacks index newId) fun _ => keeps_pure _
  | squash index => exact squash_stacks index
  | finalize index => exact finalize_stacks index

end Heap

namespace Database

/-- What the database points to exists, and revisions count the deltas above. -/
structure Standing (db : Database) : Prop where
  leveled : db.heap.Leveled
  indexed : ∀ node ∈ db.index, node < db.heap.size
  root : ∀ root, db.root = some root → root < db.heap.size
  head : ∀ head, db.head = some head → head < db.heap.size

/-- A database as before, and a delta that exists. -/
structure StandingWith (node : Nat) (db : Database) : Prop extends Standing db where
  inside : node < db.heap.size

variable {db : Database} {heap : Heap}

/-- A database stands on a heap that was stacked. -/
theorem Standing.stacked (standing : db.Standing) (grows : Heap.Stacks db.heap heap) :
    Standing { db with heap := heap } :=
  ⟨grows.leveled standing.leveled,
    fun node mem => Nat.lt_of_lt_of_le (standing.indexed node mem) grows.size,
    fun root isRoot => Nat.lt_of_lt_of_le (standing.root root isRoot) grows.size,
    fun head isHead => Nat.lt_of_lt_of_le (standing.head head isHead) grows.size⟩

variable {Value : Type} {routine : Effect Fault Heap Value} {node : Nat}

theorem onHeap_standing (keeps : routine.Keeps Heap.Stacks) :
    (onHeap routine).Keeps (Preserving Standing) :=
  fun db standing => standing.stacked (keeps db.heap)

/-- Work on deltas leaves a database standing, with a new node. -/
theorem onHeap_standingWith (keeps : routine.Keeps Heap.Stacks) :
    (onHeap routine).Keeps (Preserving (StandingWith node)) :=
  fun db standing => ⟨standing.toStanding.stacked (keeps db.heap),
    Nat.lt_of_lt_of_le standing.inside (keeps db.heap).size⟩

/-- Inserting a node leaves a database standing. -/
theorem insert_standing (delta : Nat) :
    (insert delta).Keeps (Preserving (StandingWith delta)) := by
  refine keeps_bind keeps_read fun _ => ?_
  refine keeps_bind (keeps_ofExcept _) fun _ => ?_
  refine keeps_bind (keeps_ofExcept _) fun found => ?_
  cases found with
  | some taken => exact keeps_pure _
  | none =>
    refine keeps_bind (keeps_modify fun db standing => ?_)
      fun _ => keeps_pure _
    refine ⟨⟨standing.leveled, fun node mem => ?_, standing.root, standing.head⟩, standing.inside⟩
    rcases List.mem_append.mp mem with old | new
    · exact standing.indexed node old
    · exact List.mem_singleton.mp new ▸ standing.inside

theorem add_standing (delta : Nat) : (add delta).Keeps (Preserving (StandingWith delta)) :=
  keeps_bind (insert_standing delta) fun _ =>
    keeps_ite (keeps_pure _) (keeps_fail _)

/-- A delta is created and then indexed. -/
theorem adding_standing {routine : Effect Fault Heap Nat} (keeps : routine.Keeps Heap.Stacks)
    (creates : ∀ heap created after, routine.Returns heap created after → created < after.size) :
    Effect.Keeps (Preserving Standing) (do
      let created ← onHeap routine
      add created
      pure created : Effect Fault Database Nat) := by
  intro db
  refine related_bind (onHeap_standing keeps db) fun created mid gave standing => ?_
  obtain ⟨heap, made, rfl⟩ := returns_within.mp gave
  have grows := keeps.of_returns made
  have grown : StandingWith created { db with heap := heap } :=
    ⟨standing.stacked grows, creates _ _ _ made⟩
  have indexes : Effect.Keeps (Preserving (StandingWith created)) (do
      add created
      pure created : Effect Fault Database Nat) :=
    keeps_bind (add_standing created) fun _ => keeps_pure _
  exact (indexes _ grown).toStanding

/-- Making a node final leaves a database standing. -/
theorem finalize_standing (delta : Nat) :
    (finalize delta).Keeps (Preserving (StandingWith delta)) := by
  refine keeps_bind requireOpen_keeps fun _ db => ?_
  refine related_bind (Std.Refl.refl _) fun _ db read => ?_
  obtain ⟨rfl, rfl⟩ := returns_read.mp read
  refine related_bind (keeps_expect _ _ _) fun head mid headRead => ?_
  obtain ⟨isHead, rfl⟩ := returns_expect.mp headRead
  refine related_bind (keeps_ofExcept _ _) fun revision mid revised => ?_
  obtain ⟨-, rfl⟩ := returns_ofExcept.mp revised
  refine related_bind (keeps_ofExcept _ _) fun headRevision mid headRevised => ?_
  obtain ⟨-, rfl⟩ := returns_ofExcept.mp headRevised
  intro standing
  refine ⟨⟨standing.leveled, standing.indexed, standing.root, fun newHead isNew => ?_⟩,
    standing.inside⟩
  have headInside := standing.head head isHead
  obtain rfl := Option.some.inj isNew
  simp only [fifoComparator, ite_self]
  split
  · exact standing.inside
  · exact headInside

/-- Every call keeps a database standing, whatever comes of it. -/
theorem call_standing (call : ForkCall) : call.perform.Keeps (Preserving Standing) := by
  cases call with
  | makeChild node childId =>
    refine keeps_bind (adding_standing (makeChild_stacks node childId) ?_)
      fun _ => keeps_pure _
    intro heap created after made
    obtain ⟨own, -, rfl, rfl⟩ := returns_makeChild.mp made
    simp
  | clone node newId =>
    refine keeps_bind (adding_standing (clone_stacks node newId) ?_)
      fun _ => keeps_pure _
    intro heap created after made
    obtain ⟨delta, own, -, -, rfl, rfl⟩ := returns_clone.mp made
    simp
  | finalize node =>
    intro db
    refine related_bind (onHeap_standing (finalize_stacks node) db)
      fun _ mid marked standing => ?_
    obtain ⟨heap, marks, rfl⟩ := returns_within.mp marked
    obtain ⟨delta, found, rfl⟩ := returns_finalize.mp marks
    have grown := standing.stacked ((finalize_stacks node).of_returns marks)
    have inside : node < (db.heap.update node fun delta =>
        { delta with final := true }).size := by
      rw [size_update]
      exact lt_size_of_node? found
    exact (finalize_standing node _ ⟨grown, inside⟩).toStanding
  | discard node stale =>
    refine (removeReading_shrinks stale node []).mono fun before after shrinks standing => ?_
    refine ⟨shrinks.heap ▸ standing.leveled, fun other mem => ?_, ?_, ?_⟩
    · rw [shrinks.heap]
      exact standing.indexed other (shrinks.index other mem)
    · rw [shrinks.heap, shrinks.root]
      exact standing.root
    · rw [shrinks.heap, shrinks.head]
      exact standing.head

section

variable (writes : List (Bytes × Bytes))
include writes

theorem writeAll_stacks (root : Nat) :
    (writeAll writes root).Keeps Heap.Stacks := by
  induction writes with
  | nil => exact keeps_pure _
  | cons write rest ih => exact keeps_bind (put_stacks root write.1 write.2) fun _ => ih

theorem runInit_stacks (root : Nat) :
    (runInit (writeAll writes) root).Keeps Heap.Stacks :=
  keeps_bind keeps_read fun _ => keeps_bind (keeps_ofExcept _) fun _ =>
    keeps_ite (writeAll_stacks writes root) (keeps_pure _)

/-- Opening keeps a database standing, whatever it holds already. -/
theorem openIndex_standing :
    (openIndex (writeAll writes)).Keeps (Preserving Standing) := by
  intro db
  refine related_bind (Std.Refl.refl _) fun _ db read => ?_
  obtain ⟨rfl, rfl⟩ := returns_read.mp read
  refine related_bind (fun standing => standing.stacked (createRoot_stacks _))
    fun _ mid created standing => ?_
  obtain ⟨heap, creates, rfl⟩ := returns_within.mp created
  obtain rfl := returns_modify.mp creates
  have rooted : StandingWith db.heap.size
      { db with heap := db.heap.createRoot } :=
    ⟨standing.stacked (createRoot_stacks _), by simp [createRoot]⟩
  refine (keeps_bind (onHeap_standingWith (runInit_stacks writes _)) (fun _ => ?_) _
    rooted).toStanding
  refine keeps_bind (onHeap_standingWith (finalize_stacks _)) fun _ => ?_
  refine keeps_bind (insert_standing _) fun _ => keeps_modify fun _ opened => ?_
  refine ⟨⟨opened.leveled, opened.indexed, fun _ isRoot => ?_, fun _ isHead => ?_⟩, opened.inside⟩
  · exact Option.some.inj isRoot ▸ opened.inside
  · exact Option.some.inj isHead ▸ opened.inside

/-- A reset leaves a database standing. -/
theorem reset_standing :
    (reset (writeAll writes)).Keeps (Preserving Standing) :=
  keeps_bind requireOpen_keeps fun _ => keeps_bind keeps_read fun _ =>
    keeps_bind (keeps_expect _ _) fun _ =>
      keeps_bind (onHeap_standing (clear_stacks _)) fun _ => openIndex_standing writes

end

/-- The databases that are reached by calls in any order: opening, closing and resetting, calls
on nodes, and work on the deltas of nodes, indexed or not, whether or not a call threw. A commit
below the root has no place here: of a final node it follows a backend that it has reset, and of
any other it throws and leaves a root without a backend, so without a revision to compare. -/
inductive DatabaseRun : Database → Prop where
  | created : DatabaseRun empty
  | opened {db : Database} (writes : List (Bytes × Bytes)) :
      DatabaseRun db → DatabaseRun (openIndex (writeAll writes) db).2
  | closed {db : Database} : DatabaseRun db → DatabaseRun db.close
  | reset {db : Database} (writes : List (Bytes × Bytes)) :
      DatabaseRun db → DatabaseRun (Database.reset (writeAll writes) db).2
  | called {db : Database} (call : ForkCall) :
      DatabaseRun db → DatabaseRun (call.perform db).2
  | worked {db : Database} (call : Heap.Call) :
      DatabaseRun db → DatabaseRun (onHeap call.perform db).2
  | summarised {db : Database} (hash : Bytes → Digest) (node : Nat) :
      DatabaseRun db → DatabaseRun (PermanentNode.merkleRoot hash node db).2

/-- Every database that is reached is standing. -/
theorem DatabaseRun.standing (run : DatabaseRun db) :
    db.Standing := by
  induction run with
  | created =>
    refine ⟨⟨backed_empty, ?_, ?_⟩, ?_, ?_, ?_⟩
    · exact fun _ inside => absurd inside (Nat.not_lt_zero _)
    · exact fun _ inside => absurd inside (Nat.not_lt_zero _)
    · exact fun _ mem => absurd mem List.not_mem_nil
    · exact fun _ isRoot => by cases isRoot
    · exact fun _ isHead => by cases isHead
  | opened writes _ ih => exact openIndex_standing writes _ ih
  | closed _ ih =>
    refine ⟨ih.leveled, fun _ mem => absurd mem List.not_mem_nil, ?_, ?_⟩
    · exact fun _ isRoot => by cases isRoot
    · exact fun _ isHead => by cases isHead
  | reset writes _ ih => exact reset_standing writes _ ih
  | called call _ ih => exact call_standing call _ ih
  | worked call _ ih => exact onHeap_standing call.perform_stacks _ ih
  | summarised hash node _ ih => exact onHeap_standing (merkleRoot_stacks hash node) _ ih

/-- The walk to a revision ends, at a delta of that revision unless it is above that of the delta
it starts from. Then it ends at once. -/
theorem ancestorAt_outcome (leveled : heap.Leveled) (revision : UInt64) {start : Nat}
    (inside : start < heap.size) {own : UInt64} (revised : heap.revision start = .ok own) :
    ∃ found, ancestorAt heap revision (heap.lineage start) = .ok found ∧
      found ∈ heap.lineage start ∧ (revision ≤ own → heap.revision found = .ok revision) := by
  induction start using Nat.strong_induction_on generalizing own with
  | _ start ih =>
    by_cases above : revision < own
    · cases points : heap.parent? start with
      | none =>
        -- A delta without a parent has revision zero, and nothing is below that.
        have zero := Except.ok.inj (revised.symm.trans (leveled.roots start inside points))
        rw [zero] at above
        exact absurd above (UInt64.not_lt.mpr UInt64.zero_le)
      | some parent =>
        obtain ⟨next, parentRevised, isNext⟩ := leveled.children start inside parent points
        obtain rfl := Except.ok.inj (revised.symm.trans isNext)
        have older := parent?_lt points
        obtain ⟨found, walked, mem, atRevision⟩ :=
          ih parent older (Nat.lt_trans older inside) parentRevised
        rw [lineage_of_child inside points]
        refine ⟨found, ?_, List.mem_cons_of_mem _ mem, fun _ => atRevision ?_⟩
        · rw [ancestorAt, revised]
          simp only [bind, Except.bind, if_pos above]
          exact walked
        · have bound := UInt64.lt_iff_toNat_lt.mp above
          rw [UInt64.toNat_add] at bound
          refine UInt64.le_iff_toNat_le.mpr ?_
          have one : (1 : UInt64).toNat = 1 := rfl
          have small := next.toNat_lt
          omega
    · refine ⟨start, ?_, mem_lineage_self inside, fun atMost => ?_⟩
      · rw [lineage_eq, if_pos inside, ancestorAt, revised]
        simp only [bind, Except.bind, if_neg above]
        rfl
      · rw [revised, UInt64.le_antisymm atMost (UInt64.not_lt.mp above)]

/-- The node that `at_revision` starts from: the one with the id or, if there is none, the
head. -/
def LooksUp (db : Database) (id : StateNodeId) (start : Nat) : Prop :=
  db.find id = .ok (some start) ∨ db.find id = .ok none ∧ db.head = some start

/-- What `at_revision` is for: it follows no null pointer, what it returns has the revision and
is the node it starts from or an ancestor of it, and it returns nothing for a revision above the
node's own. -/
structure FindsAncestor (db : Database) (revision : UInt64) (id : StateNodeId) (start : Nat)
    (own : UInt64) : Prop where
  safe : ¬ (atRevision revision id).Faults db .nullDereference
  found : ∀ node after, (atRevision revision id).Returns db node after →
    db.heap.revision node = .ok revision ∧ node ∈ db.heap.lineage start
  absent : own < revision →
    ¬ ∃ node after, (atRevision revision id).Returns db node after

/-- A lookup in an open database starts at some node. -/
theorem Standing.looksUp (standing : db.Standing) {head : Nat} (isHead : db.head = some head)
    (id : StateNodeId) :
    ∃ start own, db.LooksUp id start ∧ start < db.heap.size ∧
      db.heap.revision start = .ok own := by
  obtain ⟨found, looked⟩ := findAmong_returns standing.leveled.backed id standing.indexed
  cases found with
  | none =>
    have inside := standing.head head isHead
    obtain ⟨own, revised⟩ := revision_of_backed standing.leveled.backed inside
    exact ⟨head, own, .inr ⟨looked, isHead⟩, inside, revised⟩
  | some node =>
    have inside := standing.indexed node (id_of_findAmong looked).2
    obtain ⟨own, revised⟩ := revision_of_backed standing.leveled.backed inside
    exact ⟨node, own, .inl looked, inside, revised⟩

/-- `at_revision` returns: the root for the root's revision, and otherwise what the walk from the
node comes to. -/
theorem Standing.atRevision_outcome (standing : db.Standing) {root start : Nat}
    {rootRevision own revision : UInt64} {id : StateNodeId} (opened : db.isOpen = true)
    (isRoot : db.root = some root) (rootRevised : db.heap.revision root = .ok rootRevision)
    (atLeast : rootRevision ≤ revision) (looks : db.LooksUp id start)
    (inside : start < db.heap.size) (revised : db.heap.revision start = .ok own) :
    ∃ node, (atRevision revision id).Returns db node db ∧
      (revision = rootRevision → node = root) ∧
      (revision ≠ rootRevision → node ∈ db.heap.lineage start ∧
        (revision ≤ own → db.heap.revision node = .ok revision)) := by
  have opens : requireOpen.Returns db () db := returns_requireOpen.mpr ⟨opened, rfl⟩
  have gets : ∀ {found}, db.find id = .ok found → (get id).Returns db found db :=
    fun looked => returns_bind.mpr ⟨(), db, opens, returns_bind.mpr
      ⟨db, db, rfl, returns_ofExcept.mpr ⟨looked, rfl⟩⟩⟩
  obtain ⟨found, walked, mem, hasRevision⟩ :=
    ancestorAt_outcome standing.leveled revision inside revised
  refine ⟨if revision = rootRevision then root else found, ?_, fun atRoot => if_pos atRoot,
    fun other => by rw [if_neg other]; exact ⟨mem, hasRevision⟩⟩
  rw [Effect.Returns, atRevision, opens.bind_eq, read_bind, isRoot, expect_bind,
    rootRevised, ofExcept_bind, if_neg (UInt64.not_lt.mpr atLeast)]
  by_cases atRoot : revision = rootRevision
  · rw [if_pos atRoot, if_pos atRoot]
    rfl
  · rw [if_neg atRoot, if_neg atRoot]
    rcases looks with isNode | ⟨missing, isHead⟩
    · rw [(gets isNode).bind_eq]
      exact returns_ofExcept.mpr ⟨walked, rfl⟩
    · rw [(gets missing).bind_eq, isHead]
      exact returns_ofExcept.mpr ⟨walked, rfl⟩

/-- In every database that is reached and open, for every revision from the root's on and every
id, `at_revision` does what it is for exactly when the revision is not above that of the node it
starts from and, if it is the root's revision, that node descends from the root. -/
theorem ancestor_found_iff {db : Database} (run : DatabaseRun db)
    (opened : db.isOpen = true) :
    ∃ root rootRevision, db.root = some root ∧
      db.heap.revision root = .ok rootRevision ∧
      ∀ revision id, rootRevision ≤ revision → ∃ start own, db.LooksUp id start ∧
        db.heap.revision start = .ok own ∧
        (db.FindsAncestor revision id start own ↔
          revision ≤ own ∧ (revision = rootRevision → root ∈ db.heap.lineage start)) := by
  have standing := run.standing
  obtain ⟨hasRoot, hasHead⟩ := Bool.and_eq_true_iff.mp opened
  obtain ⟨root, isRoot⟩ := Option.isSome_iff_exists.mp hasRoot
  obtain ⟨head, isHead⟩ := Option.isSome_iff_exists.mp hasHead
  obtain ⟨rootRevision, rootRevised⟩ :=
    revision_of_backed standing.leveled.backed (standing.root root isRoot)
  refine ⟨root, rootRevision, isRoot, rootRevised, fun revision id atLeast => ?_⟩
  obtain ⟨start, own, looks, inside, revised⟩ := standing.looksUp isHead id
  obtain ⟨node, gave, whenRoot, otherwise⟩ :=
    standing.atRevision_outcome opened isRoot rootRevised atLeast looks inside revised
  refine ⟨start, own, looks, revised, ?_, ?_⟩
  · intro finds
    refine ⟨UInt64.not_lt.mp fun above => finds.absent above ⟨node, db, gave⟩, ?_⟩
    intro atRoot
    exact whenRoot atRoot ▸ (finds.found node db gave).2
  · rintro ⟨atMost, descends⟩
    refine ⟨fun faults => faults.not_returns gave, fun other after alsoReturned => ?_,
      fun above => absurd atMost (UInt64.not_le.mpr above)⟩
    obtain ⟨rfl, -⟩ := alsoReturned.unique gave
    by_cases atRoot : revision = rootRevision
    · obtain rfl := whenRoot atRoot
      exact ⟨atRoot ▸ rootRevised, descends atRoot⟩
    · obtain ⟨mem, hasRevision⟩ := otherwise atRoot
      exact ⟨hasRevision atMost, mem⟩

theorem run_siblings : DatabaseRun siblings :=
  .called _ (.called _ (.called _ (.called _ (.opened [] .created))))

/-- Asked for the revision of the head, the first sibling is found for its own id. -/
theorem ancestor_found_for_sibling : siblings.FindsAncestor 1 (SizedBytes.fit 32 [1]) 1 1 := by
  obtain ⟨root, rootRevision, isRoot, rootRevised, finds⟩ := ancestor_found_iff run_siblings rfl
  obtain rfl := Option.some.inj (isRoot.symm.trans (show siblings.root = some 0 from rfl))
  obtain rfl := Except.ok.inj
    (rootRevised.symm.trans (show siblings.heap.revision 0 = .ok 0 from rfl))
  obtain ⟨start, own, looks, revised, iff⟩ := finds 1 (SizedBytes.fit 32 [1]) (by decide)
  have looked : siblings.find (SizedBytes.fit 32 [1]) = .ok (some 1) := by decide +kernel
  obtain rfl : start = 1 := by
    rcases looks with found | ⟨missing, -⟩
    · exact Option.some.inj (Except.ok.inj (found.symm.trans looked))
    · cases missing.symm.trans looked
  obtain rfl : own = 1 := Except.ok.inj (revised.symm.trans (by rfl))
  exact iff.mpr ⟨UInt64.le_refl _, fun isZero => absurd isZero (by decide)⟩

/-- Above the revision of a node the node itself is returned: revision one of the default id is
answered with genesis, which has revision zero, and revision two of a sibling with the sibling. -/
theorem revision_above_is_answered : DatabaseRun siblings ∧
    siblings.LooksUp nullId 0 ∧ (atRevision 1 nullId).Returns siblings 0 siblings ∧
      siblings.heap.revision 0 = .ok 0 ∧ ¬ siblings.FindsAncestor 1 nullId 0 0 ∧
      (atRevision 2 (SizedBytes.fit 32 [1])).Returns siblings 1 siblings ∧
      siblings.heap.revision 1 = .ok 1 := by
  have looked : siblings.find nullId = .ok (some 0) := by decide +kernel
  have gave : (atRevision 1 nullId).Returns siblings 0 siblings := rfl
  exact ⟨run_siblings, .inl looked, gave, rfl,
    fun finds => finds.absent (by decide) ⟨0, siblings, gave⟩, rfl, rfl⟩

end Database

end Respublica.StateDb
