import Respublica.StateDb.Forks

/-!
# When the fork heads are exact

The fork heads are meant to be the final nodes without a final child. `finalize` keeps them
by dropping the parent of the finalized node and adding the head, which is the finalized
node only if that is longer than the head was. A shorter or equally long fork that is
finalized is therefore never added, and a node finalized after its children is added when it
should not be. A `discard` that passes its checks follows an erased iterator and then drops
the parent instead of adding it. The steps that are left keep the set exact.
-/

namespace Respublica.StateDb.Database

open Foundation Effect Heap Forest

/-- Some indexed child of the node is final. -/
def HasFinalChild (db : Database) (node : Nat) : Prop :=
  ∃ child ∈ db.index, db.heap.final child = true ∧
    db.heap.parent? child = some node

instance (db : Database) (node : Nat) : Decidable (db.HasFinalChild node) :=
  inferInstanceAs (Decidable (∃ child ∈ db.index, _ ∧ _))

/-- The fork heads are the final nodes of the index without a final child in the index. -/
def ForkHeadsExact (db : Database) : Prop :=
  ∀ node, node ∈ db.forkHeads ↔
    node ∈ db.index ∧ db.heap.final node = true ∧ ¬ db.HasFinalChild node

/-- The parents of indexed nodes are indexed. -/
def ParentsIndexed (db : Database) : Prop :=
  ∀ node ∈ db.index, ∀ parent, db.heap.parent? node = some parent →
    parent ∈ db.index

/-- A step that keeps the fork heads exact, told from the database before it: a node that is
finalized again, one longer than the head with no final child, or one that is not longer, has
a final child already and is not a child of the head; and a `discard` that is refused, of the
head or a node above it. -/
def ForkCall.Careful (db : Database) : ForkCall → Prop
  | .makeChild _ _ => True
  | .clone _ _ => False
  | .finalize node => db.heap.final node = true ∨
      ∃ head revision headRevision, db.head = some head ∧
        db.heap.revision node = .ok revision ∧
        db.heap.revision head = .ok headRevision ∧
        if headRevision < revision then ¬ db.HasFinalChild node
        else db.HasFinalChild node ∧ db.heap.parent? node ≠ some head
  | .discard node _ => ∃ head, db.head = some head ∧ node ∈ db.heap.lineage head

/-- The databases reached from opening one by careful steps on indexed nodes. -/
inductive CarefulRun : Database → Prop where
  | opened {writes : List (Bytes × Bytes)} {db : Database} :
      (openIndex (writeAll writes)).Returns empty () db → CarefulRun db
  | called {db : Database} (call : ForkCall) :
      CarefulRun db → call.node ∈ db.index → call.Careful db →
        CarefulRun (call.perform db).2

variable {db : Database}

theorem CarefulRun.forkRun (run : CarefulRun db) :
    ∃ history, ForkRun history db := by
  induction run with
  | opened gave =>
    obtain ⟨isRoot, -⟩ := openIndex_opens (writeAll_extends _ 0) gave
    exact ⟨[0], .opened gave isRoot⟩
  | called call _ mem careful ih =>
    obtain ⟨history, run⟩ := ih
    refine ⟨_, run.called call mem ?_⟩
    rintro node newId rfl
    exact careful.elim

section Queue

variable {db : Database} {headId : StateNodeId}

variable {id : StateNodeId} {queue : List StateNodeId} {fuel : Nat}

/-- The ids below a node, when they could all be read. -/
theorem mem_childIds {heap : Heap} {parentId : StateNodeId} {candidates : List Nat}
    {ids : List StateNodeId} (listed : childIds heap parentId [] candidates = .ok ids) {child : Nat}
    (mem : child ∈ candidates) (below : heap.parentId child = .ok parentId)
    (named : heap.id child = .ok id) : id ∈ ids := by
  induction candidates generalizing ids with
  | nil => exact absurd mem List.not_mem_nil
  | cons candidate rest ih =>
    obtain ⟨ownParent, own, listed⟩ := bind_eq_ok.mp listed
    obtain ⟨restIds, later, listed⟩ := bind_eq_ok.mp listed
    split at listed
    · obtain ⟨ownId, ownNamed, whole⟩ := bind_eq_ok.mp listed
      obtain rfl : ownId :: restIds = ids := Except.ok.inj whole
      rcases List.mem_cons.mp mem with rfl | inRest
      · obtain rfl : id = ownId := Except.ok.inj (named.symm.trans ownNamed)
        exact List.mem_cons_self
      · exact List.mem_cons_of_mem _ (ih later inRest)
    · rename_i elsewhere
      obtain rfl := Except.ok.inj listed
      rcases List.mem_cons.mp mem with rfl | inRest
      · exact absurd (Except.ok.inj (own.symm.trans below)) elsewhere
      · exact ih later inRest

/-- A completed queue has what was pending, and with an id the ids of all indexed children. -/
theorem removeQueue_closed {pending : List StateNodeId}
    (completed : db.removeQueue headId [] fuel pending = .ok queue) :
    (∀ id ∈ pending, id ∈ queue) ∧
      ∀ child ∈ db.index, ∀ parentId ∈ queue, db.heap.parentId child = .ok parentId →
        ∀ id, db.heap.id child = .ok id → id ∈ queue := by
  induction fuel generalizing pending queue with
  | zero =>
    cases pending with
    | nil =>
      cases completed
      exact ⟨fun _ mem => mem, fun _ _ _ inNil => absurd inNil List.not_mem_nil⟩
    | cons id rest => cases completed
  | succ fuel ih =>
    cases pending with
    | nil =>
      cases completed
      exact ⟨fun _ mem => mem, fun _ _ _ inNil => absurd inNil List.not_mem_nil⟩
    | cons first rest =>
      obtain ⟨-, ids, behind, below, later, rfl⟩ := removeQueue_cons completed
      obtain ⟨pendingQueued, closed⟩ := ih later
      refine ⟨?_, ?_⟩
      · intro id mem
        rcases List.mem_cons.mp mem with rfl | inRest
        · exact List.mem_cons_self
        · exact List.mem_cons_of_mem _ (pendingQueued id (List.mem_append_left _ inRest))
      · intro child mem parentId queued isChild id named
        refine List.mem_cons_of_mem _ ?_
        rcases List.mem_cons.mp queued with rfl | inBehind
        · exact pendingQueued id
            (List.mem_append_right _ (mem_childIds below mem isChild named))
        · exact closed child mem parentId inBehind isChild id named

/-- A completed queue that starts at a node has the ids of all indexed nodes below it. -/
theorem id_mem_removeQueue (backed : db.heap.Backed)
    (inside : ∀ node ∈ db.index, node < db.heap.size) (parentsIndexed : db.ParentsIndexed)
    {node : Nat} (named : db.heap.id node = .ok id)
    (completed : db.removeQueue headId [] fuel [id] = .ok queue) {below : Nat}
    (mem : below ∈ db.index) (descends : node ∈ db.heap.lineage below) {belowId : StateNodeId}
    (belowNamed : db.heap.id below = .ok belowId) : belowId ∈ queue := by
  obtain ⟨pendingQueued, closed⟩ := removeQueue_closed completed
  -- Down the path from the node, which is up the lineage of the node below.
  induction below using Nat.strong_induction_on generalizing belowId with
  | _ below ih =>
    cases points : db.heap.parent? below with
    | none =>
      rw [lineage_of_root (inside below mem) points, List.mem_singleton] at descends
      subst descends
      obtain rfl : id = belowId := Except.ok.inj (named.symm.trans belowNamed)
      exact pendingQueued id List.mem_cons_self
    | some parent =>
      rw [lineage_of_child (inside below mem) points, List.mem_cons] at descends
      rcases descends with rfl | above
      · obtain rfl : id = belowId := Except.ok.inj (named.symm.trans belowNamed)
        exact pendingQueued id List.mem_cons_self
      · have parentIndexed := parentsIndexed below mem parent points
        obtain ⟨-, own, -, -, stored⟩ := backend_of_backed backed (inside parent parentIndexed)
        have parentNamed := Heap.id_of_backend stored
        refine closed below mem own.id (ih parent ?_ parentIndexed above parentNamed) ?_
          belowId belowNamed
        · exact parent?_lt points
        · rw [Heap.parentId, points]
          exact parentNamed

end Queue

section Steps

variable {history : List Nat} {db : Database} {head : Nat} {headRevision : UInt64}

variable {node : Nat}

/-- Discarding the head or a node above it changes nothing. -/
theorem discard_refused (indexed : Indexed history db)
    (chosen : Chosen history db head headRevision) (parentsIndexed : db.ParentsIndexed)
    (above : node ∈ db.heap.lineage head) (stale : Stale) :
    db = ((ForkCall.discard node stale).perform db).2 := by
  refine related_bind (requireOpen_keeps db) fun _ before opened => ?_
  obtain ⟨-, rfl⟩ := returns_requireOpen.mp opened
  refine related_bind rfl fun _ before read => ?_
  obtain ⟨rfl, rfl⟩ := returns_read.mp read
  refine related_bind (keeps_expect _ _ _) fun root before rootRead => ?_
  obtain ⟨-, rfl⟩ := returns_expect.mp rootRead
  refine related_bind (keeps_expect _ _ _) fun otherHead before headRead => ?_
  obtain ⟨isHead, rfl⟩ := returns_expect.mp headRead
  obtain rfl := Option.some.inj (chosen.isHead.symm.trans isHead)
  refine related_bind (keeps_ofExcept _ _) fun id before idRead => ?_
  obtain ⟨named, rfl⟩ := returns_ofExcept.mp idRead
  refine related_bind (keeps_ofExcept _ _) fun rootId before rootIdRead => ?_
  obtain ⟨-, rfl⟩ := returns_ofExcept.mp rootIdRead
  split
  · rfl
  refine related_bind (keeps_ofExcept _ _) fun headId before headIdRead => ?_
  obtain ⟨headNamed, rfl⟩ := returns_ofExcept.mp headIdRead
  refine related_bind (keeps_ofExcept _ _) fun queue before queued => ?_
  obtain ⟨completed, rfl⟩ := returns_ofExcept.mp queued
  -- A queue from above the head would have met the head's id.
  exact absurd
    (id_mem_removeQueue indexed.backed indexed.inside parentsIndexed named completed chosen.indexed
      above headNamed)
    (headId_notMem_removeQueue completed)

/-- What careful steps keep. -/
structure Tracked (db : Database) : Prop where
  exact : db.ForkHeadsExact
  parentsIndexed : db.ParentsIndexed
  head : ∀ head ∈ db.head, head ∈ db.forkHeads

section Grown

/-! A delta that is not final is added to the heap, and the index may get it. -/

variable {node : Nat} {child : Delta} {index : List Nat}
  (inside : ∀ node ∈ db.index, node < db.heap.size) (notFinal : child.final = false)
  (grows : index = db.index ∨ index = db.index ++ [db.heap.size])

include inside in
theorem parent?_grown {other : Nat} (isOld : other ∈ db.index) :
    (db.heap.push (some node) child).parent? other = db.heap.parent? other := by
  rw [parent?_push, if_neg (Nat.ne_of_lt (inside other isOld))]

include inside notFinal grows in
/-- The final nodes are the same. -/
theorem final_grown (other : Nat) :
    other ∈ index ∧ Heap.final (db.heap.push (some node) child) other = true ↔
      other ∈ db.index ∧ db.heap.final other = true := by
  constructor
  · rintro ⟨isIndexed, isFinal⟩
    rcases mem_of_grown grows isIndexed with isOld | rfl
    · rw [final_push_of_lt (inside other isOld)] at isFinal
      exact ⟨isOld, isFinal⟩
    · rw [final_eq (node?_push_self ..), notFinal] at isFinal
      cases isFinal
  · rintro ⟨isOld, isFinal⟩
    exact ⟨mem_grown grows isOld, (final_push_of_lt (inside other isOld)).trans isFinal⟩

include inside notFinal grows in
/-- And so are the nodes with final children. -/
theorem hasFinalChild_grown (other : Nat) :
    HasFinalChild { db with
      heap := db.heap.push (some node) child, index := index } other ↔
      db.HasFinalChild other := by
  constructor
  · rintro ⟨grandchild, isIndexed, isFinal, points⟩
    obtain ⟨isOld, wasFinal⟩ := (final_grown inside notFinal grows _).mp ⟨isIndexed, isFinal⟩
    exact ⟨grandchild, isOld, wasFinal, (parent?_grown inside isOld).symm.trans points⟩
  · rintro ⟨grandchild, isOld, wasFinal, points⟩
    obtain ⟨isIndexed, isFinal⟩ := (final_grown inside notFinal grows _).mpr ⟨isOld, wasFinal⟩
    exact ⟨grandchild, isIndexed, isFinal, (parent?_grown inside isOld).trans points⟩

end Grown

/-- A new child is not final, so it changes nothing about final nodes and final children. -/
theorem Tracked.makeChild (tracked : db.Tracked) (indexed : Indexed history db)
    (mem : node ∈ db.index) (childId : StateNodeId) :
    ((ForkCall.makeChild node childId).perform db).2.Tracked := by
  obtain ⟨own, index, grows, mid⟩ :=
    ForkCall.makeChild_outcome indexed.backed indexed.inside mem childId
  have notFinal : (childOf own childId).final = false := rfl
  rw [mid]
  refine ⟨fun other => ?_, ?_, tracked.head⟩
  · rw [hasFinalChild_grown indexed.inside notFinal grows, ← and_assoc]
    change other ∈ db.forkHeads ↔ (other ∈ index ∧
      Heap.final (db.heap.push (some node) (childOf own childId)) other = true) ∧
        ¬ db.HasFinalChild other
    rw [final_grown indexed.inside notFinal grows, and_assoc]
    exact tracked.exact other
  · intro other isIndexed parent points
    rcases mem_of_grown grows isIndexed with isOld | rfl
    · rw [parent?_grown indexed.inside isOld] at points
      exact mem_grown grows (tracked.parentsIndexed other isOld parent points)
    · have inside := indexed.inside node mem
      obtain rfl : node = parent := by simpa [parent?_push, Option.filter, inside] using points
      exact mem_grown grows mem

/-- Finalizing a node makes it a final child of its parent, and changes nothing else about
final children. -/
theorem hasFinalChild_finalized (inside : node < db.heap.size) (mem : node ∈ db.index)
    {forkHeads : Finset Nat} {newHead : Option Nat} (other : Nat) :
    HasFinalChild { db with
      heap := db.heap.update node fun delta => { delta with final := true }
      head := newHead
      forkHeads := forkHeads } other ↔
    db.HasFinalChild other ∨ db.heap.parent? node = some other := by
  simp only [HasFinalChild, final_finalized inside, parent?_update]
  constructor
  · rintro ⟨child, isIndexed, rfl | isFinal, points⟩
    · exact .inr points
    · exact .inl ⟨child, isIndexed, isFinal, points⟩
  · rintro (⟨child, isIndexed, isFinal, points⟩ | points)
    · exact ⟨child, isIndexed, .inr isFinal, points⟩
    · exact ⟨node, mem, .inl rfl, points⟩

/-- Where the fork heads are exact, `finalize` leaves them so exactly when the step is
careful. -/
theorem Tracked.finalize_iff (tracked : db.Tracked) (indexed : Indexed history db)
    (chosen : Chosen history db head headRevision) (mem : node ∈ db.index) :
    ((ForkCall.finalize node).perform db).2.ForkHeadsExact ↔
      (ForkCall.finalize node).Careful db := by
  have inside := indexed.inside node mem
  obtain ⟨root, isRoot⟩ := indexed.root
  obtain ⟨revision, revised⟩ := revision_of_backed indexed.backed inside
  have exactBefore : ∀ other, other ∈ db.forkHeads ↔ other ∈ db.index ∧
      db.heap.final other = true ∧ ¬ db.HasFinalChild other := tracked.exact
  have headTracked := (exactBefore head).mp (tracked.head head chosen.isHead)
  have notOwnParent : db.heap.parent? node ≠ some node :=
    fun points => Nat.lt_irrefl node (parent?_lt points)
  have careful : (ForkCall.finalize node).Careful db ↔ db.heap.final node = true ∨
      if headRevision < revision then ¬ db.HasFinalChild node
      else db.HasFinalChild node ∧ db.heap.parent? node ≠ some head := by
    simp [ForkCall.Careful, chosen.isHead, revised, chosen.revised]
  have exact : ((ForkCall.finalize node).perform db).2.ForkHeadsExact ↔ ∀ other,
      (other = (if headRevision < revision then node else head) ∨
        other ∈ db.forkHeads ∧ db.heap.parent? node ≠ some other) ↔
      other ∈ db.index ∧ (other = node ∨ db.heap.final other = true) ∧
        ¬ (db.HasFinalChild other ∨ db.heap.parent? node = some other) := by
    rw [ForkCall.finalize_outcome inside isRoot chosen.isHead revised chosen.revised]
    refine forall_congr' fun other => iff_congr ?_ ?_
    · rw [Finset.mem_insert]
      cases db.heap.parent? node <;> simp [and_comm, eq_comm]
    · rw [hasFinalChild_finalized inside mem, final_finalized inside]
  rw [exact, careful]
  clear exact careful
  by_cases wasFinal : db.heap.final node = true
  · -- Finalized before: the head stays, and the parent was no fork head.
    have notLonger : ¬ headRevision < revision :=
      UInt64.not_lt.mpr (chosen.highest node mem wasFinal revision revised)
    refine iff_of_true (fun other => ?_) (.inl wasFinal)
    have parentChild : db.heap.parent? node = some other → db.HasFinalChild other :=
      fun points => ⟨node, mem, wasFinal, points⟩
    rw [if_neg notLonger, exactBefore other]
    grind
  · by_cases longer : headRevision < revision
    · simp only [or_iff_right wasFinal, if_pos longer, exactBefore]
      constructor
      · intro exactAfter
        exact fun below => ((exactAfter node).mp (.inl rfl)).2.2 (.inl below)
      · intro noFinalChild other
        grind
    · simp only [or_iff_right wasFinal, if_neg longer, exactBefore]
      constructor
      · intro exactAfter
        refine ⟨?_, fun points => ((exactAfter head).mp (.inl rfl)).2.2 (.inr points)⟩
        by_contra noFinalChild
        rcases (exactAfter node).mpr ⟨mem, .inl rfl, by grind⟩ with rfl | ⟨⟨-, isFinal, -⟩, -⟩
        · exact wasFinal chosen.final
        · exact wasFinal isFinal
      · rintro ⟨hasFinalChild, notBelowHead⟩ other
        grind

/-- Every careful step keeps the fork heads tracked. -/
theorem Tracked.call (tracked : db.Tracked) (indexed : Indexed history db)
    (chosen : Chosen history db head headRevision) (call : ForkCall)
    (mem : call.node ∈ db.index) (careful : call.Careful db) :
    (call.perform db).2.Tracked := by
  cases call with
  | makeChild node childId => exact tracked.makeChild indexed mem childId
  | clone node newId => exact careful.elim
  | finalize node =>
    have inside := indexed.inside node mem
    have exactAfter : ((ForkCall.finalize node).perform db).2.ForkHeadsExact :=
      (tracked.finalize_iff indexed chosen mem).mpr careful
    obtain ⟨root, isRoot⟩ := indexed.root
    obtain ⟨revision, revised⟩ := revision_of_backed indexed.backed inside
    rw [ForkCall.finalize_outcome inside isRoot chosen.isHead revised chosen.revised]
      at exactAfter ⊢
    refine ⟨exactAfter, ?_, ?_⟩
    · intro other isIndexed parent points
      rw [parent?_update] at points
      exact tracked.parentsIndexed other isIndexed parent points
    · rintro newHead ⟨⟩
      exact Finset.mem_insert_self _ _
  | discard node stale =>
    obtain ⟨otherHead, isHead, above⟩ := careful
    obtain rfl := Option.some.inj (chosen.isHead.symm.trans isHead)
    rw [← discard_refused indexed chosen tracked.parentsIndexed above stale]
    exact tracked

end Steps

/-- In a careful run the fork heads are tracked. -/
theorem CarefulRun.tracked (run : CarefulRun db) :
    db.Tracked := by
  induction run with
  | @opened _ opened gave =>
    obtain ⟨-, headZero, onlyRoot, onlyForkHead, rootFinal⟩ :=
      openIndex_opens (writeAll_extends _ 0) gave
    obtain ⟨-, ⟨root, isRoot, -, top⟩, -⟩ := openIndex_rooted (writeAll_extends _ 0) gave
    have rootZero : opened.root = some 0 := (openIndex_opens (writeAll_extends _ 0) gave).1
    obtain rfl := Option.some.inj (isRoot.symm.trans rootZero)
    have noParent : ∀ node ∈ opened.index, opened.heap.parent? node = none := by
      intro node mem
      rw [onlyRoot, List.mem_singleton] at mem
      rw [mem, top]
    refine ⟨fun node => ?_, ?_, ?_⟩
    · have noChild : ¬ opened.HasFinalChild node := by
        rintro ⟨child, mem, -, points⟩
        rw [noParent child mem] at points
        cases points
      rw [onlyForkHead, onlyRoot, Finset.mem_singleton, List.mem_singleton]
      constructor
      · rintro rfl
        exact ⟨rfl, rootFinal, noChild⟩
      · exact fun mem => mem.1
    · intro node mem parent points
      rw [noParent node mem] at points
      cases points
    · intro head isHead
      obtain rfl := Option.some.inj (headZero.symm.trans isHead)
      rw [onlyForkHead]
      exact Finset.mem_singleton_self 0
  | called call run mem careful ih =>
    obtain ⟨history, forkRun⟩ := run.forkRun
    obtain ⟨indexed, head, headRevision, chosen⟩ := forkRun.chosen
    exact ih.call indexed chosen call mem careful

/-- In every run of careful steps the fork heads are exactly the final nodes of the index
without a final child in the index. -/
theorem forkHeads_exact_when_careful {db : Database} (run : CarefulRun db) :
    ∀ node, node ∈ db.forkHeads ↔
      node ∈ db.index ∧ db.heap.final node = true ∧ ¬ db.HasFinalChild node :=
  run.tracked.exact

/-- Genesis with one child. -/
def oneChild : Database :=
  ((ForkCall.makeChild 0 (SizedBytes.fit 32 [1])).perform (openIndex (writeAll []) empty).2).2

/-- The child of genesis is finalized, and a discard of it refused. -/
def grown : Database :=
  ((ForkCall.discard 1 some).perform ((ForkCall.finalize 1).perform oneChild).2).2

/-- A chain that grows by its longest node, with a refused discard, is a careful run. -/
theorem forkHeads_exact_in_grown :
    (∀ node, node ∈ grown.forkHeads ↔
      node ∈ grown.index ∧ grown.heap.final node = true ∧ ¬ grown.HasFinalChild node) ∧
      grown.forkHeads = {1} := by
  have gave : (openIndex (writeAll [])).Returns empty () (openIndex (writeAll []) empty).2 := rfl
  have child : CarefulRun oneChild := (CarefulRun.opened gave).called
    (.makeChild 0 (SizedBytes.fit 32 [1])) (by decide) trivial
  have longer : (ForkCall.finalize 1).Careful oneChild :=
    .inr ⟨0, 1, 0, rfl, rfl, rfl, show ¬ oneChild.HasFinalChild 1 by decide⟩
  have finalized := child.called (.finalize 1) (by decide) longer
  have refused := finalized.called (.discard 1 some) (by decide) ⟨1, rfl, by decide⟩
  exact ⟨forkHeads_exact_when_careful refused, by decide⟩

/-- Of two finalized children of genesis the one finalized last is no fork head, though it has
no child. -/
theorem second_sibling_is_no_forkHead :
    ForkRun [0, 2, 1] siblings ∧ 1 ∈ siblings.index ∧ siblings.heap.final 1 = true ∧
      ¬ siblings.HasFinalChild 1 ∧ 1 ∉ siblings.forkHeads ∧ ¬ siblings.ForkHeadsExact := by
  have noFinalChild : ¬ siblings.HasFinalChild 1 := by decide
  have missing : 1 ∉ siblings.forkHeads := by decide
  refine ⟨forkRun_siblings, by decide, rfl, noFinalChild, missing, ?_⟩
  exact fun exact => missing ((exact 1).mpr ⟨by decide, rfl, noFinalChild⟩)

end Respublica.StateDb.Database
