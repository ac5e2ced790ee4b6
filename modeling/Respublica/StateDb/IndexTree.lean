import Respublica.Foundation.Worklist
import Respublica.StateDb.ForkHeads
import Respublica.StateDb.Reset
import Respublica.StateDb.Settled

/-!
# The index is a tree

Nothing in the index says that its nodes form a tree: parents are pointers of the deltas, and
`remove` finds the nodes below one by the ids of their parents. That ids are distinct, that
parents are indexed with the revision before, and that the root has the null id is kept by
every call, and from it follows what `remove` erases: it reads a work list of ids, and the
work list has the ids of exactly the nodes below the one that is discarded.

A `discard` that gets past its checks follows an erased iterator. Where that ends the process
there is no next state; where it shows anything, the index has lost a whole subtree.
-/

namespace Respublica.StateDb

open Foundation Effect Heap Forest PermanentNode

namespace Heap

/-- The id of a delta that has a backend. -/
def name (heap : Heap) (index : Nat) : StateNodeId :=
  match heap.id index with
  | .ok id => id
  | .error _ => nullId

variable {heap : Heap} {index : Nat}

theorem name_eq {id : StateNodeId} (named : heap.id index = .ok id) :
    heap.name index = id := by
  rw [name, named]

theorem id_eq_name (backed : heap.Backed) (inside : index < heap.size) :
    heap.id index = .ok (heap.name index) := by
  obtain ⟨-, own, -, -, stored⟩ := backend_of_backed backed inside
  rw [name_eq (id_of_backend stored), id_of_backend stored]

end Heap

namespace Database

/-- The indexed nodes form a tree: ids are distinct, the root has the null id and no parent,
and any other node has an indexed parent of the revision before. The head is indexed. -/
structure Tree (db : Database) (root : Nat) : Prop where
  backed : db.heap.Backed
  inside : ∀ node ∈ db.index, node < db.heap.size
  isRoot : db.root = some root
  indexed : root ∈ db.index
  top : db.heap.parent? root = none
  rootNamed : db.heap.id root = .ok nullId
  distinct : (db.index.map db.heap.id).Nodup
  linked : ∀ node ∈ db.index, node ≠ root → ∃ parent ∈ db.index,
    db.heap.parent? node = some parent ∧ ∃ revision,
      db.heap.revision parent = .ok revision ∧
      db.heap.revision node = .ok (revision + 1)
  head : ∃ head ∈ db.index, db.head = some head

/-- The indexed children of a node. -/
def children (db : Database) (node : Nat) : List Nat :=
  db.index.filter fun child => db.heap.parent? child = some node

/-- The indexed nodes that do not descend from a node. -/
def others (db : Database) (node : Nat) : List Nat :=
  db.index.filter fun other => node ∉ db.heap.lineage other

variable {db : Database} {node : Nat} {heap : Heap} {candidates queue : List Nat}

/-- Children are the indexed nodes that point at the node. -/
theorem mem_children {child : Nat} :
    child ∈ db.children node ↔
      child ∈ db.index ∧ db.heap.parent? child = some node := by
  simp [children]

/-- The others are the indexed nodes that do not descend from it. -/
theorem mem_others {other : Nat} :
    other ∈ db.others node ↔
      other ∈ db.index ∧ node ∉ db.heap.lineage other := by
  simp [others]

namespace Tree

variable {db : Database} {root node : Nat}

theorem nodup (tree : db.Tree root) : db.index.Nodup := tree.distinct.of_map _

variable {other : Nat}

/-- Ids are distinct in a tree. -/
theorem eq_of_id (tree : db.Tree root) (mem : node ∈ db.index) (otherMember : other ∈ db.index)
    (same : db.heap.id node = db.heap.id other) :
    node = other :=
  List.inj_on_of_nodup_map tree.distinct mem otherMember same

theorem named (tree : db.Tree root) (mem : node ∈ db.index) :
    db.heap.id node = .ok (db.heap.name node) :=
  id_eq_name tree.backed (tree.inside node mem)

theorem eq_of_name (tree : db.Tree root) (mem : node ∈ db.index) (otherMember : other ∈ db.index)
    (same : db.heap.name node = db.heap.name other) : node = other :=
  tree.eq_of_id mem otherMember (by rw [tree.named mem, tree.named otherMember, same])

/-- An indexed node below another is the other one or has an indexed parent below it. -/
theorem below_cases (tree : db.Tree root) (mem : other ∈ db.index)
    (below : node ∈ db.heap.lineage other) :
    node = other ∨ ∃ parent ∈ db.index, db.heap.parent? other = some parent ∧
      node ∈ db.heap.lineage parent := by
  by_cases atRoot : other = root
  · subst atRoot
    rw [lineage_of_root (tree.inside _ mem) tree.top, List.mem_singleton] at below
    exact .inl below
  · obtain ⟨parent, parentMember, points, -⟩ := tree.linked other mem atRoot
    rw [lineage_of_child (tree.inside _ mem) points, List.mem_cons] at below
    exact below.imp_right fun above => ⟨parent, parentMember, points, above⟩

/-- What can be reached from an indexed node through children is what descends from it. -/
theorem reached_iff (tree : db.Tree root) (mem : node ∈ db.index) (other : Nat) :
    Relation.ReflTransGen (Worklist.Child db.children) node other ↔
      other ∈ db.index ∧ node ∈ db.heap.lineage other := by
  constructor
  · intro mid
    induction mid with
    | refl => exact ⟨mem, mem_lineage_self (tree.inside node mem)⟩
    | tail _ isChild ih =>
      obtain ⟨childMember, points⟩ := mem_children.mp isChild
      refine ⟨childMember, ?_⟩
      rw [lineage_of_child (tree.inside _ childMember) points]
      exact List.mem_cons_of_mem _ ih.2
  · rintro ⟨otherMember, below⟩
    induction other using Nat.strong_induction_on with
    | _ other ih =>
      rcases tree.below_cases otherMember below with rfl | ⟨parent, parentMember, points, above⟩
      · exact .refl
      · exact (ih parent (parent?_lt points) parentMember above).tail
          (mem_children.mpr ⟨otherMember, points⟩)

/-- The work list of a subtree is grounded. -/
theorem grounded (tree : db.Tree root) (mem : node ∈ db.index) :
    Worklist.Grounded db.children db.index node where
  inside _ _ isChild := (mem_children.mp isChild).1
  nodup _ := tree.nodup.filter _
  unique _ _ _ isChild isOther :=
    Option.some.inj ((mem_children.mp isChild).2.symm.trans (mem_children.mp isOther).2)
  topmost other mid isChild := by
    have older := parent?_lt (mem_children.mp isChild).2
    have above := le_of_mem_lineage ((tree.reached_iff mem other).mp mid).2
    omega

/-- Ids of parents find the children of every node but the root. -/
theorem parentId_eq_iff (tree : db.Tree root) (mem : node ∈ db.index)
    (notRoot : node ≠ root) {child : Nat} (childMember : child ∈ db.index) :
    ∃ parentId, db.heap.parentId child = .ok parentId ∧
      (parentId = db.heap.name node ↔ db.heap.parent? child = some node) := by
  by_cases atRoot : child = root
  · -- The root has the null id as the id of its parent, which is its own id and no other's.
    subst atRoot
    refine ⟨nullId, by rw [parentId, tree.top], ?_⟩
    rw [tree.top]
    refine iff_of_false (fun same => notRoot ?_) (Option.some_ne_none node).symm
    refine tree.eq_of_name mem tree.indexed ?_
    rw [← same, name_eq tree.rootNamed]
  · obtain ⟨parent, parentMember, points, -⟩ := tree.linked child childMember atRoot
    refine ⟨db.heap.name parent, by rw [parentId, points]; exact tree.named parentMember, ?_⟩
    rw [points, Option.some.injEq]
    exact ⟨tree.eq_of_name parentMember mem, fun same => by rw [same]⟩

end Tree

/-- The ids below a node among candidates are those of its children. -/
theorem childIds_eq {parentId : StateNodeId}
    (named : ∀ child ∈ candidates, heap.id child = .ok (heap.name child))
    (points : ∀ child ∈ candidates, ∃ ownParent, heap.parentId child = .ok ownParent ∧
      (ownParent = parentId ↔ heap.parent? child = some node)) :
    childIds heap parentId [] candidates =
      .ok ((candidates.filter fun child => heap.parent? child = some node).map heap.name) := by
  induction candidates with
  | nil => rfl
  | cons candidate rest ih =>
    have later := ih (fun child mem => named child (List.mem_cons_of_mem _ mem))
      fun child mem => points child (List.mem_cons_of_mem _ mem)
    obtain ⟨ownParent, own, iff⟩ := points candidate List.mem_cons_self
    have candidateNamed := named candidate List.mem_cons_self
    by_cases isChild : heap.parent? candidate = some node
    · simp [childIds, own, later, iff.mpr isChild, candidateNamed, isChild, bind, Except.bind,
        pure, Except.pure]
    · have different : ownParent ≠ parentId := fun same => isChild (iff.mp same)
      simp [childIds, own, later, different, isChild, bind, Except.bind, pure, Except.pure]

/-- The queue of `remove` is the work list of ids, unless it meets the head's id. -/
theorem removeQueue_eq {root : Nat} (tree : db.Tree root) (headId : StateNodeId) {steps : Nat}
    {pending : List Nat} (mem : ∀ node ∈ pending, node ∈ db.index ∧ node ≠ root)
    (completed : Worklist.scan db.children steps pending = some queue) :
    db.removeQueue headId [] steps (pending.map db.heap.name) =
      if headId ∈ queue.map db.heap.name then
        .error (.exception "cannot discard an ancestor of head")
      else .ok (queue.map db.heap.name) := by
  induction steps generalizing pending queue with
  | zero =>
    cases pending with
    | nil =>
      cases completed
      rfl
    | cons first rest => cases completed
  | succ steps ih =>
    cases pending with
    | nil =>
      cases completed
      rfl
    | cons first rest =>
      obtain ⟨behind, later, rfl⟩ := Worklist.scan_cons.mp completed
      obtain ⟨firstMember, notRoot⟩ := mem first List.mem_cons_self
      rw [List.map_cons, removeQueue]
      by_cases isHead : db.heap.name first = headId
      · rw [if_pos isHead, if_pos (by simp [isHead])]
      have below : childIds db.heap (db.heap.name first) [] db.index =
          .ok ((db.children first).map db.heap.name) :=
        childIds_eq (fun child => tree.named)
          fun child => tree.parentId_eq_iff firstMember notRoot
      have memberAfter : ∀ node ∈ rest ++ db.children first,
          node ∈ db.index ∧ node ≠ root := by
        intro node inNext
        rcases List.mem_append.mp inNext with inRest | isChild
        · exact mem node (List.mem_cons_of_mem _ inRest)
        · obtain ⟨childMember, points⟩ := mem_children.mp isChild
          refine ⟨childMember, ?_⟩
          rintro rfl
          rw [tree.top] at points
          cases points
      rw [if_neg isHead, below]
      simp only [bind, Except.bind]
      rw [← List.map_append, ih memberAfter later]
      simp only [List.map_cons, List.mem_cons, Ne.symm isHead, false_or]
      by_cases meets : headId ∈ behind.map db.heap.name
      · rw [if_pos meets, if_pos meets]
      · rw [if_neg meets, if_neg meets]
        rfl

/-- A node is found by its id. -/
theorem findAmong_of_mem {id : StateNodeId} (distinct : (candidates.map heap.id).Nodup)
    (named : ∀ other ∈ candidates, ∃ otherId, heap.id other = .ok otherId)
    (mem : node ∈ candidates) (nodeNamed : heap.id node = .ok id) :
    findAmong heap id candidates = .ok (some node) := by
  induction candidates with
  | nil => exact absurd mem List.not_mem_nil
  | cons candidate rest ih =>
    obtain ⟨ownId, own⟩ := named candidate List.mem_cons_self
    obtain ⟨apart, restDistinct⟩ := List.nodup_cons.mp distinct
    simp only [findAmong, own, bind, Except.bind]
    rcases List.mem_cons.mp mem with rfl | inRest
    · obtain rfl : ownId = id := Except.ok.inj (own.symm.trans nodeNamed)
      rw [if_pos rfl]
      rfl
    · have different : ownId ≠ id := by
        rintro rfl
        exact apart (List.mem_map.mpr ⟨node, inRest, nodeNamed.trans own.symm⟩)
      rw [if_neg different]
      exact ih restDistinct (fun other inside => named other (List.mem_cons_of_mem _ inside))
        inRest

section Erasing

variable {stale : Stale} {db : Database} {id : StateNodeId} {first : Nat}
  {rest : List StateNodeId}

/-- A queued node is erased, and its erased iterator says which fork head to forget. -/
theorem eraseQueuedReading_shown {shown : Nat} (found : db.find id = .ok (some first))
    (shows : stale first = some shown) :
    eraseQueuedReading stale (id :: rest) db = eraseQueuedReading stale rest { db with
      index := db.index.erase first
      forkHeads := db.forkHeads.erase shown } := by
  rw [eraseQueuedReading, read_bind, found, ofExcept_bind]
  simp only [modify_bind, shows, expect_bind]

/-- An erased iterator that shows nothing is a fault. -/
theorem eraseQueuedReading_hidden (found : db.find id = .ok (some first))
    (shows : stale first = none) :
    (eraseQueuedReading stale (id :: rest)).Faults db .useAfterErase := by
  rw [Effect.Faults, eraseQueuedReading, read_bind, found, ofExcept_bind]
  simp only [modify_bind, shows]
  rfl

end Erasing

/-- Leaving out the head of a queue and then its rest is leaving out the queue. -/
theorem filter_erase {index : List Nat} (nodup : index.Nodup) (first : Nat) (rest : List Nat) :
    (index.erase first).filter (· ∉ rest) = index.filter (· ∉ first :: rest) := by
  rw [nodup.erase_eq_filter, List.filter_filter]
  refine List.filter_congr fun node _ => ?_
  by_cases here : node = first <;> simp [here]

/-- Erasing queued nodes erases just those, if every erased iterator shows something, and
otherwise stops at an erased iterator. The induction is on the queue. -/
theorem eraseQueuedReading_outcome (stale : Stale) (queueNodup : queue.Nodup)
    (distinct : (db.index.map db.heap.id).Nodup)
    (named : ∀ node ∈ db.index, db.heap.id node = .ok (db.heap.name node))
    (mem : ∀ node ∈ queue, node ∈ db.index) :
    ((∀ node ∈ queue, (stale node).isSome) ∧ ∃ forkHeads,
      (eraseQueuedReading stale (queue.map db.heap.name)).Returns db ()
        { db with
          index := db.index.filter (· ∉ queue)
          forkHeads := forkHeads }) ∨
    ((∃ node ∈ queue, stale node = none) ∧
      (eraseQueuedReading stale (queue.map db.heap.name)).Faults db .useAfterErase) := by
  induction queue generalizing db with
  | nil =>
    refine .inl ⟨fun _ inNil => absurd inNil List.not_mem_nil, db.forkHeads, ?_⟩
    have all : db.index.filter (· ∉ ([] : List Nat)) = db.index := by simp
    rw [all]
    exact returns_pure.mpr ⟨rfl, rfl⟩
  | cons first rest ih =>
    obtain ⟨firstApart, restNodup⟩ := List.nodup_cons.mp queueNodup
    have firstMember := mem first List.mem_cons_self
    have found : db.find (db.heap.name first) = .ok (some first) :=
      findAmong_of_mem distinct (fun other inside => ⟨_, named other inside⟩) firstMember
        (named first firstMember)
    rw [List.map_cons, ← filter_erase (distinct.of_map _)]
    cases shows : stale first with
    | none =>
      exact .inr ⟨⟨first, List.mem_cons_self, shows⟩, eraseQueuedReading_hidden found shows⟩
    | some shown =>
      let forgot : Database := { db with
        index := db.index.erase first
        forkHeads := db.forkHeads.erase shown }
      have kept : ∀ node ∈ rest, node ∈ forgot.index := by
        intro node inRest
        have different : node ≠ first := fun same => firstApart (same ▸ inRest)
        exact (List.mem_erase_of_ne different).mpr (mem node (List.mem_cons_of_mem _ inRest))
      have forgotDistinct : (forgot.index.map forgot.heap.id).Nodup :=
        distinct.sublist (List.erase_sublist.map _)
      have forgotNamed : ∀ node ∈ forgot.index,
          forgot.heap.id node = .ok (forgot.heap.name node) :=
        fun node inside => named node (List.mem_of_mem_erase inside)
      rcases ih restNodup forgotDistinct forgotNamed kept with
        ⟨allShow, forkHeads, gave⟩ | ⟨⟨node, inRest, hidden⟩, faults⟩
      · refine .inl ⟨List.forall_mem_cons.mpr ⟨by rw [shows]; rfl, allShow⟩, forkHeads, ?_⟩
        rw [Effect.Returns, eraseQueuedReading_shown found shows]
        exact gave
      · refine .inr ⟨⟨node, List.mem_cons_of_mem _ inRest, hidden⟩, ?_⟩
        rw [Effect.Faults, eraseQueuedReading_shown found shows]
        exact faults

/-- The last step of `remove`. -/
def dropForkHead : Option Nat → Effect Fault Database Unit
  | some parent => Effect.modify fun db =>
    { db with forkHeads := db.forkHeads.erase parent }
  | none => pure ()

/-- Whatever fork head is dropped, the call returns. -/
theorem dropForkHead_returns (parent : Option Nat) (db : Database) :
    ∃ forkHeads, (dropForkHead parent).Returns db () { db with forkHeads := forkHeads } := by
  cases parent with
  | none => exact ⟨db.forkHeads, rfl⟩
  | some parent => exact ⟨db.forkHeads.erase parent, rfl⟩

namespace Tree

variable {db : Database} {root node head : Nat}

/-- The queue of a `discard`: it is refused with the head or a node above it, and has the
nodes below it, each once, otherwise. -/
theorem removeQueue_outcome (tree : db.Tree root) (mem : node ∈ db.index)
    (notRoot : node ≠ root) (isHead : db.head = some head) :
    ∃ queue : List Nat, queue.Nodup ∧
      (∀ other, other ∈ queue ↔ other ∈ db.index ∧ node ∈ db.heap.lineage other) ∧
      db.removeQueue (db.heap.name head) [] (db.index.length + 1)
          [db.heap.name node] =
        if node ∈ db.heap.lineage head then
          .error (.exception "cannot discard an ancestor of head")
        else .ok (queue.map db.heap.name) := by
  obtain ⟨other, headMember, isOther⟩ := tree.head
  obtain rfl := Option.some.inj (isHead.symm.trans isOther)
  obtain ⟨queue, completed, nodup, reads⟩ :=
    Worklist.scan_completes (tree.grounded mem) mem (Nat.le_succ db.index.length)
  have members : ∀ other, other ∈ queue ↔
      other ∈ db.index ∧ node ∈ db.heap.lineage other :=
    fun other => (reads other).trans (tree.reached_iff mem other)
  refine ⟨queue, nodup, members, ?_⟩
  have queued := removeQueue_eq tree (db.heap.name head)
    (fun other isPending => by
      obtain rfl := List.mem_singleton.mp isPending
      exact ⟨mem, notRoot⟩) completed
  have meets : db.heap.name head ∈ queue.map db.heap.name ↔
      node ∈ db.heap.lineage head := by
    rw [List.mem_map]
    constructor
    · rintro ⟨other, inQueue, same⟩
      obtain ⟨otherMember, below⟩ := (members other).mp inQueue
      exact tree.eq_of_name otherMember headMember same ▸ below
    · exact fun below => ⟨head, (members head).mpr ⟨headMember, below⟩, rfl⟩
  rw [List.map_singleton] at queued
  simp only [queued, meets]

/-- A `discard` up to its queue. -/
theorem removeReading_eq (tree : db.Tree root) (mem : node ∈ db.index)
    (notRoot : node ≠ root) (isHead : db.head = some head) (stale : Stale) :
    removeReading stale node [] db = (Effect.ofExcept (db.removeQueue
        (db.heap.name head) [] (db.index.length + 1) [db.heap.name node]) >>=
      fun queue => eraseQueuedReading stale queue >>= fun _ =>
        dropForkHead (db.heap.parent? node)) db := by
  obtain ⟨other, headMember, isOther⟩ := tree.head
  obtain rfl := Option.some.inj (isHead.symm.trans isOther)
  have opens : requireOpen.Returns db () db :=
    returns_requireOpen.mpr ⟨by simp [isOpen, tree.isRoot, isHead], rfl⟩
  have different : db.heap.name node ≠ nullId := by
    intro same
    refine notRoot (tree.eq_of_id mem tree.indexed ?_)
    rw [tree.named mem, same, tree.rootNamed]
  rw [removeReading, opens.bind_eq, read_bind, tree.isRoot, expect_bind, isHead,
    expect_bind, tree.named mem, ofExcept_bind, tree.rootNamed,
    ofExcept_bind, if_neg different, tree.named headMember, ofExcept_bind]
  rfl

/-- The root is not discarded. -/
theorem discard_root (tree : db.Tree root) (stale : Stale) :
    removeReading stale root [] db =
      (.error (.exception "cannot discard root node"), db) := by
  obtain ⟨head, -, isHead⟩ := tree.head
  have opens : requireOpen.Returns db () db :=
    returns_requireOpen.mpr ⟨by simp [isOpen, tree.isRoot, isHead], rfl⟩
  rw [removeReading, opens.bind_eq, read_bind, tree.isRoot, expect_bind, isHead,
    expect_bind, tree.rootNamed, ofExcept_bind, ofExcept_bind, if_pos rfl]
  rfl

/-- How a `discard` of a node below the root ends: it throws and changes nothing if the head
descends from the node. Otherwise the index loses exactly what descends from the node, provided
that every erased iterator shows something; one that does not stops it. -/
theorem discard_outcome (tree : db.Tree root) (mem : node ∈ db.index)
    (notRoot : node ≠ root) (isHead : db.head = some head) (stale : Stale) :
    if node ∈ db.heap.lineage head then
      removeReading stale node [] db =
        (.error (.exception "cannot discard an ancestor of head"), db)
    else
      ((∀ other ∈ db.index, node ∈ db.heap.lineage other → (stale other).isSome) ∧
        ∃ forkHeads, (removeReading stale node []).Returns db ()
          { db with index := db.others node, forkHeads := forkHeads }) ∨
      ((∃ other ∈ db.index, node ∈ db.heap.lineage other ∧ stale other = none) ∧
        (removeReading stale node []).Faults db .useAfterErase) := by
  obtain ⟨queue, nodup, members, queued⟩ := tree.removeQueue_outcome mem notRoot isHead
  have entered := tree.removeReading_eq mem notRoot isHead stale
  by_cases above : node ∈ db.heap.lineage head
  · rw [if_pos above] at queued ⊢
    rw [entered, queued]
    rfl
  · rw [if_neg above] at queued ⊢
    rw [queued, ofExcept_bind] at entered
    rcases eraseQueuedReading_outcome stale nodup tree.distinct (fun _ => tree.named)
        (fun other inQueue => ((members other).mp inQueue).1) with
      ⟨allShow, forkHeads, erased⟩ | ⟨⟨other, inQueue, hidden⟩, faults⟩
    · refine .inl ⟨fun other otherMember below =>
        allShow other ((members other).mpr ⟨otherMember, below⟩), ?_⟩
      rw [erased.bind_eq] at entered
      obtain ⟨left, dropped⟩ := dropForkHead_returns (db.heap.parent? node)
        { db with
          index := db.index.filter (· ∉ queue)
          forkHeads := forkHeads }
      have kept : db.index.filter (· ∉ queue) = db.others node := by
        refine List.filter_congr fun other otherMember => ?_
        simp [members, otherMember]
      refine ⟨left, ?_⟩
      rw [Effect.Returns, entered, show dropForkHead _ _ = _ from dropped, kept]
    · obtain ⟨otherMember, below⟩ := (members other).mp inQueue
      refine .inr ⟨⟨other, otherMember, below, hidden⟩, ?_⟩
      rw [Effect.Faults, entered]
      exact faults.bind

variable {after : Database} {parent : Nat}

/-- Whatever keeps the index, the head in it, and parents, ids and revisions keeps the tree. -/
theorem congr (tree : db.Tree root) (isRoot : after.root = db.root) (index : after.index = db.index)
    (keepsHead : ∃ head ∈ after.index, after.head = some head) (backed : after.heap.Backed)
    (size : db.heap.size ≤ after.heap.size)
    (parents : ∀ node < db.heap.size, after.heap.parent? node = db.heap.parent? node)
    (ids : ∀ node < db.heap.size, after.heap.id node = db.heap.id node)
    (revisions : ∀ node < db.heap.size, after.heap.revision node = db.heap.revision node) :
    after.Tree root := by
  have inside := tree.inside
  refine ⟨backed, ?_, isRoot.trans tree.isRoot, index ▸ tree.indexed, ?_, ?_, ?_, ?_, keepsHead⟩
  · exact fun node mem => Nat.lt_of_lt_of_le (inside node (index ▸ mem)) size
  · exact (parents root (inside root tree.indexed)).trans tree.top
  · exact (ids root (inside root tree.indexed)).trans tree.rootNamed
  · rw [index, List.map_congr_left fun node mem => ids node (inside node mem)]
    exact tree.distinct
  · intro node mem notRoot
    rw [index] at mem
    obtain ⟨parent, parentMember, points, revision, parentRevised, revised⟩ :=
      tree.linked node mem notRoot
    exact ⟨parent, index ▸ parentMember, (parents node (inside node mem)).trans points, revision,
      (revisions parent (inside parent parentMember)).trans parentRevised,
      (revisions node (inside node mem)).trans revised⟩

/-- Changes of contents keep the tree. -/
theorem settled (tree : db.Tree root) {limit : Nat} (settled : Database.Settled limit db after) :
    after.Tree root :=
  tree.congr settled.root settled.index (by rw [settled.index, settled.head]; exact tree.head)
    (settled.heap.backed tree.backed) settled.heap.size settled.heap.parents
    (fun _ inside => settled.heap.id inside) fun _ inside => settled.heap.revision inside

/-- A new delta that is not indexed leaves the tree alone. -/
theorem pushed (tree : db.Tree root) (parent : Option Nat) {delta : Delta}
    (held : delta.backend.isSome) :
    Tree { db with heap := db.heap.push parent delta } root := by
  refine tree.congr rfl rfl tree.head (backed_push tree.backed held) (by simp) ?_ ?_ ?_
  · intro node old
    rw [parent?_push, if_neg (Nat.ne_of_lt old)]
  · intro node old
    rw [Heap.id, Heap.id, backend_push_of_lt old]
  · intro node old
    exact revision_push_of_lt old

/-- Indexing a delta under a fresh id, below an indexed node of the revision before. -/
theorem extend (tree : db.Tree root) {revision : UInt64} (inside : node < db.heap.size)
    (fresh : ∀ other ∈ db.index, db.heap.id other ≠ db.heap.id node)
    (parentMember : parent ∈ db.index) (points : db.heap.parent? node = some parent)
    (parentRevised : db.heap.revision parent = .ok revision)
    (revised : db.heap.revision node = .ok (revision + 1)) :
    Tree { db with index := db.index ++ [node] } root := by
  refine ⟨tree.backed, ?_, tree.isRoot, List.mem_append_left _ tree.indexed, tree.top,
    tree.rootNamed, ?_, ?_, ?_⟩
  · intro other mem
    rcases List.mem_append.mp mem with old | new
    · exact tree.inside other old
    · rwa [List.mem_singleton.mp new]
  · rw [List.map_append]
    refine tree.distinct.append (List.nodup_singleton _) ?_
    intro id old new
    obtain ⟨other, mem, rfl⟩ := List.mem_map.mp old
    rw [List.map_singleton, List.mem_singleton] at new
    exact fresh other mem new
  · intro other mem notRoot
    rcases List.mem_append.mp mem with old | new
    · obtain ⟨otherParent, otherMember, rest⟩ := tree.linked other old notRoot
      exact ⟨otherParent, List.mem_append_left _ otherMember, rest⟩
    · obtain rfl := List.mem_singleton.mp new
      exact ⟨parent, List.mem_append_left _ parentMember, points, revision, parentRevised, revised⟩
  · obtain ⟨head, mem, isHead⟩ := tree.head
    exact ⟨head, List.mem_append_left _ mem, isHead⟩

/-- A delta created below an indexed node and added to the index, or not. -/
theorem added (tree : db.Tree root) (parentMember : parent ∈ db.index) {delta : Delta}
    (own : Backend) (held : delta.backend = some own) {revision : UInt64}
    (parentRevised : db.heap.revision parent = .ok revision) (revised : own.revision = revision + 1)
    {outcome : Except Fault Unit × Database}
    (added : ForkCall.Added db (some parent) delta own.id outcome) : outcome.2.Tree root := by
  have isHeld : delta.backend.isSome := by rw [held]; rfl
  have pushed := tree.pushed (some parent) isHeld
  have parentInside := tree.inside parent parentMember
  cases added with
  | taken isTaken => exact pushed
  | indexed fresh =>
    have stored : backend (db.heap.push (some parent) delta) db.heap.size = .ok own :=
      backend_eq_ok_iff.mpr ⟨delta, node?_push_self _ _ _, held⟩
    refine pushed.extend (by simp) ?_ parentMember (parent?_push_child parentInside delta)
      ((revision_push_of_lt parentInside).trans parentRevised) ?_
    · intro other mem
      rw [Heap.id, backend_push_of_lt (tree.inside other mem), Heap.id, stored]
      exact fresh other mem
    · rw [revision_of_backend stored, ← revised]

/-- Without what descends from a node that is not above the head, the tree stays a tree. -/
theorem pruned (tree : db.Tree root) (notRoot : node ≠ root)
    (isHead : db.head = some head) (apart : node ∉ db.heap.lineage head)
    (forkHeads : Finset Nat) :
    Tree { db with index := db.others node, forkHeads := forkHeads } root := by
  have rootApart : node ∉ db.heap.lineage root := by
    rw [lineage_of_root (tree.inside root tree.indexed) tree.top, List.mem_singleton]
    exact notRoot
  have smaller : ∀ other ∈ db.others node, other ∈ db.index :=
    fun other mem => (mem_others.mp mem).1
  refine ⟨tree.backed, fun other mem => tree.inside other (smaller other mem), tree.isRoot,
    mem_others.mpr ⟨tree.indexed, rootApart⟩, tree.top, tree.rootNamed,
    tree.distinct.sublist (List.filter_sublist.map _), ?_, ?_⟩
  · intro other mem otherNotRoot
    obtain ⟨otherMember, otherApart⟩ := mem_others.mp mem
    obtain ⟨parent, parentMember, points, rest⟩ := tree.linked other otherMember otherNotRoot
    refine ⟨parent, mem_others.mpr ⟨parentMember, fun above => otherApart ?_⟩, points, rest⟩
    rw [lineage_of_child (tree.inside other otherMember) points]
    exact List.mem_cons_of_mem _ above
  · obtain ⟨other, mem, isOther⟩ := tree.head
    obtain rfl := Option.some.inj (isHead.symm.trans isOther)
    exact ⟨head, mem_others.mpr ⟨mem, apart⟩, isHead⟩

end Tree

/-- After the call the process goes on: the call returned or threw. -/
def ForkCall.Survives (call : ForkCall) (db : Database) : Prop :=
  (call.perform db).1 = .ok () ∨
    ∃ message, (call.perform db).1 = .error (.exception message)

/-- The databases reached from opening one by calls on indexed nodes, whether or not they
threw, and by writes of objects. A call that ends the process has no next state. -/
inductive IndexRun : Database → Prop where
  | opened {writes : List (Bytes × Bytes)} {db : Database} :
      (openIndex (writeAll writes)).Returns empty () db → IndexRun db
  | called {db : Database} (call : ForkCall) :
      IndexRun db → call.node ∈ db.index →
        (∀ node newId, call = .clone node newId → db.root ≠ some node) →
        call.Survives db → IndexRun (call.perform db).2
  | put {db : Database} (node : Nat) (key value : Bytes) :
      IndexRun db → IndexRun (onHeap (put node key value) db).2
  | remove {db : Database} (node : Nat) (key : Bytes) :
      IndexRun db → IndexRun (onHeap (Heap.remove node key) db).2

namespace Tree

variable {db : Database} {root node : Nat}

/-- An opened database is a tree. -/
theorem opened {writes : List (Bytes × Bytes)}
    (gave : (openIndex (writeAll writes)).Returns empty () db) : db.Tree 0 := by
  obtain ⟨backed, ⟨root, rootIs, inside, top⟩, -⟩ := openIndex_rooted (writeAll_extends _ 0) gave
  obtain ⟨rootZero, headZero, onlyRoot, -, -⟩ := openIndex_opens (writeAll_extends _ 0) gave
  obtain rfl := Option.some.inj (rootIs.symm.trans rootZero)
  obtain ⟨reopened, reopenedReturned, shows, -⟩ := openIndex_reopened writes
  obtain ⟨-, rfl⟩ := gave.unique reopenedReturned
  refine ⟨backed, ?_, rootZero, by simp [onlyRoot], top, (id_of_findAmong shows.found).1,
    by simp [onlyRoot], ?_, ⟨0, by simp [onlyRoot], headZero⟩⟩
  · simpa [onlyRoot] using inside
  · intro node mem notRoot
    rw [onlyRoot] at mem
    exact absurd (List.mem_singleton.mp mem) notRoot

/-- A new child is a leaf of the tree. -/
theorem makeChild (tree : db.Tree root) (mem : node ∈ db.index)
    (childId : StateNodeId) : ((ForkCall.makeChild node childId).perform db).2.Tree root := by
  obtain ⟨own, stored, added⟩ := ForkCall.makeChild_added tree.backed tree.inside mem childId
  exact tree.added mem (Backend.create _ (own.revision + 1)) rfl
    (revision_of_backend stored) rfl added

/-- A copy is a sibling in the tree. -/
theorem clone (tree : db.Tree root) (mem : node ∈ db.index) (notRoot : node ≠ root)
    (newId : StateNodeId) : ((ForkCall.clone node newId).perform db).2.Tree root := by
  obtain ⟨parent, parentMember, points, revision, parentRevised, revised⟩ :=
    tree.linked node mem notRoot
  obtain ⟨delta, own, found, stored, added⟩ :=
    ForkCall.clone_added tree.backed tree.inside mem newId
  rw [points] at added
  refine tree.added parentMember (copyBackend own newId delta.merkleRoot) rfl parentRevised ?_
    added
  rw [Heap.revision, backend_eq_ok_iff.mpr ⟨delta, found, stored⟩] at revised
  exact Except.ok.inj revised

/-- Making a node final leaves the tree as it is. -/
theorem finalize (tree : db.Tree root) (mem : node ∈ db.index) :
    ((ForkCall.finalize node).perform db).2.Tree root := by
  obtain ⟨head, headMember, isHead⟩ := tree.head
  have inside := tree.inside node mem
  obtain ⟨revision, revised⟩ := revision_of_backed tree.backed inside
  obtain ⟨headRevision, headRevised⟩ := revision_of_backed tree.backed (tree.inside head headMember)
  have outcome := ForkCall.finalize_outcome inside tree.isRoot isHead revised headRevised
  rw [show (ForkCall.finalize node).perform db = _ from outcome]
  refine tree.congr rfl rfl ⟨_, ?_, rfl⟩ (backed_update tree.backed fun _ held => held)
    (by simp) (by simp) ?_ ?_
  · split
    · exact mem
    · exact headMember
  · intro other _
    rw [Heap.id, Heap.id, backend_finalized]
  · exact fun other _ => revision_finalized db.heap node other

/-- What survives a `discard` is a tree. -/
theorem discard (tree : db.Tree root) (mem : node ∈ db.index) {stale : Stale}
    (survives : (ForkCall.discard node stale).Survives db) :
    ((ForkCall.discard node stale).perform db).2.Tree root := by
  obtain ⟨head, headMember, isHead⟩ := tree.head
  by_cases notRoot : node = root
  · rw [notRoot, show (ForkCall.discard root stale).perform db = _ from tree.discard_root stale]
    exact tree
  have outcome := tree.discard_outcome mem notRoot isHead stale
  by_cases above : node ∈ db.heap.lineage head
  · rw [if_pos above] at outcome
    rw [show (ForkCall.discard node stale).perform db = _ from outcome]
    exact tree
  · rw [if_neg above] at outcome
    rcases outcome with ⟨-, forkHeads, gave⟩ | ⟨-, faults⟩
    · rw [show (ForkCall.discard node stale).perform db = _ from gave]
      exact tree.pruned notRoot isHead above forkHeads
    · rcases survives with gave | ⟨message, threw⟩
      · exact absurd (gave.symm.trans faults) nofun
      · exact absurd (threw.symm.trans faults) nofun

/-- Every call that the process survives leaves a tree. -/
theorem call (tree : db.Tree root) (call : ForkCall) (mem : call.node ∈ db.index)
    (notRoot : ∀ node newId, call = .clone node newId → db.root ≠ some node)
    (survives : call.Survives db) : (call.perform db).2.Tree root := by
  cases call with
  | makeChild node childId => exact tree.makeChild mem childId
  | clone node newId =>
    refine tree.clone mem ?_ newId
    rintro rfl
    exact notRoot node newId rfl tree.isRoot
  | finalize node => exact tree.finalize mem
  | discard node stale => exact tree.discard mem survives

end Tree

/-- In every run the index is a tree. -/
theorem IndexRun.tree (run : IndexRun db) :
    ∃ root, db.Tree root := by
  induction run with
  | opened gave => exact ⟨0, .opened gave⟩
  | called call _ mem notRoot survives ih =>
    obtain ⟨root, tree⟩ := ih
    exact ⟨root, tree.call call mem notRoot survives⟩
  | put node key value _ ih =>
    obtain ⟨root, tree⟩ := ih
    have confined : (Heap.put node key value).Keeps (Heap.Confined (fun _ => True) node) :=
      put_confined value trivial
    exact ⟨root, tree.settled
      (onHeap_settled (confined.mono fun _ _ kept => kept.settled (Nat.zero_le _)) _)⟩
  | remove node key _ ih =>
    obtain ⟨root, tree⟩ := ih
    have confined : (Heap.remove node key).Keeps (Heap.Confined (fun _ => True) node) :=
      remove_confined trivial
    exact ⟨root, tree.settled
      (onHeap_settled (confined.mono fun _ _ kept => kept.settled (Nat.zero_le _)) _)⟩

/-- As many steps up as the revision is above the root's lead from a node to the root. -/
theorem Tree.steps_to_root {root : Nat} (tree : db.Tree root) {rootRevision : UInt64}
    (rootRevised : db.heap.revision root = .ok rootRevision) (mem : node ∈ db.index) :
    ∃ revision steps, db.heap.revision node = .ok revision ∧ steps ≤ node ∧
      (db.heap.lineage node)[steps]? = some root ∧
      UInt64.ofNat steps = revision - rootRevision := by
  induction node using Nat.strong_induction_on with
  | _ node ih =>
    by_cases atRoot : node = root
    · refine ⟨rootRevision, 0, atRoot ▸ rootRevised, Nat.zero_le _, ?_, by simp⟩
      rw [atRoot, lineage_of_root (tree.inside root tree.indexed) tree.top]
      rfl
    · obtain ⟨parent, parentMember, points, revision, parentRevised, revised⟩ :=
        tree.linked node mem atRoot
      have older := parent?_lt points
      obtain ⟨otherRevision, steps, alsoRevised, few, arrives, counted⟩ :=
        ih parent older parentMember
      obtain rfl : revision = otherRevision := Except.ok.inj (parentRevised.symm.trans alsoRevised)
      refine ⟨revision + 1, steps + 1, revised, by omega, ?_, ?_⟩
      · rw [lineage_of_child (tree.inside node mem) points, List.getElem?_cons_succ]
        exact arrives
      · calc UInt64.ofNat (steps + 1) = UInt64.ofNat steps + 1 := by simp
          _ = revision - rootRevision + 1 := by rw [counted]
          _ = revision + 1 - rootRevision := by grind

/-- In every run of `make_child`, `clone` of other nodes than the root, `finalize`, `discard`
and writes, the index is a tree: ids are distinct, the parent of a node other than the root is
indexed and has the revision before, and from any node the root is as many parents away as the
revisions differ. A `make_child` or `clone` that throws has left the index as it was, and it
throws only for an id that is taken. -/
theorem index_is_tree {db : Database} (run : IndexRun db) :
    ∃ root rootRevision, db.root = some root ∧ root ∈ db.index ∧
      db.heap.revision root = .ok rootRevision ∧
      (db.index.map db.heap.id).Nodup ∧
      (∀ node ∈ db.index, node ≠ root → ∃ parent ∈ db.index,
        db.heap.parent? node = some parent ∧ ∃ revision,
          db.heap.revision parent = .ok revision ∧
          db.heap.revision node = .ok (revision + 1)) ∧
      (∀ node ∈ db.index, ∃ revision steps, db.heap.revision node = .ok revision ∧
        steps < db.heap.size ∧ (db.heap.lineage node)[steps]? = some root ∧
        UInt64.ofNat steps = revision - rootRevision) ∧
      ∀ node ∈ db.index, ∀ id fault call,
        call = ForkCall.makeChild node id ∨ call = ForkCall.clone node id →
        (call.perform db).1 = .error fault →
          (call.perform db).2.index = db.index ∧
          ∃ other ∈ db.index, db.heap.id other =
            if id = nullId then db.heap.id node else .ok id := by
  obtain ⟨root, tree⟩ := run.tree
  obtain ⟨rootRevision, rootRevised⟩ :=
    revision_of_backed tree.backed (tree.inside root tree.indexed)
  refine ⟨root, rootRevision, tree.isRoot, tree.indexed, rootRevised, tree.distinct, tree.linked,
    ?_, ?_⟩
  · intro node mem
    obtain ⟨revision, steps, revised, few, arrives, counted⟩ := tree.steps_to_root rootRevised mem
    exact ⟨revision, steps, revised, Nat.lt_of_le_of_lt few (tree.inside node mem), arrives,
      counted⟩
  · intro node mem id fault call isCall threw
    have refused : ∀ {parent delta} {own : Backend} {outcome : Except Fault Unit × Database},
        db.heap.id node = .ok own.id →
        ForkCall.Added db parent delta (if id = nullId then own.id else id) outcome →
        outcome.1 = .error fault → outcome.2.index = db.index ∧
          ∃ other ∈ db.index, db.heap.id other =
            if id = nullId then db.heap.id node else .ok id := by
      intro parent delta own outcome named added isError
      cases added with
      | indexed fresh => cases isError
      | taken isTaken =>
        obtain ⟨other, otherMember, otherNamed⟩ := isTaken
        refine ⟨rfl, other, otherMember, otherNamed.trans ?_⟩
        rw [named]
        split <;> rfl
    rcases isCall with rfl | rfl
    · obtain ⟨own, stored, added⟩ := ForkCall.makeChild_added tree.backed tree.inside mem id
      exact refused (id_of_backend stored) added threw
    · obtain ⟨delta, own, found, stored, added⟩ :=
        ForkCall.clone_added tree.backed tree.inside mem id
      exact refused (id_of_backend (backend_eq_ok_iff.mpr ⟨delta, found, stored⟩)) added threw

theorem indexRun_siblings : IndexRun siblings := by
  have gave : (openIndex (writeAll [])).Returns empty () (openIndex (writeAll []) empty).2 := rfl
  have opened := IndexRun.opened gave
  have first := opened.called (.makeChild 0 (SizedBytes.fit 32 [1])) (by decide) nofun (.inl rfl)
  have second := first.called (.makeChild 0 (SizedBytes.fit 32 [2])) (by decide) nofun (.inl rfl)
  have finalized := second.called (.finalize 2) (by decide) nofun (.inl rfl)
  exact finalized.called (.finalize 1) (by decide) nofun (.inl rfl)

/-- The index of two children of genesis is a tree. -/
theorem index_is_tree_of_siblings :
    siblings.index = [0, 1, 2] ∧ (siblings.index.map siblings.heap.id).Nodup := by
  obtain ⟨root, rootRevision, -, -, -, distinct, -⟩ := index_is_tree indexRun_siblings
  exact ⟨rfl, distinct⟩

/-- The head is the node or descends from it. -/
def HeadBelow (db : Database) (node : Nat) : Prop :=
  ∃ head, db.head = some head ∧ node ∈ db.heap.lineage head

/-- What `discard` is for: it throws and leaves index, head and fork heads alone when the head
is the node or descends from it, and otherwise returns and has removed from the index exactly
the node and what descends from it. -/
def DiscardsSubtree (db : Database) (node : Nat) : Prop :=
  ((∃ message, (discard node).Faults db (.exception message)) ∧
    (discard node db).2.index = db.index ∧
    (discard node db).2.head = db.head ∧
    (discard node db).2.forkHeads = db.forkHeads ∧
    db.HeadBelow node) ∨
  (¬ db.HeadBelow node ∧ ∃ after, (discard node).Returns db () after ∧
    ∀ other, other ∈ after.index ↔
      other ∈ db.index ∧ node ∉ db.heap.lineage other)

/-- In every state of every run, discarding an indexed node below the root does what it is for
exactly when the head is that node or descends from it; then it is refused. Any other
`discard` follows an iterator that it has just erased. Were the iterators to show something,
the index would lose exactly the node and what descends from it. -/
theorem discards_subtree_iff {db : Database} (run : IndexRun db) {node : Nat}
    (mem : node ∈ db.index) (notRoot : db.root ≠ some node) :
    (db.DiscardsSubtree node ↔ db.HeadBelow node) ∧
      (¬ db.HeadBelow node → (discard node).Faults db .useAfterErase ∧
        ∀ stale : Stale, (∀ other, (stale other).isSome) → ∃ forkHeads,
          (removeReading stale node []).Returns db ()
            { db with index := db.others node, forkHeads := forkHeads }) := by
  obtain ⟨root, tree⟩ := run.tree
  obtain ⟨head, headMember, isHead⟩ := tree.head
  have different : node ≠ root := by
    rintro rfl
    exact notRoot tree.isRoot
  have below : db.HeadBelow node ↔ node ∈ db.heap.lineage head := by
    constructor
    · rintro ⟨other, isOther, above⟩
      exact Option.some.inj (isHead.symm.trans isOther) ▸ above
    · exact fun above => ⟨head, isHead, above⟩
  have discards : discard node = removeReading (fun _ => none) node [] := remove_eq_reading node []
  have hidden := tree.discard_outcome mem different isHead fun _ => none
  rw [← discards] at hidden
  by_cases above : node ∈ db.heap.lineage head
  · rw [if_pos above] at hidden
    have threw : (discard node).Faults db
        (.exception "cannot discard an ancestor of head") := congrArg Prod.fst hidden
    have unchanged : (discard node db).2 = db := congrArg Prod.snd hidden
    refine ⟨iff_of_true (.inl ⟨⟨_, threw⟩, ?_, ?_, ?_, below.mpr above⟩) (below.mpr above),
      fun apart => absurd (below.mpr above) apart⟩
    all_goals rw [unchanged]
  · rw [if_neg above] at hidden
    have faults : (discard node).Faults db .useAfterErase := by
      rcases hidden with ⟨shows, -⟩ | ⟨-, faults⟩
      · exact absurd (shows node mem (mem_lineage_self (tree.inside node mem))) (by simp)
      · exact faults
    refine ⟨iff_of_false ?_ fun isBelow => above (below.mp isBelow), fun _ => ⟨faults, ?_⟩⟩
    · rintro (⟨-, -, -, -, isBelow⟩ | ⟨-, after, gave, -⟩)
      · exact above (below.mp isBelow)
      · exact faults.not_returns gave
    · intro stale shows
      have outcome := tree.discard_outcome mem different isHead stale
      rw [if_neg above] at outcome
      rcases outcome with ⟨-, gave⟩ | ⟨⟨other, -, -, isHidden⟩, -⟩
      · exact gave
      · have shown := shows other
        rw [isHidden] at shown
        cases shown

/-- Discarding the head of two siblings is refused, as it should be. -/
theorem discards_subtree_of_head_sibling :
    siblings.head = some 2 ∧ siblings.DiscardsSubtree 2 :=
  ⟨rfl, (discards_subtree_iff indexRun_siblings (by decide) (by decide)).1.mpr
    ⟨2, rfl, by decide⟩⟩

/-- Discarding the other sibling erases it and then follows the erased iterator. -/
theorem discard_of_sibling_uses_erased_iterator :
    IndexRun siblings ∧ 1 ∈ siblings.index ∧ siblings.root = some 0 ∧ siblings.head = some 2 ∧
      1 ∉ siblings.heap.lineage 2 ∧ ¬ siblings.DiscardsSubtree 1 ∧
      (discard 1).Faults siblings .useAfterErase ∧
      (discard 1 siblings).2.index = [0, 2] := by
  have faults : (discard 1).Faults siblings .useAfterErase := rfl
  refine ⟨indexRun_siblings, by decide, rfl, rfl, by decide, ?_, faults, rfl⟩
  rintro (⟨⟨message, threw⟩, -⟩ | ⟨-, after, gave, -⟩)
  · exact absurd (threw.symm.trans faults) nofun
  · exact faults.not_returns gave

end Database

end Respublica.StateDb
