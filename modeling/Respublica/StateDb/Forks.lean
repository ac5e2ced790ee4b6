import Respublica.StateDb.Commit

/-!
# Head and fork heads

The index chooses its head when a node is finalized: the longer fork wins, and the first of
equal length. Nodes enter by `make_child` and `clone` and leave by `discard`, none of which
touches the head, so the choice has to survive them.

`discard` erases an entry of the index and then follows the erased iterator to drop a fork
head. `Stale` stands for what it finds there, if it finds anything; the head does not depend
on it.
-/

namespace Respublica.StateDb

open Foundation Effect Forest

/-- The pointer an erased iterator still shows for an erased delta, if any. -/
abbrev Stale := Nat → Option Nat

namespace Heap

variable {heap : Heap}

variable {parent : Option Nat} {index : Nat}

theorem backend_push_of_lt {delta : Delta} (old : index < heap.size) :
    Heap.backend (heap.push parent delta) index = heap.backend index := by
  rw [Heap.backend, Heap.backend, node?_push_of_lt old]

theorem revision_push_of_lt {delta : Delta} (old : index < heap.size) :
    Heap.revision (heap.push parent delta) index = heap.revision index := by
  rw [Heap.revision, Heap.revision, backend_push_of_lt old]

theorem final_push_of_lt {delta : Delta} (old : index < heap.size) :
    Heap.final (heap.push parent delta) index = heap.final index := by
  rw [Heap.final, Heap.final, node?_push_of_lt old]

/-- Making a delta final leaves backends alone. -/
theorem backend_finalized (heap : Heap) (index other : Nat) :
    Heap.backend (heap.update index fun delta => { delta with final := true }) other =
      heap.backend other := by
  rw [Heap.backend, Heap.backend, node?_update]
  by_cases here : index = other
  · rw [if_pos here]
    cases heap.node? other <;> rfl
  · rw [if_neg here]

theorem revision_finalized (heap : Heap) (index other : Nat) :
    Heap.revision (heap.update index fun delta => { delta with final := true }) other =
      heap.revision other := by
  rw [Heap.revision, Heap.revision, backend_finalized]

/-- Just that delta becomes final. -/
theorem final_finalized (inside : index < heap.size) (other : Nat) :
    Heap.final (heap.update index fun delta => { delta with final := true }) other = true ↔
      other = index ∨ heap.final other = true := by
  obtain ⟨delta, found⟩ := Option.isSome_iff_exists.mp (node?_isSome_iff.mpr inside)
  rw [Heap.final, Heap.final, node?_update]
  by_cases here : index = other
  · subst here
    simp [found]
  · simp [here, Ne.symm here]

/-- In a backed heap every delta has a revision, an id and a parent id. -/
theorem revision_of_backed (backed : heap.Backed) (inside : index < heap.size) :
    ∃ revision, heap.revision index = .ok revision := by
  obtain ⟨-, own, -, -, stored⟩ := backend_of_backed backed inside
  exact ⟨own.revision, revision_of_backend stored⟩

theorem id_of_backed (backed : heap.Backed) (inside : index < heap.size) :
    ∃ id, heap.id index = .ok id := by
  obtain ⟨-, own, -, -, stored⟩ := backend_of_backed backed inside
  exact ⟨own.id, id_of_backend stored⟩

theorem parentId_of_backed (backed : heap.Backed) (inside : index < heap.size) :
    ∃ previous, heap.parentId index = .ok previous := by
  rw [Heap.parentId]
  cases points : heap.parent? index with
  | none => exact ⟨_, rfl⟩
  | some above => exact id_of_backed backed (Nat.lt_trans (parent?_lt points) inside)

end Heap

namespace Database

/-- Erase queued nodes, dropping the fork heads that erased iterators show. -/
def eraseQueuedReading (stale : Stale) : List StateNodeId → Effect Fault Database Unit
  | [] => pure ()
  | id :: rest => do
      let db ← Effect.read
      match ← Effect.ofExcept (db.find id) with
      | none => eraseQueuedReading stale rest
      | some delta => do
          Effect.modify fun db => { db with index := db.index.erase delta }
          let shown ← Effect.expect .useAfterErase (stale delta)
          Effect.modify fun db =>
            { db with forkHeads := db.forkHeads.erase shown }
          eraseQueuedReading stale rest

/-- `delta_index::remove`, with what erased iterators show. -/
def removeReading (stale : Stale) (delta : Nat) (whitelist : List StateNodeId) :
    Effect Fault Database Unit := do
  requireOpen
  let db ← Effect.read
  let root ← Effect.expect .nullDereference db.root
  let head ← Effect.expect .nullDereference db.head
  let id ← Effect.ofExcept (db.heap.id delta)
  let rootId ← Effect.ofExcept (db.heap.id root)
  if id = rootId then Effect.fail (.exception "cannot discard root node")
  else do
    let headId ← Effect.ofExcept (db.heap.id head)
    let queue ← Effect.ofExcept
      (db.removeQueue headId whitelist (db.index.length + 1) [id])
    eraseQueuedReading stale queue
    match db.heap.parent? delta with
    | some parent => Effect.modify fun db =>
      { db with forkHeads := db.forkHeads.erase parent }
    | none => pure ()

/-- `remove` takes an erased iterator to show nothing. -/
theorem remove_eq_reading (delta : Nat) (whitelist : List StateNodeId) :
    remove delta whitelist = removeReading (fun _ => none) delta whitelist := by
  have erases : eraseQueued = eraseQueuedReading fun _ => none := by
    funext queue
    induction queue with
    | nil => rfl
    | cons id rest ih =>
      simp only [eraseQueued, eraseQueuedReading, ih]
      rfl
  unfold remove removeReading
  exact erases ▸ rfl

/-- What erasing does to everything but the fork heads: deltas, root and head stay, the index
shrinks, and the head is not among what it loses. -/
structure Shrinks (before after : Database) : Prop where
  heap : after.heap = before.heap
  root : after.root = before.root
  head : after.head = before.head
  index : ∀ node ∈ after.index, node ∈ before.index
  headStays : ∀ head ∈ before.head, head ∈ before.index → head ∈ after.index

instance : Std.Refl Shrinks := ⟨fun _ => ⟨rfl, rfl, rfl, fun _ mem => mem, fun _ _ mem => mem⟩⟩

instance : IsTrans Database Shrinks :=
  ⟨fun _ _ _ first second =>
    ⟨second.heap.trans first.heap, second.root.trans first.root, second.head.trans first.head,
      fun node mem => first.index node (second.index node mem),
      fun head isHead mem =>
        second.headStays head (first.head ▸ isHead) (first.headStays head isHead mem)⟩⟩

variable {heap : Heap} {candidates : List Nat} {db : Database} {headId : StateNodeId}
  {whitelist queue : List StateNodeId} {fuel : Nat}

/-- A lookup that returns ends at its first candidate or goes on behind it. -/
theorem findAmong_cons {id : StateNodeId} {candidate : Nat} {rest : List Nat} {found : Option Nat}
    (looked : findAmong heap id (candidate :: rest) = .ok found) :
    (heap.id candidate = .ok id ∧ found = some candidate) ∨
      (heap.id candidate ≠ .ok id ∧ findAmong heap id rest = .ok found) := by
  obtain ⟨ownId, own, looked⟩ := bind_eq_ok.mp looked
  split at looked
  · rename_i same
    exact .inl ⟨by rw [own, same], (Except.ok.inj looked).symm⟩
  · rename_i different
    exact .inr ⟨fun named => different (Except.ok.inj (own.symm.trans named)), looked⟩

/-- A delta found by its id has that id. -/
theorem id_of_findAmong {id : StateNodeId} {delta : Nat}
    (found : findAmong heap id candidates = .ok (some delta)) :
    heap.id delta = .ok id ∧ delta ∈ candidates := by
  induction candidates with
  | nil => cases found
  | cons candidate rest ih =>
    rcases findAmong_cons found with ⟨named, first⟩ | ⟨-, later⟩
    · obtain rfl := Option.some.inj first
      exact ⟨named, List.mem_cons_self⟩
    · obtain ⟨named, mem⟩ := ih later
      exact ⟨named, List.mem_cons_of_mem _ mem⟩

/-- A completed queue begins with what was pending first, which is not the head, and goes on with
what was pending behind it and below it. -/
theorem removeQueue_cons {id : StateNodeId} {rest : List StateNodeId}
    (completed : db.removeQueue headId whitelist (fuel + 1) (id :: rest) = .ok queue) :
    id ≠ headId ∧ ∃ ids behind, childIds db.heap id whitelist db.index = .ok ids ∧
      db.removeQueue headId whitelist fuel (rest ++ ids) = .ok behind ∧
      queue = id :: behind := by
  rw [removeQueue] at completed
  split at completed
  · cases completed
  · rename_i notHead
    obtain ⟨ids, below, completed⟩ := bind_eq_ok.mp completed
    obtain ⟨behind, later, whole⟩ := bind_eq_ok.mp completed
    exact ⟨notHead, ids, behind, below, later, (Except.ok.inj whole).symm⟩

/-- A queue that was completed does not have the head's id. -/
theorem headId_notMem_removeQueue {pending : List StateNodeId}
    (completed : db.removeQueue headId whitelist fuel pending = .ok queue) :
    headId ∉ queue := by
  induction fuel generalizing pending queue with
  | zero =>
    cases pending with
    | nil =>
      cases completed
      exact List.not_mem_nil
    | cons id rest => cases completed
  | succ fuel ih =>
    cases pending with
    | nil =>
      cases completed
      exact List.not_mem_nil
    | cons id rest =>
      obtain ⟨notHead, ids, behind, -, later, rfl⟩ := removeQueue_cons completed
      rw [List.mem_cons, not_or]
      exact ⟨Ne.symm notHead, ih later⟩

/-- Erasing nodes with other ids keeps the head. -/
theorem eraseQueuedReading_shrinks {stale : Stale} (queue : List StateNodeId)
    (others : headId ∉ queue) (before : Database)
    (named : ∀ head ∈ before.head, before.heap.id head = .ok headId) :
    Shrinks before (eraseQueuedReading stale queue before).2 := by
  induction queue generalizing before with
  | nil => exact Std.Refl.refl _
  | cons id rest ih =>
    obtain ⟨different, restOthers⟩ := (not_or.mp fun mem => others (List.mem_cons.mpr mem))
    refine related_bind (Std.Refl.refl _) fun _ before read => ?_
    obtain ⟨rfl, rfl⟩ := returns_read.mp read
    refine related_bind (keeps_ofExcept _ _) fun found before looked => ?_
    obtain ⟨lookup, rfl⟩ := returns_ofExcept.mp looked
    cases found with
    | none => exact ih restOthers before named
    | some delta =>
      have away : ∀ head ∈ before.head, head ≠ delta := by
        rintro head isHead rfl
        have own := (id_of_findAmong lookup).1
        rw [named head isHead] at own
        exact different (Except.ok.inj own)
      have erased : Shrinks before { before with index := before.index.erase delta } :=
        ⟨rfl, rfl, rfl, fun _ mem => List.mem_of_mem_erase mem,
          fun head isHead mem =>
            (List.mem_erase_of_ne (away head isHead)).mpr mem⟩
      refine related_bind erased fun _ mid modified => ?_
      obtain rfl := returns_modify.mp modified
      refine IsTrans.trans _ _ _ erased ?_
      refine related_bind (keeps_expect _ _ _) fun shown mid shows => ?_
      obtain ⟨-, rfl⟩ := returns_expect.mp shows
      refine related_bind ?_ fun _ mid forgot => ?_
      · exact ⟨rfl, rfl, rfl, fun _ mem => mem, fun _ _ mem => mem⟩
      obtain rfl := returns_modify.mp forgot
      refine IsTrans.trans _ _ _ ?_ (ih restOthers _ named)
      exact ⟨rfl, rfl, rfl, fun _ mem => mem, fun _ _ mem => mem⟩

/-- However the erased iterators read, `remove` only shrinks. -/
theorem removeReading_shrinks (stale : Stale) (delta : Nat) (whitelist : List StateNodeId) :
    (removeReading stale delta whitelist).Keeps Shrinks := by
  refine keeps_bind requireOpen_keeps fun _ before => ?_
  refine related_bind (Std.Refl.refl _) fun _ before read => ?_
  obtain ⟨rfl, rfl⟩ := returns_read.mp read
  refine related_bind (keeps_expect _ _ _) fun root before rootRead => ?_
  obtain ⟨-, rfl⟩ := returns_expect.mp rootRead
  refine related_bind (keeps_expect _ _ _) fun head before headRead => ?_
  obtain ⟨isHead, rfl⟩ := returns_expect.mp headRead
  refine related_bind (keeps_ofExcept _ _) fun id before idRead => ?_
  obtain ⟨-, rfl⟩ := returns_ofExcept.mp idRead
  refine related_bind (keeps_ofExcept _ _) fun rootId before rootIdRead => ?_
  obtain ⟨-, rfl⟩ := returns_ofExcept.mp rootIdRead
  split
  · exact keeps_fail _ _
  refine related_bind (keeps_ofExcept _ _) fun headId before headIdRead => ?_
  obtain ⟨headNamed, rfl⟩ := returns_ofExcept.mp headIdRead
  refine related_bind (keeps_ofExcept _ _) fun queue before queued => ?_
  obtain ⟨completed, rfl⟩ := returns_ofExcept.mp queued
  have named : ∀ other ∈ before.head, before.heap.id other = .ok headId := by
    intro other isOther
    rw [isHead] at isOther
    rw [← Option.some.inj isOther, headNamed]
  have erases : Shrinks before (eraseQueuedReading stale queue before).2 :=
    eraseQueuedReading_shrinks queue (headId_notMem_removeQueue completed) before named
  refine related_bind erases fun _ mid erased => ?_
  rw [erased] at erases
  refine IsTrans.trans _ _ _ erases ?_
  cases before.heap.parent? delta with
  | none => exact keeps_pure _ mid
  | some parent => exact ⟨rfl, rfl, rfl, fun _ mem => mem, fun _ _ mem => mem⟩

/-- Looking an id up among deltas with backends returns. -/
theorem findAmong_returns (backed : heap.Backed) (id : StateNodeId)
    (inside : ∀ node ∈ candidates, node < heap.size) :
    ∃ found, findAmong heap id candidates = .ok found := by
  induction candidates with
  | nil => exact ⟨none, rfl⟩
  | cons candidate rest ih =>
    obtain ⟨-, own, -, -, stored⟩ :=
      Heap.backend_of_backed backed (inside candidate List.mem_cons_self)
    have named := Heap.id_of_backend stored
    simp only [findAmong, named, bind, Except.bind]
    split
    · exact ⟨_, rfl⟩
    · exact ih fun node mem => inside node (List.mem_cons_of_mem _ mem)

/-- An id that is not found is the id of no candidate. -/
theorem fresh_of_findAmong {id : StateNodeId} (missing : findAmong heap id candidates = .ok none) :
    ∀ node ∈ candidates, heap.id node ≠ .ok id := by
  induction candidates with
  | nil => exact fun _ mem => absurd mem List.not_mem_nil
  | cons candidate rest ih =>
    rcases findAmong_cons missing with ⟨-, ⟨⟩⟩ | ⟨different, later⟩
    exact List.forall_mem_cons.mpr ⟨different, ih later⟩

/-- Adding a delta extends the index, or its id is taken, and then adding throws and changes
nothing. -/
theorem add_outcome {delta : Nat} {id : StateNodeId} (backed : db.heap.Backed)
    (inside : ∀ node ∈ db.index, node < db.heap.size) (named : db.heap.id delta = .ok id) :
    ((∀ node ∈ db.index, db.heap.id node ≠ .ok id) ∧
      (add delta).Returns db () { db with index := db.index ++ [delta] }) ∨
    ((∃ node ∈ db.index, db.heap.id node = .ok id) ∧
      add delta db = (.error (.exception "could not add state delta"), db)) := by
  obtain ⟨found, lookup⟩ := findAmong_returns backed id inside
  cases found with
  | none =>
    left
    exact ⟨fresh_of_findAmong lookup, returns_bind.mpr
      ⟨true, _, insert_returns named lookup, returns_pure.mpr ⟨rfl, rfl⟩⟩⟩
  | some taken =>
    right
    have refused : (insert delta).Returns db false db := insert_returns named lookup
    obtain ⟨takenNamed, mem⟩ := id_of_findAmong lookup
    refine ⟨⟨taken, mem, takenNamed⟩, ?_⟩
    unfold add
    rw [refused.bind_eq]
    rfl

/-- One call on a node of the index. -/
inductive ForkCall where
  | makeChild (node : Nat) (childId : StateNodeId)
  | clone (node : Nat) (newId : StateNodeId)
  | finalize (node : Nat)
  | discard (node : Nat) (stale : Stale)

namespace ForkCall

/-- The node a call is made on. -/
def node : ForkCall → Nat
  | .makeChild node _ => node
  | .clone node _ => node
  | .finalize node => node
  | .discard node _ => node

/-- The routine a call runs. -/
def perform : ForkCall → Effect Fault Database Unit
  | .makeChild node childId => do let _ ← PermanentNode.makeChild node childId
  | .clone node newId => do let _ ← PermanentNode.clone node newId
  | .finalize node => PermanentNode.finalize node
  | .discard node stale => removeReading stale node []

/-- The node a call passes to `finalize`, if any. -/
def finalized : ForkCall → List Nat
  | .finalize node => [node]
  | _ => []

/-- How adding a created delta ends: it is indexed, or its id was taken, and then the call
throws and leaves the delta out of the index. -/
inductive Added (db : Database) (parent : Option Nat) (delta : Delta) (id : StateNodeId) :
    Except Fault Unit × Database → Prop where
  | indexed : (∀ node ∈ db.index, db.heap.id node ≠ .ok id) →
      Added db parent delta id (.ok (), { db with
        heap := db.heap.push parent delta
        index := db.index ++ [db.heap.size] })
  | taken : (∃ node ∈ db.index, db.heap.id node = .ok id) →
      Added db parent delta id (.error (.exception "could not add state delta"),
        { db with heap := db.heap.push parent delta })

variable {db : Database} {parent : Option Nat}

/-- The index after adding a delta has that delta more at most. -/
theorem Added.mid {delta : Delta} {id : StateNodeId} {outcome : Except Fault Unit × Database}
    (added : Added db parent delta id outcome) :
    ∃ index, (index = db.index ∨ index = db.index ++ [db.heap.size]) ∧
      outcome.2 = { db with heap := db.heap.push parent delta, index := index } := by
  cases added with
  | indexed fresh => exact ⟨_, .inr rfl, rfl⟩
  | taken isTaken => exact ⟨_, .inl rfl, rfl⟩

/-- A routine that creates a delta, and then adds it to the index. -/
theorem adding_outcome {routine : Effect Fault Heap Nat} {delta : Delta} {own : Backend}
    (backed : db.heap.Backed) (inside : ∀ node ∈ db.index, node < db.heap.size)
    (held : delta.backend = some own)
    (created : routine.Returns db.heap db.heap.size (db.heap.push parent delta)) :
    Added db parent delta own.id ((do
      let _ ← (do
        let added ← onHeap routine
        add added
        pure added : Effect Fault Database Nat) : Effect Fault Database Unit) db) := by
  let grown : Database := { db with heap := db.heap.push parent delta }
  have gave : (onHeap routine).Returns db db.heap.size grown := returns_within.mpr ⟨_, created, rfl⟩
  have grownInside : ∀ node ∈ grown.index, node < grown.heap.size := by
    intro node mem
    have old := inside node mem
    simp only [grown, size_push]
    omega
  have named : grown.heap.id db.heap.size = .ok own.id :=
    Heap.id_of_backend (Heap.backend_eq_ok_iff.mpr ⟨delta, by simp [grown], held⟩)
  have ids : ∀ node ∈ db.index, grown.heap.id node = db.heap.id node := by
    intro node mem
    rw [Heap.id, Heap.id, Heap.backend_push_of_lt (inside node mem)]
  have isHeld : delta.backend.isSome := by rw [held]; rfl
  rcases add_outcome (Heap.backed_push backed isHeld) grownInside named with
    ⟨fresh, added⟩ | ⟨⟨node, mem, isTaken⟩, refused⟩
  · have completes : ((do
        let added ← onHeap routine
        add added
        pure added : Effect Fault Database Nat)).Returns db db.heap.size
        { grown with index := grown.index ++ [db.heap.size] } :=
      returns_bind.mpr ⟨_, _, gave, returns_bind.mpr ⟨(), _, added, returns_pure.mpr ⟨rfl, rfl⟩⟩⟩
    rw [completes.bind_eq]
    exact .indexed fun node mem => ids node mem ▸ fresh node mem
  · have throws : ((do
        let added ← onHeap routine
        add added
        pure added : Effect Fault Database Nat)) db =
        (.error (.exception "could not add state delta"), grown) := by
      rw [gave.bind_eq]
      exact bind_eq_of_error refused _
    rw [bind_eq_of_error throws]
    exact .taken ⟨node, mem, (ids node mem).symm.trans isTaken⟩

/-- What `make_child` on an indexed node adds. -/
theorem makeChild_added {node : Nat} (backed : db.heap.Backed)
    (inside : ∀ node ∈ db.index, node < db.heap.size) (mem : node ∈ db.index)
    (childId : StateNodeId) :
    ∃ own, db.heap.backend node = .ok own ∧
      Added db (some node) (Heap.childOf own childId)
        (if childId = nullId then own.id else childId)
        ((ForkCall.makeChild node childId).perform db) := by
  obtain ⟨-, own, -, -, stored⟩ := Heap.backend_of_backed backed (inside node mem)
  have created : (Heap.makeChild node childId).Returns db.heap _ _ :=
    Heap.returns_makeChild.mpr ⟨own, stored, rfl, rfl⟩
  exact ⟨own, stored, adding_outcome backed inside rfl created⟩

/-- What `clone` of an indexed node adds. -/
theorem clone_added {node : Nat} (backed : db.heap.Backed)
    (inside : ∀ node ∈ db.index, node < db.heap.size) (mem : node ∈ db.index)
    (newId : StateNodeId) :
    ∃ delta own, db.heap.node? node = some delta ∧ delta.backend = some own ∧
      Added db (db.heap.parent? node)
        { delta with backend := some (Heap.copyBackend own newId delta.merkleRoot) }
        (if newId = nullId then own.id else newId)
        ((ForkCall.clone node newId).perform db) := by
  obtain ⟨delta, own, found, stored, -⟩ := Heap.backend_of_backed backed (inside node mem)
  have created : (Heap.clone node newId).Returns db.heap _ _ :=
    Heap.returns_clone.mpr ⟨delta, own, found, stored, rfl, rfl⟩
  exact ⟨delta, own, found, stored, adding_outcome backed inside rfl created⟩

/-- A `make_child` changes heap and index alone. -/
theorem makeChild_outcome {node : Nat} (backed : db.heap.Backed)
    (inside : ∀ node ∈ db.index, node < db.heap.size) (mem : node ∈ db.index)
    (childId : StateNodeId) :
    ∃ own index, (index = db.index ∨ index = db.index ++ [db.heap.size]) ∧
      ((ForkCall.makeChild node childId).perform db).2 = { db with
        heap := db.heap.push (some node) (Heap.childOf own childId), index := index } := by
  obtain ⟨own, -, added⟩ := makeChild_added backed inside mem childId
  exact ⟨own, added.mid⟩

/-- A `clone` changes heap and index alone. -/
theorem clone_outcome {node : Nat} (backed : db.heap.Backed)
    (inside : ∀ node ∈ db.index, node < db.heap.size) (mem : node ∈ db.index)
    (newId : StateNodeId) :
    ∃ delta own index, db.heap.node? node = some delta ∧ delta.backend = some own ∧
      (index = db.index ∨ index = db.index ++ [db.heap.size]) ∧
      ((ForkCall.clone node newId).perform db).2 = { db with
        heap := db.heap.push (db.heap.parent? node)
          { delta with backend := some (Heap.copyBackend own newId delta.merkleRoot) }
        index := index } := by
  obtain ⟨delta, own, found, stored, added⟩ := clone_added backed inside mem newId
  obtain ⟨index, grows, mid⟩ := added.mid
  exact ⟨delta, own, index, found, stored, grows, mid⟩

/-- Finalizing a node of an open index returns: the node is final, and the longer of head and
node is the head. -/
theorem finalize_outcome {node root head : Nat} {revision headRevision : UInt64}
    (inside : node < db.heap.size) (isRoot : db.root = some root) (isHead : db.head = some head)
    (revised : db.heap.revision node = .ok revision)
    (headRevised : db.heap.revision head = .ok headRevision) :
    (ForkCall.finalize node).perform.Returns db () { db with
      heap := db.heap.update node fun delta => { delta with final := true }
      head := some (if headRevision < revision then node else head)
      forkHeads := Insert.insert (if headRevision < revision then node else head)
        (match db.heap.parent? node with
          | some parent => db.forkHeads.erase parent
          | none => db.forkHeads) } := by
  obtain ⟨delta, found⟩ := Option.isSome_iff_exists.mp (node?_isSome_iff.mpr inside)
  let finalized : Database :=
    { db with heap := db.heap.update node fun delta => { delta with final := true } }
  have marks : (onHeap (Heap.finalize node)).Returns db () finalized :=
    returns_within.mpr ⟨_, Heap.returns_finalize.mpr ⟨delta, found, rfl⟩, rfl⟩
  refine returns_bind.mpr ⟨(), finalized, marks, ?_⟩
  simp only [Database.finalize, returns_requireOpen, returns_bind, returns_read,
    returns_expect, returns_ofExcept, returns_modify]
  refine ⟨(), finalized, ⟨?_, rfl⟩, finalized, finalized, ⟨rfl, rfl⟩, head, finalized,
    ⟨isHead, rfl⟩, revision, finalized, ⟨?_, rfl⟩, headRevision, finalized, ⟨?_, rfl⟩, ?_⟩
  · simp [isOpen, finalized, isRoot, isHead]
  · rw [Heap.revision_finalized, revised]
  · rw [Heap.revision_finalized, headRevised]
  · cases above : db.heap.parent? node with
    | none => simp [finalized, fifoComparator, parent?_update, above]
    | some parent => simp [finalized, fifoComparator, parent?_update, above]

end ForkCall

/-- The databases reached from opening one by calls on indexed nodes, whether or not a call
threw, with the nodes finalized on the way, in order. Opening finalizes the root. -/
inductive ForkRun : List Nat → Database → Prop where
  | opened {writes : List (Bytes × Bytes)} {db : Database} {root : Nat} :
      (openIndex (writeAll writes)).Returns empty () db → db.root = some root →
        ForkRun [root] db
  | called {history : List Nat} {db : Database} (call : ForkCall) :
      ForkRun history db → call.node ∈ db.index →
        (∀ node newId, call = .clone node newId → db.root ≠ some node) →
        ForkRun (history ++ call.finalized) (call.perform db).2

/-- The head of a database in which the given nodes were finalized, in that order: it is an
indexed final node, no indexed final node and no finalized node has a higher revision, and no
node was finalized before it with the same revision. -/
structure Chosen (history : List Nat) (db : Database) (head : Nat) (headRevision : UInt64) :
    Prop where
  isHead : db.head = some head
  indexed : head ∈ db.index
  final : db.heap.final head = true
  revised : db.heap.revision head = .ok headRevision
  highest : ∀ node ∈ db.index, db.heap.final node = true →
    ∀ revision, db.heap.revision node = .ok revision → revision ≤ headRevision
  highestFinalized : ∀ node ∈ history,
    ∀ revision, db.heap.revision node = .ok revision → revision ≤ headRevision
  first : ∃ earlier later, history = earlier ++ head :: later ∧
    ∀ node ∈ earlier, db.heap.revision node ≠ .ok headRevision

/-- An open index over deltas that exist. -/
structure Indexed (history : List Nat) (db : Database) : Prop where
  backed : db.heap.Backed
  inside : ∀ node ∈ db.index, node < db.heap.size
  known : ∀ node ∈ history, node < db.heap.size
  root : ∃ root, db.root = some root

section Grown

/-! The index after a delta was created, which is added unless its id is taken. -/

variable {db : Database} {index : List Nat} {node : Nat}
  (grows : index = db.index ∨ index = db.index ++ [db.heap.size])

include grows

theorem mem_grown (isOld : node ∈ db.index) : node ∈ index := by
  rcases grows with rfl | rfl
  · exact isOld
  · exact List.mem_append_left _ isOld

theorem mem_of_grown (isIndexed : node ∈ index) :
    node ∈ db.index ∨ node = db.heap.size := by
  rcases grows with rfl | rfl
  · exact .inl isIndexed
  · simpa using isIndexed

end Grown

namespace Indexed

variable {history : List Nat} {db : Database} {head : Nat} {headRevision : UInt64}

/-- A new delta, indexed or not, leaves the choice of the head as it is, unless it is final
and longer. -/
theorem push (indexed : Indexed history db)
    (chosen : Chosen history db head headRevision) (parent : Option Nat) (delta : Delta)
    {own : Backend} (held : delta.backend = some own)
    (notLonger : delta.final = true → own.revision ≤ headRevision) {index : List Nat}
    (grows : index = db.index ∨ index = db.index ++ [db.heap.size]) :
    Indexed history { db with heap := db.heap.push parent delta, index := index } ∧
      Chosen history { db with heap := db.heap.push parent delta, index := index }
        head headRevision := by
  have members : ∀ node ∈ index, node ∈ db.index ∨ node = db.heap.size :=
    fun node => mem_of_grown grows
  have kept : ∀ node ∈ db.index, node ∈ index := fun node => mem_grown grows
  have headInside := indexed.inside head chosen.indexed
  refine ⟨⟨Heap.backed_push indexed.backed (by simp [held]), ?_, ?_, indexed.root⟩,
    ⟨chosen.isHead, kept head chosen.indexed, ?_, ?_, ?_, ?_, ?_⟩⟩
  · intro node mem
    rw [size_push]
    rcases members node mem with old | rfl
    · have inside := indexed.inside node old
      omega
    · omega
  · intro node mem
    have inside := indexed.known node mem
    rw [size_push]
    omega
  · rw [Heap.final_push_of_lt headInside, chosen.final]
  · rw [Heap.revision_push_of_lt headInside, chosen.revised]
  · intro node mem isFinal revision revised
    rcases members node mem with old | rfl
    · have inside := indexed.inside node old
      rw [Heap.final_push_of_lt inside] at isFinal
      rw [Heap.revision_push_of_lt inside] at revised
      exact chosen.highest node old isFinal revision revised
    · have found := node?_push_self db.heap parent delta
      rw [Heap.final_eq found] at isFinal
      have stored := Heap.backend_eq_ok_iff.mpr ⟨delta, found, held⟩
      rw [Heap.revision, stored] at revised
      obtain rfl := Except.ok.inj revised
      exact notLonger isFinal
  · intro node mem revision revised
    rw [Heap.revision_push_of_lt (indexed.known node mem)] at revised
    exact chosen.highestFinalized node mem revision revised
  · obtain ⟨earlier, later, split, before⟩ := chosen.first
    refine ⟨earlier, later, split, fun node mem => ?_⟩
    have known := indexed.known node (by rw [split]; exact List.mem_append_left _ mem)
    rw [Heap.revision_push_of_lt known]
    exact before node mem

/-- A bound on the head and on a node that is finalized bounds all finalized nodes. -/
theorem highest_finalized (chosen : Chosen history db head headRevision) {node : Nat}
    (inside : node < db.heap.size) {revision bound : UInt64}
    (revised : db.heap.revision node = .ok revision) (headBelow : headRevision ≤ bound)
    (below : revision ≤ bound) :
    let finalized := db.heap.update node fun delta => { delta with final := true }
    (∀ other ∈ db.index, Heap.final finalized other = true → ∀ otherRevision,
        Heap.revision finalized other = .ok otherRevision → otherRevision ≤ bound) ∧
      ∀ other ∈ history ++ [node], ∀ otherRevision,
        Heap.revision finalized other = .ok otherRevision → otherRevision ≤ bound := by
  have ownBelow : ∀ otherRevision, db.heap.revision node = .ok otherRevision →
      otherRevision ≤ bound := by
    intro otherRevision otherRevised
    rw [revised] at otherRevised
    exact Except.ok.inj otherRevised ▸ below
  refine ⟨fun other mem isFinal otherRevision otherRevised => ?_,
    fun other mem otherRevision otherRevised => ?_⟩
  · rw [Heap.revision_finalized] at otherRevised
    rcases (Heap.final_finalized inside other).mp isFinal with rfl | old
    · exact ownBelow otherRevision otherRevised
    · exact UInt64.le_trans (chosen.highest other mem old otherRevision otherRevised) headBelow
  · rw [Heap.revision_finalized] at otherRevised
    rcases List.mem_append.mp mem with old | new
    · exact UInt64.le_trans (chosen.highestFinalized other old otherRevision otherRevised) headBelow
    · exact ownBelow otherRevision (List.mem_singleton.mp new ▸ otherRevised)

/-- Finalizing a node makes it the head exactly when it is longer. -/
theorem finalize (indexed : Indexed history db)
    (chosen : Chosen history db head headRevision) {node : Nat}
    (mem : node ∈ db.index) :
    Indexed (history ++ [node]) ((ForkCall.finalize node).perform db).2 ∧
      ∃ newHead newRevision, Chosen (history ++ [node])
        ((ForkCall.finalize node).perform db).2 newHead newRevision := by
  have inside := indexed.inside node mem
  obtain ⟨root, isRoot⟩ := indexed.root
  obtain ⟨revision, revised⟩ := Heap.revision_of_backed indexed.backed inside
  rw [ForkCall.finalize_outcome inside isRoot chosen.isHead revised chosen.revised]
  have indexedAfter (head : Nat) (forkHeads : Finset Nat) : Indexed (history ++ [node])
      { db with
        heap := db.heap.update node fun delta => { delta with final := true }
        head := some head
        forkHeads := forkHeads } := by
    refine ⟨Heap.backed_update indexed.backed fun _ held => held, ?_, ?_, indexed.root⟩
    · intro other otherMember
      rw [size_update]
      exact indexed.inside other otherMember
    · intro other otherMember
      rw [size_update]
      rcases List.mem_append.mp otherMember with old | new
      · exact indexed.known other old
      · rwa [List.mem_singleton.mp new]
  refine ⟨indexedAfter _ _, ?_⟩
  by_cases longer : headRevision < revision
  · -- The node is longer than every node finalized so far, so it is the first of its length.
    obtain ⟨highest, highestFinalized⟩ := highest_finalized chosen inside revised
      (UInt64.le_of_lt longer) (UInt64.le_refl revision)
    refine ⟨node, revision, by simp [longer], mem, ?_, ?_, highest, highestFinalized, history, [],
      rfl, ?_⟩
    · exact (Heap.final_finalized inside node).mpr (.inl rfl)
    · rw [Heap.revision_finalized, revised]
    · intro other otherMember same
      rw [Heap.revision_finalized] at same
      exact absurd (chosen.highestFinalized other otherMember revision same)
        (UInt64.not_le.mpr longer)
  · obtain ⟨highest, highestFinalized⟩ := highest_finalized chosen inside revised
      (UInt64.le_refl headRevision) (UInt64.not_lt.mp longer)
    obtain ⟨earlier, later, split, before⟩ := chosen.first
    refine ⟨head, headRevision, by simp [longer], chosen.indexed, ?_, ?_, highest, highestFinalized,
      earlier, later ++ [node], by simp [split], ?_⟩
    · exact (Heap.final_finalized inside head).mpr (.inr chosen.final)
    · rw [Heap.revision_finalized, chosen.revised]
    · intro other otherMember
      rw [Heap.revision_finalized]
      exact before other otherMember

/-- Shrinking the index without the head leaves the choice as it is. -/
theorem shrink (indexed : Indexed history db)
    (chosen : Chosen history db head headRevision) {after : Database}
    (shrinks : Shrinks db after) :
    Indexed history after ∧ Chosen history after head headRevision := by
  refine ⟨⟨?_, ?_, ?_, ?_⟩, ⟨?_, ?_, ?_, ?_, ?_, ?_, ?_⟩⟩
  · rw [shrinks.heap]
    exact indexed.backed
  · intro node mem
    rw [shrinks.heap]
    exact indexed.inside node (shrinks.index node mem)
  · rw [shrinks.heap]
    exact indexed.known
  · rw [shrinks.root]
    exact indexed.root
  · rw [shrinks.head, chosen.isHead]
  · exact shrinks.headStays head chosen.isHead chosen.indexed
  · rw [shrinks.heap, chosen.final]
  · rw [shrinks.heap, chosen.revised]
  · intro node mem
    rw [shrinks.heap]
    exact chosen.highest node (shrinks.index node mem)
  · rw [shrinks.heap]
    exact chosen.highestFinalized
  · rw [shrinks.heap]
    exact chosen.first

/-- Every call keeps a head chosen. -/
theorem call (indexed : Indexed history db)
    (chosen : Chosen history db head headRevision) (call : ForkCall)
    (mem : call.node ∈ db.index) :
    Indexed (history ++ call.finalized) (call.perform db).2 ∧
      ∃ newHead newRevision,
        Chosen (history ++ call.finalized) (call.perform db).2 newHead newRevision := by
  cases call with
  | makeChild node childId =>
    have isIndexed : node ∈ db.index := mem
    obtain ⟨own, index, grows, mid⟩ :=
      ForkCall.makeChild_outcome indexed.backed indexed.inside isIndexed childId
    have finalizes : (ForkCall.makeChild node childId).finalized = [] := rfl
    have kept := indexed.push chosen (some node) (Heap.childOf own childId) rfl
      (fun isFinal => nomatch isFinal) grows
    rw [mid, finalizes, List.append_nil]
    exact ⟨kept.1, _, _, kept.2⟩
  | clone node newId =>
    have isIndexed : node ∈ db.index := mem
    obtain ⟨delta, own, index, found, stored, grows, mid⟩ :=
      ForkCall.clone_outcome indexed.backed indexed.inside isIndexed newId
    have finalizes : (ForkCall.clone node newId).finalized = [] := rfl
    rw [mid, finalizes, List.append_nil]
    -- A copy has the revision of the original, which is not longer than the head if final.
    have notLonger : delta.final = true → own.revision ≤ headRevision := by
      intro isFinal
      exact chosen.highest node mem (by rw [Heap.final_eq found, isFinal]) own.revision
        (Heap.revision_of_backend (Heap.backend_eq_ok_iff.mpr ⟨delta, found, stored⟩))
    have kept := indexed.push chosen (db.heap.parent? node)
      { delta with backend := some (Heap.copyBackend own newId delta.merkleRoot) } rfl notLonger
      grows
    exact ⟨kept.1, _, _, kept.2⟩
  | finalize node => exact indexed.finalize chosen mem
  | discard node stale =>
    have shrunk := indexed.shrink chosen (removeReading_shrinks stale node [] db)
    have finalizes : (ForkCall.discard node stale).finalized = [] := rfl
    rw [finalizes, List.append_nil]
    exact ⟨shrunk.1, _, _, shrunk.2⟩

end Indexed

/-- Opening an empty database makes its one delta root, head, fork head and index. -/
theorem openIndex_opens {init : Nat → Effect Fault Heap Unit}
    (extends_ : (init 0).Keeps Heap.Extends) (gave : (openIndex init).Returns empty () db) :
    db.root = some 0 ∧ db.head = some 0 ∧ db.index = [0] ∧
      db.forkHeads = {0} ∧ db.heap.final 0 = true := by
  have rooted := openIndex_rooted extends_ gave
  simp only [openIndex, onHeap, returns_bind, returns_read, returns_within, returns_modify] at gave
  obtain ⟨_, _, ⟨rfl, rfl⟩, _, _, ⟨created, rfl, rfl⟩, _, _, ⟨initial, -, rfl⟩, _, _,
    ⟨finalized, finalReturned, rfl⟩, inserted, indexed, inserts, rfl⟩ := gave
  obtain ⟨sameHeap, -, -, sameForkHeads, extended⟩ := heap_of_insert inserts
  -- Nothing is indexed yet, so the id of the root cannot be taken.
  have isInserted : inserted = true := by
    simp only [insert, returns_bind, returns_read, returns_ofExcept] at inserts
    obtain ⟨_, _, ⟨rfl, rfl⟩, id, _, ⟨-, rfl⟩, found, _, ⟨lookup, rfl⟩, rest⟩ := inserts
    obtain rfl : none = found := Except.ok.inj lookup
    simp only [returns_bind, returns_modify, returns_pure] at rest
    obtain ⟨-, -, -, isTrue, -⟩ := rest
    exact isTrue
  refine ⟨rfl, rfl, ?_, ?_, ?_⟩
  · rw [extended, isInserted]
    rfl
  · change Insert.insert 0 indexed.forkHeads = {0}
    rw [sameForkHeads]
    rfl
  · obtain ⟨node, found, rfl⟩ := Heap.returns_finalize.mp finalReturned
    have inside := lt_size_of_node? found
    rw [sameHeap]
    exact (Heap.final_finalized inside 0).mpr (.inl rfl)

/-- Every run keeps a head chosen. -/
theorem ForkRun.chosen {history : List Nat} (run : ForkRun history db) :
    Indexed history db ∧
      ∃ head headRevision, Chosen history db head headRevision := by
  induction run with
  | @opened _ opened _ gave isRoot =>
    obtain ⟨rootZero, headZero, onlyRoot, -, rootFinal⟩ :=
      openIndex_opens (writeAll_extends _ 0) gave
    obtain ⟨backed, ⟨root, rootIs, inside, -⟩, -⟩ := openIndex_rooted (writeAll_extends _ 0) gave
    obtain rfl := Option.some.inj (isRoot.symm.trans rootZero)
    obtain rfl := Option.some.inj (rootIs.symm.trans rootZero)
    obtain ⟨revision, revised⟩ := Heap.revision_of_backed backed inside
    have notHigher : ∀ other ∈ [0], ∀ otherRevision,
        opened.heap.revision other = .ok otherRevision → otherRevision ≤ revision := by
      intro other mem otherRevision otherRevised
      rw [List.mem_singleton.mp mem, revised] at otherRevised
      exact UInt64.le_of_eq (Except.ok.inj otherRevised).symm
    refine ⟨⟨backed, ?_, ?_, ⟨0, rootZero⟩⟩, 0, revision, headZero, ?_, rootFinal, revised, ?_,
      notHigher, [], [], rfl, ?_⟩
    · simpa [onlyRoot] using inside
    · simpa using inside
    · simp [onlyRoot]
    · intro other mem _
      exact notHigher other (onlyRoot ▸ mem)
    · simp
  | called call _ mem _ ih =>
    obtain ⟨indexed, head, headRevision, chosen⟩ := ih
    exact indexed.call chosen call mem

/-- In every run of `make_child`, `clone` of other nodes than the root, `finalize` and
`discard` on indexed nodes, the head is an indexed final node of the highest revision among
those, and of the finalized nodes of that revision it is the first. -/
theorem head_selected {history : List Nat} {db : Database} (run : ForkRun history db) :
    ∃ head headRevision, db.head = some head ∧ head ∈ db.index ∧
      db.heap.final head = true ∧ db.heap.revision head = .ok headRevision ∧
      (∀ node ∈ db.index, db.heap.final node = true →
        ∀ revision, db.heap.revision node = .ok revision → revision ≤ headRevision) ∧
      ∃ earlier later, history = earlier ++ head :: later ∧
        ∀ node ∈ earlier, db.heap.revision node ≠ .ok headRevision := by
  obtain ⟨-, head, headRevision, chosen⟩ := run.chosen
  exact ⟨head, headRevision, chosen.isHead, chosen.indexed, chosen.final, chosen.revised,
    chosen.highest, chosen.first⟩

/-- Two children of genesis, the second finalized before the first. -/
def siblings : Database :=
  ((ForkCall.finalize 1).perform ((ForkCall.finalize 2).perform
      ((ForkCall.makeChild 0 (SizedBytes.fit 32 [2])).perform
        ((ForkCall.makeChild 0 (SizedBytes.fit 32 [1])).perform
          (openIndex (writeAll []) empty).2).2).2).2).2

theorem forkRun_siblings : ForkRun [0, 2, 1] siblings := by
  have gave : (openIndex (writeAll [])).Returns empty () (openIndex (writeAll []) empty).2 := rfl
  have opened := ForkRun.opened gave rfl
  have first := opened.called (.makeChild 0 (SizedBytes.fit 32 [1])) (by decide) nofun
  have second := first.called (.makeChild 0 (SizedBytes.fit 32 [2])) (by decide) nofun
  exact (second.called (.finalize 2) (by decide) nofun).called (.finalize 1) (by decide) nofun

/-- Of two children of genesis the one finalized first is the head. -/
theorem head_selected_among_siblings :
    siblings.head = some 2 ∧ ∃ head, siblings.head = some head ∧ head ∈ siblings.index := by
  obtain ⟨head, -, isHead, indexed, -⟩ := head_selected forkRun_siblings
  exact ⟨rfl, head, isHead, indexed⟩

end Database

end Respublica.StateDb
