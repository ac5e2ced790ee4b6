import Respublica.StateDb.Confined
import Respublica.StateDb.Forks

/-!
# Resetting a database

`reset` is meant to bring back what `open` gave. It empties the old root and opens a new one
into the same index. The old root still holds the null id there, so the new root is not
inserted: the index keeps every old node and not the new root, and the new root joins the old
fork heads. This is so in every database that can be reset.
-/

namespace Respublica.StateDb

open Foundation Effect Heap Forest

namespace Heap

/-- Any change of one delta that keeps its id and revision. -/
abbrev Rewritten (node : Nat) : Heap → Heap → Prop := Confined (fun _ => True) node

/-- Clearing rewrites its node only. -/
theorem clear_rewritten (node : Nat) : (clear node).Keeps (Rewritten node) := by
  refine keeps_bind (keeps_bind keeps_read fun _ => keeps_expect _ _)
    fun delta => ?_
  refine keeps_bind (keeps_expect _ _) fun _ => keeps_modify fun heap => ?_
  refine confined_update heap fun delta => ⟨rfl, rfl, ?_, ?_, ?_⟩
  · cases held : delta.backend <;> simp [emptied, changeBackend, held]
  · exact fun _ outside => absurd trivial outside
  · exact fun _ outside => absurd trivial outside

/-- In a backed heap clearing returns. -/
theorem clear_of_backed {heap : Heap} {node : Nat} (backed : heap.Backed)
    (inside : node < heap.size) :
    (clear node).Returns heap () (heap.update node emptied) := by
  obtain ⟨delta, own, found, held, -⟩ := backend_of_backed backed inside
  simp only [clear, returns_delta, returns_bind, returns_expect, returns_modify]
  exact ⟨delta, heap, ⟨found, rfl⟩, own, heap, ⟨held, rfl⟩, rfl⟩

end Heap

namespace Database

/-- What initial writes into an empty state show. -/
def written (writes : List (Bytes × Bytes)) (shown : Bytes → Option Bytes) : Bytes → Option Bytes :=
  writes.foldl (fun shown write => Function.update shown write.1 (some write.2)) shown

variable {heap : Heap} {candidates : List Nat} {db : Database}

/-- The initial writes return, and show in the root what they write. -/
theorem writeAll_outcome (writes : List (Bytes × Bytes)) {root : Nat} (backed : heap.Backed)
    (inside : root < heap.size) (notFinal : heap.final root = false) :
    ∃ after, (writeAll writes root).Returns heap () after ∧ Heap.Rewritten root heap after ∧
      after.view root = written writes (heap.view root) := by
  induction writes generalizing heap with
  | nil => exact ⟨heap, returns_pure.mpr ⟨rfl, rfl⟩, Std.Refl.refl _, rfl⟩
  | cons write rest ih =>
    obtain ⟨size, gave⟩ := put_of_backed backed inside notFinal write.1 write.2
    have rewritten : Heap.Rewritten root heap _ := (put_confined write.2 trivial).of_returns gave
    obtain ⟨after, restReturned, restRewritten, shows⟩ := ih (rewritten.backed backed)
      (by rwa [rewritten.size]) (by rw [rewritten.final, notFinal])
    refine ⟨after, returns_bind.mpr ⟨size, _, gave, restReturned⟩,
      IsTrans.trans _ _ _ rewritten restRewritten, ?_⟩
    rw [shows, view_of_put gave]
    rfl

/-- What a database shows that was opened with some initial writes: no node but the root, which
shows what was written and is head and fork head. -/
structure Reopened (writes : List (Bytes × Bytes)) (db : Database) (root : Nat) : Prop where
  isRoot : db.root = some root
  isHead : db.head = some root
  onlyForkHead : db.forkHeads = {root}
  found : db.find nullId = .ok (some root)
  others : ∀ id, id ≠ nullId → db.find id = .ok none
  view : ∀ key, db.heap.get root key = .ok (written writes (fun _ => none) key)

/-- A lookup sees only the ids. -/
theorem findAmong_congr {other : Heap} {id : StateNodeId}
    (same : ∀ node ∈ candidates, other.id node = heap.id node) :
    findAmong other id candidates = findAmong heap id candidates := by
  induction candidates with
  | nil => rfl
  | cons candidate rest ih =>
    rw [findAmong, findAmong, same candidate List.mem_cons_self,
      ih fun node mem => same node (List.mem_cons_of_mem _ mem)]

/-- A new root, before anything is written. -/
theorem createRoot_blank (backed : heap.Backed) :
    Heap.Backed heap.createRoot ∧ id heap.createRoot heap.size = .ok nullId ∧
      revision heap.createRoot heap.size = .ok 0 ∧
      final heap.createRoot heap.size = false ∧
      view heap.createRoot heap.size = fun _ => none := by
  have found : Forest.node? heap.createRoot heap.size =
      some ⟨some (Backend.create nullId 0), ∅, none, false⟩ := node?_push_self heap none _
  have stored := backend_eq_ok_iff.mpr ⟨_, found, rfl⟩
  refine ⟨backed_push backed rfl, id_of_backend stored, revision_of_backend stored,
    final_eq found, ?_⟩
  funext key
  rw [view_eq found]
  simp [Backend.create, Backend.get, below, createRoot, parent?_push]

/-- A heap with a new root behind its deltas, which shows some writes and is final. -/
structure RootAdded (writes : List (Bytes × Bytes)) (before after : Heap) : Prop where
  ids : ∀ node < before.size, after.id node = before.id node
  named : after.id before.size = .ok nullId
  revised : after.revision before.size = .ok 0
  size : after.size = before.size + 1
  final : after.final before.size = true
  shows : ∀ key, after.get before.size key = .ok (written writes (fun _ => none) key)

/-- Creating a root, writing to it and finalizing it adds it so. -/
theorem createRoot_outcome (writes : List (Bytes × Bytes)) (backed : heap.Backed) :
    ∃ initial finalized,
      (runInit (writeAll writes) heap.size).Returns heap.createRoot () initial ∧
      (Heap.finalize heap.size).Returns initial () finalized ∧ RootAdded writes heap finalized := by
  obtain ⟨createdBacked, createdId, createdRevision, createdNotFinal, createdView⟩ :=
    createRoot_blank backed
  have grown : heap.size < Forest.size heap.createRoot := by simp [createRoot]
  obtain ⟨initial, wrote, rewritten, shows⟩ :=
    writeAll_outcome writes createdBacked grown createdNotFinal
  have inside : heap.size < initial.size := by rwa [rewritten.size]
  obtain ⟨delta, found⟩ := Option.isSome_iff_exists.mp (node?_isSome_iff.mpr inside)
  let finalized : Heap := initial.update heap.size fun delta => { delta with final := true }
  have inits : (runInit (writeAll writes) heap.size).Returns heap.createRoot () initial := by
    simp only [runInit, returns_bind, returns_read, returns_ofExcept]
    exact ⟨_, _, ⟨rfl, rfl⟩, 0, _, ⟨createdRevision, rfl⟩, wrote⟩
  have sameId : ∀ node, finalized.id node = id heap.createRoot node := by
    intro node
    rw [Heap.id, backend_finalized, ← Heap.id, rewritten.id]
  refine ⟨initial, finalized, inits, returns_finalize.mpr ⟨delta, found, rfl⟩, fun node old => ?_,
    (sameId _).trans createdId, ?_, ?_, (final_finalized inside _).mpr (.inl rfl), fun key => ?_⟩
  · rw [sameId, Heap.id, createRoot, backend_push_of_lt old, ← Heap.id]
  · rw [revision_finalized, rewritten.revision, createdRevision]
  · rw [size_update, rewritten.size, createRoot, size_push]
  · have finalizedBacked : finalized.Backed :=
      backed_update (rewritten.backed createdBacked) fun _ held => held
    have sameView : finalized.view heap.size = initial.view heap.size := by
      rw [view, abstraction_finalized, ← view]
    rw [get_of_backed finalizedBacked (by rwa [size_update]), sameView, shows,
      createdView]

/-- What opening an index gives, whatever it holds already: a new delta is root, head and
fork head and shows the initial writes; it is indexed unless the null id is taken. -/
theorem openIndex_outcome (writes : List (Bytes × Bytes)) (backed : db.heap.Backed)
    (inside : ∀ node ∈ db.index, node < db.heap.size) {taken : Option Nat}
    (looked : db.find nullId = .ok taken) :
    ∃ after, (openIndex (writeAll writes)).Returns db () after ∧
      after.root = some db.heap.size ∧ after.head = some db.heap.size ∧
      after.forkHeads = Insert.insert db.heap.size db.forkHeads ∧
      after.index = (if taken.isSome then db.index
        else db.index ++ [db.heap.size]) ∧
      RootAdded writes db.heap after.heap := by
  obtain ⟨initial, finalized, inits, finalizes, added⟩ := createRoot_outcome writes backed
  have lookup : findAmong finalized nullId db.index = .ok taken := by
    rw [← looked]
    exact findAmong_congr fun node mem => added.ids node (inside node mem)
  let opened : Database := { db with heap := finalized }
  have inserts : (insert db.heap.size).Returns opened taken.isNone
      { opened with index := if taken.isSome then db.index
        else db.index ++ [db.heap.size] } :=
    insert_returns added.named lookup
  refine ⟨{ opened with
    index := if taken.isSome then db.index else db.index ++ [db.heap.size]
    forkHeads := Insert.insert db.heap.size db.forkHeads
    root := some db.heap.size
    head := some db.heap.size }, ?_, rfl, rfl, rfl, rfl, added⟩
  simp only [openIndex, onHeap, returns_bind, returns_read, returns_within, returns_modify]
  exact ⟨_, _, ⟨rfl, rfl⟩, (), _, ⟨_, rfl, rfl⟩, (), _, ⟨initial, inits, rfl⟩, (), _,
    ⟨finalized, finalizes, rfl⟩, _, _, inserts, rfl⟩

/-- Opening with an init that returned is opening with any other that returns the same. -/
theorem openIndex_congr {init other : Nat → Effect Fault Heap Unit} {before after : Database}
    (same : ∀ heap mid, (init before.heap.size).Returns heap () mid →
      (other before.heap.size).Returns heap () mid)
    (gave : (openIndex init).Returns before () after) :
    (openIndex other).Returns before () after := by
  have sameInit : ∀ heap mid, (runInit init before.heap.size).Returns heap () mid →
      (runInit other before.heap.size).Returns heap () mid := by
    intro heap mid ran
    simp only [runInit, returns_bind, returns_read, returns_ofExcept] at ran ⊢
    obtain ⟨_, _, ⟨rfl, rfl⟩, revision, heap, ⟨revised, rfl⟩, inits⟩ := ran
    refine ⟨heap, heap, ⟨rfl, rfl⟩, revision, heap, ⟨revised, rfl⟩, ?_⟩
    split at inits <;> rename_i isZero
    · rw [if_pos isZero]
      exact same _ _ inits
    · rwa [if_neg isZero]
  obtain ⟨_, _, read, created⟩ := returns_bind.mp gave
  obtain ⟨rfl, rfl⟩ := returns_read.mp read
  obtain ⟨_, opened, creates, inits⟩ := returns_bind.mp created
  obtain ⟨_, initial, init, rest⟩ := returns_bind.mp inits
  obtain ⟨heap, ran, rfl⟩ := returns_within.mp init
  exact returns_bind.mpr ⟨_, _, read, returns_bind.mpr ⟨_, opened, creates,
    returns_bind.mpr ⟨_, _, returns_within.mpr ⟨heap, sameInit _ _ ran, rfl⟩, rest⟩⟩⟩

/-- The root of a database that was opened has revision zero. -/
theorem openIndex_revision {writes : List (Bytes × Bytes)}
    (gave : (openIndex (writeAll writes)).Returns empty () db) :
    db.heap.revision 0 = .ok 0 := by
  obtain ⟨opened, opens, -, -, -, -, added⟩ :=
    openIndex_outcome writes backed_empty (fun node mem => absurd mem List.not_mem_nil)
      (show empty.find nullId = .ok none from rfl)
  obtain ⟨-, rfl⟩ := gave.unique opens
  exact added.revised

/-- Opening an empty database gives what it should. -/
theorem openIndex_reopened (writes : List (Bytes × Bytes)) :
    ∃ db, (openIndex (writeAll writes)).Returns empty () db ∧
      Reopened writes db 0 ∧ db.heap.size = 1 := by
  obtain ⟨db, gave, isRoot, isHead, forkHeads, index, added⟩ :=
    openIndex_outcome writes backed_empty (fun node mem => absurd mem List.not_mem_nil)
      (show empty.find nullId = .ok none from rfl)
  have looked : ∀ id, db.find id = .ok (if nullId = id then some 0 else none) := by
    intro id
    have onlyRoot : db.index = [0] := index
    have rootNamed : db.heap.id 0 = .ok nullId := added.named
    rw [Database.find, onlyRoot, findAmong, rootNamed]
    simp only [bind, Except.bind]
    split <;> rfl
  refine ⟨db, gave, ⟨isRoot, isHead, forkHeads, ?_, ?_, added.shows⟩, added.size⟩
  · rw [looked, if_pos rfl]
  · intro id different
    rw [looked, if_neg (Ne.symm different)]

/-- What makes a reset go wrong: the root is indexed under the null id, and some fork head
exists already. -/
structure Occupied (db : Database) : Prop where
  backed : db.heap.Backed
  inside : ∀ node ∈ db.index, node < db.heap.size
  root : ∃ root, db.root = some root ∧ root ∈ db.index ∧
    db.heap.id root = .ok nullId
  head : ∃ head, db.head = some head ∧ head < db.heap.size
  forkHeads : ∃ node ∈ db.forkHeads, node < db.heap.size

namespace Occupied

variable {db : Database}

variable {node : Nat}

/-- Writing into a node leaves the index occupied. -/
theorem rewritten (occupied : db.Occupied) {heap : Heap}
    (rewritten : Heap.Rewritten node db.heap heap) :
    Occupied { db with heap := heap } := by
  obtain ⟨root, isRoot, indexed, named⟩ := occupied.root
  refine ⟨rewritten.backed occupied.backed, ?_, ⟨root, isRoot, indexed, ?_⟩, ?_, ?_⟩
  · exact fun other mem => rewritten.size ▸ occupied.inside other mem
  · exact (rewritten.id root).trans named
  · exact rewritten.size ▸ occupied.head
  · exact rewritten.size ▸ occupied.forkHeads

/-- So does a new child. -/
theorem makeChild (occupied : db.Occupied) (mem : node ∈ db.index) (childId : StateNodeId) :
    ((NodeCall.makeChild node childId).perform db).2.Occupied := by
  obtain ⟨own, index, grows, mid⟩ :=
    ForkCall.makeChild_outcome occupied.backed occupied.inside mem childId
  obtain ⟨root, isRoot, indexed, named⟩ := occupied.root
  obtain ⟨head, isHead, headInside⟩ := occupied.head
  obtain ⟨forkHead, isForkHead, forkHeadInside⟩ := occupied.forkHeads
  change ((ForkCall.makeChild node childId).perform db).2.Occupied
  rw [mid]
  refine ⟨backed_push occupied.backed rfl, ?_, ⟨root, isRoot, ?_, ?_⟩, ⟨head, isHead, ?_⟩,
    forkHead, isForkHead, ?_⟩
  · intro other isIndexed
    rw [size_push]
    rcases mem_of_grown grows isIndexed with old | rfl
    · exact Nat.lt_succ_of_lt (occupied.inside other old)
    · exact Nat.lt_succ_self _
  · exact mem_grown grows indexed
  · rw [Heap.id, backend_push_of_lt (occupied.inside root indexed), ← Heap.id, named]
  · rw [size_push]
    exact Nat.lt_succ_of_lt headInside
  · rw [size_push]
    exact Nat.lt_succ_of_lt forkHeadInside

/-- So does finalizing a node. -/
theorem finalize (occupied : db.Occupied) (mem : node ∈ db.index) :
    ((NodeCall.finalize node).perform db).2.Occupied := by
  have inside := occupied.inside node mem
  obtain ⟨root, isRoot, indexed, named⟩ := occupied.root
  obtain ⟨head, isHead, headInside⟩ := occupied.head
  obtain ⟨revision, revised⟩ := revision_of_backed occupied.backed inside
  obtain ⟨headRevision, headRevised⟩ := revision_of_backed occupied.backed headInside
  have newHeadInside : (if headRevision < revision then node else head) < db.heap.size := by
    split
    · exact inside
    · exact headInside
  change ((ForkCall.finalize node).perform db).2.Occupied
  rw [ForkCall.finalize_outcome inside isRoot isHead revised headRevised]
  refine ⟨backed_update occupied.backed fun _ held => held, ?_, ⟨root, isRoot, indexed, ?_⟩,
    ⟨_, rfl, ?_⟩, _, Finset.mem_insert_self _ _, ?_⟩
  · intro other isIndexed
    rw [size_update]
    exact occupied.inside other isIndexed
  · rw [Heap.id, backend_finalized, ← Heap.id, named]
  · rwa [size_update]
  · rwa [size_update]

/-- A routine that only rewrites one delta leaves the index occupied. -/
theorem onHeap_occupied {Value : Type} {routine : Effect Fault Heap Value}
    (rewrites : routine.Keeps (Heap.Rewritten node)) :
    (onHeap routine).Keeps (Preserving Occupied) :=
  keeps_within rewrites fun _ _ rewritten occupied => occupied.rewritten rewritten

/-- Calls on nodes leave a database occupied. -/
theorem call (occupied : db.Occupied) (call : NodeCall)
    (mem : call.node ∈ db.index) : (call.perform db).2.Occupied := by
  cases call with
  | makeChild node childId => exact occupied.makeChild mem childId
  | finalize node => exact occupied.finalize mem
  | put node key value =>
    rw [NodeCall.perform, snd_bind_pure]
    exact onHeap_occupied (put_confined value trivial) db occupied
  | remove node key =>
    rw [NodeCall.perform, snd_bind_pure]
    exact onHeap_occupied (remove_confined trivial) db occupied

end Occupied

theorem Reachable.occupied (reachable : Reachable db) :
    db.Occupied := by
  induction reachable with
  | @opened writes db gave =>
    obtain ⟨opened, openedReturned, reopened, -⟩ := openIndex_reopened writes
    obtain ⟨-, rfl⟩ := gave.unique openedReturned
    obtain ⟨backed, ⟨root, isRoot, inside, -⟩, -⟩ :=
      openIndex_rooted (writeAll_extends writes 0) gave
    obtain rfl := Option.some.inj (isRoot.symm.trans reopened.isRoot)
    obtain ⟨-, -, onlyRoot, -⟩ := openIndex_opens (writeAll_extends writes 0) gave
    refine ⟨backed, ?_, ⟨0, isRoot, ?_, ?_⟩, ⟨0, reopened.isHead, inside⟩, 0, ?_, inside⟩
    · simpa [onlyRoot] using inside
    · simp [onlyRoot]
    · exact (id_of_findAmong reopened.found).1
    · simp [reopened.onlyForkHead]
  | called call _ mem ih => exact ih.call call mem

/-- A lookup that succeeds by an indexed delta finds one. -/
theorem findAmong_isSome {id : StateNodeId} {node : Nat} (mem : node ∈ candidates)
    (named : heap.id node = .ok id) {found : Option Nat}
    (looked : findAmong heap id candidates = .ok found) : found.isSome := by
  induction candidates with
  | nil => exact absurd mem List.not_mem_nil
  | cons candidate rest ih =>
    rcases findAmong_cons looked with ⟨-, rfl⟩ | ⟨different, later⟩
    · rfl
    · rcases List.mem_cons.mp mem with rfl | inRest
      · exact absurd named different
      · exact ih inRest later

/-- In every reachable database a reset returns, with a new root that is head and shows the
initial writes; but the index is the old one, which has the old root under the null id and
not the new root, and an old fork head stays. The database is never as if it were opened. -/
theorem reset_never_reopens {db : Database} (reachable : Reachable db)
    (writes : List (Bytes × Bytes)) :
    ∃ after newRoot oldRoot, (reset (writeAll writes)).Returns db () after ∧
      after.root = some newRoot ∧ after.head = some newRoot ∧
      (∀ key, after.heap.get newRoot key = .ok (written writes (fun _ => none) key)) ∧
      db.root = some oldRoot ∧ oldRoot ∈ after.index ∧ after.index = db.index ∧
      newRoot ∉ after.index ∧ (∃ node ∈ after.forkHeads, node ≠ newRoot) ∧
      ∀ root, ¬ Reopened writes after root := by
  have occupied := reachable.occupied
  obtain ⟨oldRoot, isRoot, indexed, -⟩ := occupied.root
  obtain ⟨head, isHead, -⟩ := occupied.head
  have rootInside := occupied.inside oldRoot indexed
  let cleared : Database := { db with heap := db.heap.update oldRoot emptied }
  have clears := clear_of_backed occupied.backed rootInside
  have clearedOccupied : cleared.Occupied :=
    occupied.rewritten ((clear_rewritten oldRoot).of_returns clears)
  -- The emptied root keeps the null id, so the index refuses the new root.
  obtain ⟨taken, looked⟩ := findAmong_returns clearedOccupied.backed nullId clearedOccupied.inside
  obtain ⟨root, isClearedRoot, clearedIndexed, clearedNamed⟩ := clearedOccupied.root
  have isTaken := findAmong_isSome clearedIndexed clearedNamed looked
  obtain ⟨after, opens, newRoot, newHead, forkHeads, index, added⟩ :=
    openIndex_outcome writes clearedOccupied.backed clearedOccupied.inside looked
  rw [if_pos isTaken] at index
  have notIndexed : cleared.heap.size ∉ after.index := by
    rw [index]
    exact fun mem => Nat.lt_irrefl _ (clearedOccupied.inside _ mem)
  obtain ⟨forkHead, isForkHead, forkHeadInside⟩ := clearedOccupied.forkHeads
  refine ⟨after, cleared.heap.size, oldRoot, ?_, newRoot, newHead, added.shows, isRoot, ?_, index,
    notIndexed, ⟨forkHead, ?_, Nat.ne_of_lt forkHeadInside⟩, ?_⟩
  · simp only [reset, returns_requireOpen, onHeap, returns_bind, returns_read,
      returns_expect, returns_within]
    exact ⟨(), db, ⟨by simp [isOpen, isRoot, isHead], rfl⟩, db, db, ⟨rfl, rfl⟩,
      oldRoot, db, ⟨isRoot, rfl⟩, (), cleared, ⟨_, clears, rfl⟩, opens⟩
  · rw [index]
    exact indexed
  · rw [forkHeads]
    exact Finset.mem_insert_of_mem isForkHead
  · intro root reopened
    obtain rfl := Option.some.inj (newRoot.symm.trans reopened.isRoot)
    exact notIndexed (id_of_findAmong reopened.found).2

/-- Genesis with one object. -/
def oneObject : Database := (openIndex (writeAll [([1], [2])]) empty).2

theorem reachable_oneObject : Reachable oneObject :=
  .opened (show (openIndex (writeAll [([1], [2])])).Returns empty () oneObject from rfl)

/-- The theorem applies to a database that was only opened. -/
theorem reset_never_reopens_genesis :
    ∃ after, (reset (writeAll [([1], [2])])).Returns oneObject () after ∧
      ∀ root, ¬ Reopened [([1], [2])] after root := by
  obtain ⟨after, -, -, gave, -, -, -, -, -, -, -, -, differs⟩ :=
    reset_never_reopens reachable_oneObject [([1], [2])]
  exact ⟨after, gave, differs⟩

/-- After a reset the null id still finds the old root, which no longer shows the initial
object, and both roots are fork heads. -/
theorem reset_shadows_new_root :
    let after := (reset (writeAll [([1], [2])]) oneObject).2
    Reachable oneObject ∧ (reset (writeAll [([1], [2])]) oneObject).1 = .ok () ∧
      after.root = some 1 ∧ after.find nullId = .ok (some 0) ∧ after.heap.get 0 [1] = .ok none ∧
      after.heap.get 1 [1] = .ok (some [2]) ∧ after.forkHeads = {0, 1} :=
  ⟨reachable_oneObject, rfl, rfl, rfl, by decide +kernel, by decide +kernel, by decide⟩

end Database

end Respublica.StateDb
