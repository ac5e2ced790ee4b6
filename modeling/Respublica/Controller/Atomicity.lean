import Respublica.Controller.History

/-!
# Is processing a block atomic?

A block that fails a check after its node was created leaves the node in the index. The node
is not final, so nothing can be built on it, but the block's id is taken: the block is
answered with `ok` from then on, as if it had been applied. Processing is atomic exactly for
the blocks that are refused before their node is created.
-/

namespace Respublica.Controller

open Foundation Effect Crypto Program Protocol StateDb Database

variable {env : Env} {block : Block} {now : Int} {db after : Database}

/-- A block that is refused on its node is refused with a failure. -/
theorem evaluateBlock_fails {parent node : Nat} {error : ErrorCode}
    (gave : (evaluateBlock env block parent node now).Returns db (.error error)
      after) : error.failed = true := by
  have checkTimeFails (lower upper : UInt64) {code : ErrorCode}
      (refused : checkTime block lower upper = .error code) : code.failed = true := by
    rw [checkTime] at refused
    split at refused
    · obtain rfl := Except.error.inj refused
      rfl
    · cases refused
  obtain ⟨checked, _, checks, rest⟩ := returns_bind.mp gave
  cases checked with
  | ok value =>
    obtain ⟨applied, _, applies, ended⟩ := returns_bind.mp rest
    cases applied with
    | ok receipt =>
      obtain ⟨_, _, -, accepted⟩ := returns_bind.mp ended
      cases (returns_pure.mp accepted).1
    | error code =>
      obtain ⟨same, -⟩ := returns_pure.mp ended
      obtain rfl := Except.error.inj same
      obtain ⟨context, appliesThere, -⟩ := returns_within.mp applies
      exact applyBlock_fails block _ _ _ appliesThere
  | error code =>
    obtain ⟨same, -⟩ := returns_pure.mp rest
    obtain rfl := Except.error.inj same
    unfold checkBlock at checks
    split at checks
    · split at checks
      · obtain ⟨same, -⟩ := returns_pure.mp checks
        obtain rfl := Except.error.inj same
        rfl
      · exact checkTimeFails _ _ (returns_pure.mp checks).1.symm
    · obtain ⟨_, _, -, compared⟩ := returns_bind.mp checks
      split at compared
      · obtain ⟨same, -⟩ := returns_pure.mp compared
        obtain rfl := Except.error.inj same
        rfl
      · obtain ⟨_, _, -, measured⟩ := returns_bind.mp compared
        split at measured
        · obtain ⟨same, -⟩ := returns_pure.mp measured
          obtain rfl := Except.error.inj same
          rfl
        · exact checkTimeFails _ _ (returns_pure.mp measured).1.symm

variable {entries : List GenesisEntry} {history : List (Nat × Block)} {root : Nat}

/-- A block that is answered with `ok` before it is evaluated has a node in the index. -/
theorem Tracked.known_of_ok (tracked : Tracked history db root)
    (gave : (findParent block).Returns db (.error (.controller .ok)) after) :
    ∃ node ∈ db.index, db.heap.id node = .ok block.id := by
  simp only [findParent, returns_bind, returns_get, returns_read] at gave
  obtain ⟨blockNode, _, ⟨-, blockLooked, rfl⟩, parentNode, _, ⟨-, -, rfl⟩, _, db, ⟨rfl, rfl⟩,
    rest⟩ := gave
  cases blockNode with
  | some node =>
    obtain ⟨named, indexed⟩ := id_of_findAmong blockLooked
    exact ⟨node, indexed, named⟩
  | none =>
    cases parentNode with
    | some parent =>
      simp only [Option.isSome_none, Bool.false_eq_true, if_false, returns_ite,
        returns_pure, reduceCtorEq, Except.error.injEq, ErrorCode.controller.injEq,
        false_and, ite_self] at rest
    | none =>
      -- Only the root is answered with `ok` here, and the root is indexed.
      simp only [Option.isSome_none, Bool.false_eq_true, if_false, returns_bind,
        returns_expect, returns_ofExcept, returns_ite,
        returns_pure] at rest
      obtain ⟨base, _, ⟨isBase, rfl⟩, revision, _, ⟨-, rfl⟩, rest⟩ := rest
      split at rest
      · cases rest.1
      · obtain ⟨baseId, _, ⟨baseNamed, rfl⟩, rest⟩ := rest
        split at rest
        · cases rest.1
        · rename_i same
          obtain rfl := Option.some.inj (isBase.symm.trans tracked.rooted.isRoot)
          exact ⟨base, tracked.genesis.1, by rw [baseNamed, not_not.mp same]⟩

/-- A valid block with a node in the index is answered with `ok`, and nothing changes. -/
theorem Tracked.answers_ok (tracked : Tracked history db root)
    (valid : block.validate env.crypto = true)
    (known : ∃ node ∈ db.index, db.heap.id node = .ok block.id) (now : Int) :
    (processBlock env block now).Returns db (.error (.controller .ok)) db := by
  obtain ⟨node, indexed, named⟩ := known
  obtain ⟨found, looked⟩ := findAmong_returns tracked.rooted.backed block.id tracked.inside
  obtain ⟨parent, parentLooked⟩ :=
    findAmong_returns tracked.rooted.backed block.previous tracked.inside
  have isFound := findAmong_isSome indexed named looked
  have finds : (findParent block).Returns db (.error (.controller .ok)) db := by
    simp only [findParent, returns_bind, returns_get, returns_read]
    refine ⟨found, db, ⟨tracked.rooted.isOpen, looked, rfl⟩, parent, db,
      ⟨tracked.rooted.isOpen, parentLooked, rfl⟩, db, db, ⟨rfl, rfl⟩, ?_⟩
    rw [if_pos isFound]
    exact returns_pure.mpr ⟨rfl, rfl⟩
  unfold processBlock
  rw [if_neg (by simp [valid])]
  exact returns_bind.mpr ⟨_, _, finds, returns_pure.mpr ⟨rfl, rfl⟩⟩

/-- What can be seen of a database: the ids in its index, root, head and fork heads, and what
its nodes show. -/
structure Unchanged (before after : Database) : Prop where
  ids : ∀ id, (∃ node ∈ after.index, after.heap.id node = .ok id) ↔
    ∃ node ∈ before.index, before.heap.id node = .ok id
  root : after.root = before.root
  head : after.head = before.head
  forkHeads : after.forkHeads = before.forkHeads
  views : ∀ node ∈ before.index, after.heap.view node = before.heap.view node

/-- The block is malformed, it is known, or it names no final node: it is refused before a node
is created for it. -/
def RefusedEarly (env : Env) (block : Block) (db : Database) : Prop :=
  block.validate env.crypto = false ∨ ∀ parent, ¬ Extends block db parent

/-- In every state of a controller, a block that is answered with an error other than `ok`
leaves the database unchanged exactly when it is refused early. Otherwise it is answered with
`ok` from then on. An answer `ok` is about an indexed node, and that node belongs to an
accepted block or is the root exactly when it is final. -/
theorem processBlock_atomic_iff
    (run : ProcessRun env entries history db) {error : ErrorCode}
    (gave : (processBlock env block now).Returns db (.error error) after) :
    (error ≠ .controller .ok → (Unchanged db after ↔ RefusedEarly env block db) ∧
      (RefusedEarly env block db → after = db) ∧
      (¬ RefusedEarly env block db → ∀ later,
        (processBlock env block later).Returns after (.error (.controller .ok)) after)) ∧
    (error = .controller .ok → ∃ node ∈ db.index, db.heap.id node = .ok block.id ∧
      (db.heap.final node = true ↔
        db.root = some node ∨ ∃ accepted, (node, accepted) ∈ history)) := by
  have tracked := run.tracked
  have afterTracked := tracked.refuse gave
  rcases processBlock_outcome gave with ⟨rfl, _, same, refused⟩ |
    ⟨parent, own, valid, -, extends_, backs, evaluated⟩
  · obtain rfl := Except.error.inj same
    have early : RefusedEarly env block after := by
      rcases refused with ⟨malformed, -⟩ | ⟨noParent, -⟩
      · exact .inl malformed
      · exact .inr noParent
    have unchanged : Unchanged after after := ⟨fun _ => Iff.rfl, rfl, rfl, rfl, fun _ _ => rfl⟩
    refine ⟨fun _ => ⟨iff_of_true unchanged early, fun _ => rfl, fun late => absurd early late⟩, ?_⟩
    rintro rfl
    rcases refused with ⟨-, isMalformed⟩ | ⟨-, found⟩
    · cases isMalformed
    · obtain ⟨node, indexed, named⟩ := tracked.known_of_ok found
      refine ⟨node, indexed, named, fun isFinal => ?_, ?_⟩
      · rcases tracked.accepted node indexed isFinal with top | accepted
        · have isRoot := (tracked.rooted.top node (tracked.inside node indexed)).mp top
          exact .inl (isRoot ▸ tracked.rooted.isRoot)
        · exact .inr accepted
      · rintro (isRoot | ⟨accepted, isAccepted⟩)
        · obtain rfl := Option.some.inj (isRoot.symm.trans tracked.rooted.isRoot)
          exact tracked.genesis.2.2
        · exact (tracked.placed node accepted isAccepted).final
  · have notEarly : ¬ RefusedEarly env block db := by
      rintro (malformed | noParent)
      · rw [valid] at malformed
        cases malformed
      · exact noParent parent extends_
    have failed := evaluateBlock_fails evaluated
    -- The child stays in the index under the id of the block.
    have settled := evaluateBlock_refused evaluated
    obtain ⟨childIndexed, childNamed, -⟩ := tracked.child_outcome extends_ backs
    have childInside := (tracked.withChild backs block.id).inside _ childIndexed
    have known : ∃ node ∈ after.index, after.heap.id node = .ok block.id :=
      ⟨db.heap.size, settled.index ▸ childIndexed, (settled.heap.id childInside).trans childNamed⟩
    have changed : ¬ Unchanged db after := by
      intro unchanged
      obtain ⟨node, indexed, named⟩ := (unchanged.ids block.id).mp known
      cases findAmong_isSome indexed named extends_.unknown
    refine ⟨fun _ => ⟨iff_of_false changed notEarly, fun early => absurd early notEarly,
      fun _ later => afterTracked.answers_ok valid known later⟩, ?_⟩
    rintro rfl
    cases failed

/-- A first block that is five seconds too early. -/
def earlyBlock : Block := sampleBlock nullId 1 10000 (SizedBytes.zero 32) []

/-- The theorem applies to a block that comes too early. -/
theorem processBlock_atomic_iff_for_earlyBlock :
    ∃ after, (processBlock .plain earlyBlock 0).Returns sampleGenesis
        (.error (.controller .timestampOutOfBounds)) after ∧
      (Unchanged sampleGenesis after ↔ RefusedEarly .plain earlyBlock sampleGenesis) := by
  have refused : (processBlock .plain earlyBlock 0).Returns sampleGenesis
      (.error (.controller .timestampOutOfBounds))
        (processBlock .plain earlyBlock 0 sampleGenesis).2 :=
    returns_of_fst (by decide +kernel)
  exact ⟨_, refused, ((processBlock_atomic_iff run_sampleGenesis refused).1 (by decide)).1⟩

/-- The block is refused because its time has not come. When it comes, the block is answered
with `ok` and not applied, while a controller that has not seen it accepts it then. -/
theorem early_block_is_never_applied :
    let refused := (processBlock .plain earlyBlock 0 sampleGenesis).2
    (processBlock .plain earlyBlock 0 sampleGenesis).1.map (Except.map BlockReceipt.height) =
        .ok (.error (.controller .timestampOutOfBounds)) ∧
      sampleGenesis.index = [0] ∧ refused.index = [0, 1] ∧ refused.heap.final 1 = false ∧
      (processBlock .plain earlyBlock 6000000000 refused).1.map (Except.map BlockReceipt.height) =
        .ok (.error (.controller .ok)) ∧
      (processBlock .plain earlyBlock 6000000000 sampleGenesis).1.map
        (Except.map BlockReceipt.height) = .ok (.ok 1) := by
  decide +kernel

end Respublica.Controller
