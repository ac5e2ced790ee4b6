import Mathlib.Data.List.Nodup
import Respublica.Controller.Genesis
import Respublica.Controller.Ownership
import Respublica.Controller.StateInvariant

/-!
# Who has a say in a chain

The metadata of a chain is written when it is opened and never again, so that the key which signs
the first block has signed every block on every fork.

A program on a node was there from the beginning, or it was uploaded by a transaction of a block on
the way to that node, whatever is uploaded on other forks.
-/

namespace Respublica.Controller

open Foundation Crypto Program Protocol StateDb Context Database

variable {env : Env} {entries : List GenesisEntry} {history : List (Nat × Block)}
  {db : Database} {block : Block} {below above : Bytes → Option Bytes}

/-- Keys that no transaction writes under. -/
structure Reserved (key : Bytes) : Prop where
  operation : ¬ OperationKey key
  nonce : ∀ account, key ≠ nonceKey account

/-- What stands under a key of metadata is never written by a transaction. -/
theorem reserved_metadata (key : Bytes) : Reserved (makeCompoundKey ObjectSpace.metadata key) := by
  refine ⟨?_, fun account => makeCompoundKey_ne (by decide) _ _⟩
  rintro (program | ⟨id, same⟩)
  · have heads : some (1 : UInt8) = some 0 := program
    exact absurd heads (by decide)
  · exact makeCompoundKey_ne (by decide) _ _ same

/-- An operation writes under the keys of operations. -/
theorem Context.applyOperation_frame (operation : Operation) :
    (applyOperation env operation).Keeps (Frame OperationKey) :=
  applyOperation_kept (requireAuthority_frame fun account _ => permits_operationKey account)
    (fun id value => putState_frame value (.inr ⟨id, rfl⟩))
    (runProgramAt_frame (fun account _ => permits_operationKey account) (permits_operationKey coin)
      fullRoom .strict) operation

/-- A block leaves such an object as it is. -/
theorem Derives.reserved (derives : Derives env block below above) {key : Bytes}
    (reserved : Reserved key) : above key = below key := by
  have kept {writes : Bytes → Prop} {before after : Context} (outside : ¬ writes key)
      (frame : Frame writes before after) : Kept (fun view => view key = below key) before after :=
    kept_of_frame (fun view other same holds => (same key outside).trans holds) frame
  have authorizes (tx : Transaction) :
      (authorizeTransaction env tx).Keeps
        (Kept fun view => view key = below key) := fun before =>
    kept (fun isModule => reserved.operation (.inl (objectKey_of_moduleKey isModule)))
      (authorizeTransaction_frame tx before)
  have charges (tx : Transaction) : (chargeTransaction tx).Keeps
      (Kept fun view => view key = below key) := fun before =>
    kept (reserved.nonce _) (chargeTransaction_frame tx before)
  refine derives.keeps authorizes charges (fun operation before code after gave => ?_) rfl
  exact kept reserved.operation ((applyOperation_frame operation).of_returns gave)

/-- The blocks of a run passed the checks that need no state. -/
theorem ProcessRun.valid (run : ProcessRun env entries history db) :
    ∀ node block, (node, block) ∈ history → block.validate env.crypto = true := by
  refine run.invariant (fun history _ => ∀ node block, (node, block) ∈ history →
    block.validate env.crypto = true) ?_ ?_ ?_
  · exact fun _ _ node block mem => absurd mem List.not_mem_nil
  · exact fun _ _ _ _ _ valid => valid
  · intro history before after block now receipt earlier gave valid node other mem
    rcases List.mem_append.mp mem with old | new
    · exact valid node other old
    · obtain ⟨rfl, rfl⟩ := Prod.mk.inj (List.mem_singleton.mp new)
      obtain ⟨parent, checked, context, acceptance⟩ := earlier.chained.tracked.acceptance gave
      exact acceptance.valid

/-- Opening a controller fails without a genesis key. -/
theorem ProcessRun.genesisKey (run : ProcessRun env entries history db) :
    ∃ key, written (genesisWrites entries) (fun _ => none)
      (makeCompoundKey ObjectSpace.metadata (genesisKey env)) = some key := by
  refine run.invariant (fun _ _ => ∃ key, written (genesisWrites entries) (fun _ => none)
    (makeCompoundKey ObjectSpace.metadata (Context.genesisKey env)) = some key) ?_ ?_ ?_
  · intro db gave
    obtain ⟨separate, known⟩ := openingVerdict_eq_ok_iff.mp (verdict_of_openController gave)
    obtain ⟨entry, mem, isKey⟩ := List.mem_map.mp known
    exact ⟨entry.value, (written_eq_some_iff separate).mpr (.inl ⟨entry, mem, isKey, rfl⟩)⟩
  · exact fun _ _ _ _ _ known => known
  · exact fun _ _ _ _ _ _ _ _ known => known

/-- Every node of a run shows the genesis key that the controller was opened with. -/
theorem ProcessRun.shows_genesisKey (run : ProcessRun env entries history db)
    {key : Bytes} (isKey : written (genesisWrites entries) (fun _ => none)
      (makeCompoundKey ObjectSpace.metadata (Context.genesisKey env)) = some key) :
    ∀ node, Standing history node → db.heap.view node
      (makeCompoundKey ObjectSpace.metadata (Context.genesisKey env)) = some key :=
  run.shows isKey fun _ _ _ derives holds => (derives.reserved (reserved_metadata _)).trans holds

/-- The root and the nodes of the accepted blocks show the genesis key that the controller was
opened with, and every accepted block, on whatever fork, names that key as its signer's and has
its valid signature. -/
theorem blocks_signed_by_genesis_key (run : ProcessRun env entries history db) :
    ∃ key, written (genesisWrites entries) (fun _ => none)
        (makeCompoundKey ObjectSpace.metadata (genesisKey env)) = some key ∧
      (∀ node, Standing history node → db.heap.view node
        (makeCompoundKey ObjectSpace.metadata (genesisKey env)) = some key) ∧
      ∀ node block, (node, block) ∈ history → block.signer.publicKey.1 = key ∧
        env.crypto.verify block.signer.publicKey block.signature
          (block.makeId env.crypto.hash) = true := by
  obtain ⟨key, isKey⟩ := run.genesisKey
  have shown := run.shows_genesisKey isKey
  refine ⟨key, isKey, shown, fun node block accepted => ?_⟩
  have valid := run.valid node block accepted
  obtain ⟨parent, standing, points, -⟩ := run.derives node block accepted
  obtain ⟨_, -, pointsAgain, -, -, signer, -⟩ := (run.chained.links node block accepted).parent
  obtain rfl := Option.some.inj (points.symm.trans pointsAgain)
  refine ⟨Option.some.inj (signer.symm.trans (shown _ standing)), ?_⟩
  simp only [Block.validate, Bool.and_eq_true, beq_iff_eq] at valid
  obtain ⟨⟨⟨⟨-, isId⟩, -⟩, verifies⟩, -⟩ := valid
  rwa [isId]

/-- After two blocks there is one signer, which is the one that was opened with. -/
theorem blocks_signed_by_genesis_key_after_second :
    (secondBlock 3000).signer.publicKey.1 = sampleSigner.publicKey.1 ∧
      (afterSecond 3000).heap.view 2 (makeCompoundKey ObjectSpace.metadata
        (genesisKey .plain)) = some sampleSigner.publicKey.1 := by
  obtain ⟨key, isKey, shown, signed⟩ :=
    blocks_signed_by_genesis_key (@run_afterSecond 3000 (by decide +kernel))
  have opened : written (genesisWrites sampleEntries) (fun _ => none)
      (makeCompoundKey ObjectSpace.metadata (genesisKey .plain)) =
        some sampleSigner.publicKey.1 := by decide +kernel
  obtain rfl := Option.some.inj (isKey.symm.trans opened)
  have mem : (2, secondBlock 3000) ∈ [(1, sampleFirst), (2, secondBlock 3000)] := by simp
  exact ⟨(signed 2 _ mem).1, shown 2 (.inr ⟨_, mem⟩)⟩

/-- The transactions up to an accepted block are those up to its predecessor, and its own. -/
theorem chainOf_of_accepted {node parent : Nat} (tracked : Tracked history db 0)
    (accepted : (node, block) ∈ history) (points : db.heap.parent? node = some parent) :
    chainOf history db.heap node =
      chainOf history db.heap parent ++ block.transactions := by
  have found : history.find? (fun entry => entry.1 = node) = some (node, block) := by
    obtain ⟨earlier, later, rfl⟩ := List.append_of_mem accepted
    have before := (List.pairwise_append.mp tracked.ordered).2.2
    have none : earlier.find? (fun entry => entry.1 = node) = none := by
      rw [List.find?_eq_none]
      intro entry mem
      simpa using Nat.ne_of_lt (before entry mem _ List.mem_cons_self)
    rw [List.find?_append, none, Option.none_or, List.find?_cons_of_pos (by simp)]
  rw [chainOf, Forest.lineage_eq, if_pos (Forest.lt_size_of_parent? points), points,
    List.reverse_cons, List.flatMap_append, List.flatMap_singleton, found]
  rfl

/-- No transaction is on the way to the root. -/
theorem chainOf_root (tracked : Tracked history db 0) : chainOf history db.heap 0 = [] := by
  have none : history.find? (fun entry => entry.1 = 0) = none := by
    rw [List.find?_eq_none]
    intro entry mem
    obtain ⟨parent, points, -⟩ := (tracked.placed entry.1 entry.2 mem).parent
    simpa using Nat.ne_of_gt (Nat.zero_lt_of_lt (Forest.parent?_lt points))
  rw [chainOf, Forest.lineage_eq, if_pos tracked.rooted.inside,
    (tracked.rooted.top 0 tracked.rooted.inside).mpr rfl, List.reverse_singleton,
    List.flatMap_singleton, none]
  rfl

/-- Every node of a run is reached from the root by applying the transactions on the way to it. -/
theorem ProcessRun.transactionRun (run : ProcessRun env entries history db) :
    ∀ node, Standing history node → ∃ steps context,
      steps.map Prod.fst = chainOf history db.heap node ∧
      context.view = db.heap.view node ∧
      TransactionRun env (create db.heap 0 .blockApplication) steps context := by
  intro node
  have tracked := run.chained.tracked
  induction node using Nat.strong_induction_on with
  | _ node ih =>
    rintro (rfl | ⟨block, accepted⟩)
    · exact ⟨[], _, (chainOf_root tracked).symm, rfl, .start tracked.rooted.backed⟩
    · obtain ⟨parent, standing, points, before, receipt, after, backed, inside, shows, applied,
        leaves⟩ := run.derives node block accepted
      obtain ⟨steps, context, listed, view, mid⟩ := ih parent (Forest.parent?_lt points) standing
      have moved : TransactionRun env (create db.heap 0 .blockApplication)
          steps before := .moved mid backed (shows.trans view.symm)
      obtain ⟨added, transactions, longer⟩ := moved.block applied
      refine ⟨steps ++ added, after, ?_, leaves, longer⟩
      rw [List.map_append, listed, transactions, chainOf_of_accepted tracked accepted points]

/-- A program on a node of a run is one of the initial objects, or it was uploaded on the chain of
that node. Applying the transactions of the chain one after the other from the root leads to what
the node shows, and one of them uploaded just this bytecode on the way, with the authority of the
program that was stored before, if there was one and its account has an odd prefix. -/
theorem stored_programs_uploaded_on_chain (run : ProcessRun env entries history db)
    {node : Nat} (standing : Standing history node) {id : Account} {object : Bytes}
    (stored : db.heap.view node (programKey id) = some object) :
    written (genesisWrites entries) (fun _ => none) (programKey id) = some object ∨
      ∃ steps context, TransactionRun env (create db.heap 0 .blockApplication) steps
        context ∧
        steps.map Prod.fst = chainOf history db.heap node ∧ context.view = db.heap.view node ∧
        ∃ step ∈ steps, ∃ bytecode mid next, object = programObject env bytecode ∧
          Context.Moment env step.1 step.2 (.uploadProgram id bytecode) mid next ∧
          (id.viewProgram = true → Entitled env step.1 id mid) := by
  obtain ⟨steps, context, listed, view, reaches⟩ := run.transactionRun node standing
  have start : (create db.heap 0 .blockApplication).view =
      written (genesisWrites entries) fun _ => none := run.root_shows
  by_cases changed : context.view (programKey id) =
      (create db.heap 0 .blockApplication).view (programKey id)
  · rw [view, start, stored] at changed
    exact .inl changed.symm
  · obtain ⟨step, mem, bytecode, mid, next, moment, shown⟩ := reaches.changed changed
    rw [view, stored] at shown
    exact .inr ⟨steps, context, reaches, listed, view, step, mem, bytecode, mid, next,
      Option.some.inj shown, moment, fun odd =>
        (entitled_iff moment.verified moment.uploaded).mpr (.inl odd)⟩

/-- The program account behind the signer of the samples. -/
def signerProgram : Account := SizedBytes.fit 33 [1, 7]

/-- A block in which the signer uploads a program. -/
def uploadingBlock : Block :=
  sampleBlock nullId 1 2000 (SizedBytes.zero 32)
    [sampleTransaction (networkId .plain) 1 [.uploadProgram signerProgram [7]]]

def afterUpload : Database := (processBlock .plain uploadingBlock 0 sampleGenesis).2

/-- The program that is stored after that block was not there before, so it was uploaded in it. -/
theorem stored_programs_uploaded_on_chain_after_upload :
    ∃ steps context, TransactionRun .plain (create afterUpload.heap 0 .blockApplication)
        steps context ∧ steps.map Prod.fst = uploadingBlock.transactions ∧
      ∃ step ∈ steps, ∃ bytecode mid next,
        programObject .plain [7] = programObject .plain bytecode ∧
        Context.Moment .plain step.1 step.2 (.uploadProgram signerProgram bytecode) mid next ∧
        Entitled .plain step.1 signerProgram mid := by
  have run : ProcessRun .plain sampleEntries [(1, uploadingBlock)] afterUpload :=
    run_sampleGenesis.extended uploadingBlock 0
      (show sampleGenesis.heap.size = 1 by decide +kernel)
      (show (processBlock .plain uploadingBlock 0 sampleGenesis).1.map
        (Except.map BlockReceipt.height) = .ok (.ok 1) by decide +kernel)
  have stored : afterUpload.heap.view 1 (programKey signerProgram) =
      some (programObject .plain [7]) := Heap.view_of_get (by decide +kernel)
  have chain : chainOf [(1, uploadingBlock)] afterUpload.heap 1 = uploadingBlock.transactions := by
    decide +kernel
  rcases stored_programs_uploaded_on_chain run
      (.inr ⟨uploadingBlock, List.mem_singleton.mpr rfl⟩) stored with initial |
    ⟨steps, context, reaches, listed, -, step, mem, bytecode, mid, next, same, moment, entitled⟩
  · exact absurd initial (by decide +kernel)
  · exact ⟨steps, context, reaches, listed.trans chain, step, mem, bytecode, mid, next, same,
      moment, entitled (by decide +kernel)⟩

end Respublica.Controller
