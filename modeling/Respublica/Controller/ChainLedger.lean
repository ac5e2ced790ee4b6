import Respublica.Controller.CoinSupply
import Respublica.Controller.StateInvariant

/-!
# The coin ledger of a chain

The objects of the coin program on a node stand for a ledger. From one accepted block to the next
the ledger takes transfers, mints and burns in exact arithmetic and nothing else happens to it,
whatever programs the transactions upload and call, and whichever of them are reverted. So the
balances on every node of every fork add up to the supply there.
-/

namespace Respublica.Controller

open Foundation Effect Crypto Program Protocol StateDb Context

variable {env : Env} {entries : List GenesisEntry} {history : List (Nat × Block)}
  {db : Database} {block : Block}

/-- The coin ledger does not depend on other objects. -/
theorem ledgerOf_congr {view other : Bytes → Option Bytes}
    (supply : other supplyKey = view supplyKey)
    (balances : ∀ account, other (balanceKey account) = view (balanceKey account)) :
    ledgerOf other = ledgerOf view :=
  Ledger.ext (funext fun account => congrArg wordOf (balances account)) (congrArg wordOf supply)

/-- Programs other than the coin program write under the keys of modules. -/
theorem Context.runProgramAt_modules {account : Account} (notCoin : account ≠ coin) (room : Nat)
    (tolerance : Tolerance) (stdin : Bytes) (arguments : List Bytes) :
    (runProgramAt env room tolerance account stdin arguments).Keeps (Frame ModuleKey) := by
  by_cases native : account.type = .nativeProgram
  · cases room with
    | zero => exact keeps_pure _
    | succ room =>
      refine runProgramAt_keeps ?_ tolerance stdin arguments
      unfold executeProgram
      rw [native]
      refine keeps_onFault ?_
      rw [if_neg notCoin]
      exact keeps_pure _
  · exact runModule_frame (fun _ type => permits_moduleKey type) room account native _ _ _

namespace ChainLedger

/-- A ledger that was reached from a conserved one. -/
def Reached (first : Ledger Account) (view : Bytes → Option Bytes) : Prop :=
  first.Conserved ∧ Ledger.Steps (2 ^ 64) first (ledgerOf view)

variable {first : Ledger Account} {writes : Bytes → Prop} {before after : Context}

/-- Writes to other keys take no step. -/
theorem kept_of_apart (supply : ¬ writes supplyKey)
    (balances : ∀ account, ¬ writes (balanceKey account))
    (frame : Frame writes before after) : Kept (Reached first) before after := by
  refine kept_of_frame (fun view other same mid => ?_) frame
  rwa [Reached, ledgerOf_congr (same _ supply) fun account => same _ (balances account)]

theorem kept_of_modules (frame : Frame ModuleKey before after) :
    Kept (Reached first) before after :=
  kept_of_apart not_moduleKey_supplyKey not_moduleKey_balanceKey frame

/-- Calling a program takes a step if it is the coin program, and none otherwise. -/
theorem runProgram_kept (tolerance : Tolerance) (account : Account) (stdin : Bytes)
    (arguments : List Bytes) :
    (runProgram env tolerance account stdin arguments).Keeps (Kept (Reached first)) := by
  intro before
  by_cases isCoin : account = Context.coin
  · subst isCoin
    intro working mid
    have frame : Frame (fun _ => True) before
        (runProgram env tolerance Context.coin stdin arguments before).2 :=
      runProgramAt_frame (fun _ _ _ _ => trivial) (fun _ _ => trivial) _ _ _ _ _ before
    have step : CoinSupply.Advances before
        (runProgram env tolerance Context.coin stdin arguments before).2 :=
      CoinSupply.invocation_advances working.sound (mid.2.conserved mid.1) _ _ _ _
    exact ⟨working.of_frame frame, mid.1, mid.2.tail step⟩
  · exact kept_of_modules (runProgramAt_modules isCoin _ _ _ _ before)

/-- A key in a space of the system is not one of the coin program. -/
theorem apart_of_head {key : Bytes} (head : key.head? = some 1) :
    key ≠ supplyKey ∧ ∀ account, key ≠ balanceKey account := by
  constructor
  · rintro rfl
    have heads : some (0 : UInt8) = some 1 := head
    exact absurd heads (by decide)
  · rintro account rfl
    have heads : some (0 : UInt8) = some 1 := head
    exact absurd heads (by decide)

/-- From what a block builds on to what it leaves, the ledger takes steps. -/
theorem steps_of_derives {below above : Bytes → Option Bytes}
    (derives : Derives env block below above) (conserved : (ledgerOf below).Conserved) :
    Ledger.Steps (2 ^ 64) (ledgerOf below) (ledgerOf above) := by
  have requires (account : Account) : (requireAuthority env account).Keeps
      (Kept (Reached (ledgerOf below))) := fun before =>
    kept_of_modules (requireAuthority_frame (fun _ type => permits_moduleKey type) account before)
  have kept : Reached (ledgerOf below) above := by
    refine derives.keeps ?_ ?_ ?_ ⟨conserved, .refl⟩
    · exact fun tx => authorizeTransaction_kept (requires _) fun _ => requires _
    · intro tx before
      obtain ⟨supply, balances⟩ := apart_of_head
        (show (nonceKey (Transaction.nonceAccount tx)).head? = some 1 from rfl)
      exact kept_of_apart supply.symm (fun account => (balances account).symm)
        (chargeTransaction_frame tx before)
    · refine fun operation before code after gave => (applyOperation_kept requires
        (fun id value before => ?_) (runProgram_kept .strict) operation).of_returns gave
      obtain ⟨supply, balances⟩ := apart_of_head
        (show (makeCompoundKey ObjectSpace.programData id.1).head? = some 1 from rfl)
      have puts : (putState ObjectSpace.programData id.1 value).Keeps
          (Frame fun key => key = makeCompoundKey ObjectSpace.programData id.1) :=
        putState_frame value rfl
      exact kept_of_apart supply.symm (fun account => (balances account).symm) (puts before)
  exact kept.2

/-- In every run whose initial objects balance, the coin ledger goes from the node of every
accepted block's predecessor to its own node by transfers, mints and burns in exact arithmetic,
and the balances on it add up to its supply. -/
theorem coins_conserved_on_every_fork
    (balanced : (ledgerOf (Database.written (genesisWrites entries) fun _ => none)).Conserved)
    (run : ProcessRun env entries history db) :
    ∀ node block, (node, block) ∈ history → ∃ parent, db.heap.parent? node = some parent ∧
      Ledger.Steps (2 ^ 64) (ledgerOf (db.heap.view parent))
        (ledgerOf (db.heap.view node)) ∧
      ∑ account, (ledgerOf (db.heap.view node)).balance account =
        (ledgerOf (db.heap.view node)).supply := by
  have conserved : ∀ node, Standing history node →
      (ledgerOf (db.heap.view node)).Conserved :=
    run.shows balanced fun block below above derives holds =>
      (steps_of_derives derives holds).conserved holds
  intro node block accepted
  obtain ⟨parent, standing, points, derives⟩ := run.derives node block accepted
  exact ⟨parent, points, steps_of_derives derives (conserved parent standing),
    conserved node (.inr ⟨block, accepted⟩)⟩

/-- Initial objects without any of the coin program balance. -/
theorem balanced_of_absent (absent : ∀ entry ∈ entries, entry.compoundKey.head? = some 1) :
    (ledgerOf (Database.written (genesisWrites entries) fun _ => none)).Conserved := by
  have unset (key : Bytes) (apart : ∀ entry ∈ entries, entry.compoundKey ≠ key) :
      Database.written (genesisWrites entries) (fun _ => none) key = none := by
    refine written_of_absent (fun write mem => ?_) _
    obtain ⟨entry, isEntry, rfl⟩ := List.mem_map.mp mem
    exact apart entry isEntry
  have nothing : ledgerOf (Database.written (genesisWrites entries) fun _ => none) =
      ledgerOf fun _ => none :=
    ledgerOf_congr (unset _ fun entry mem => (apart_of_head (absent entry mem)).1)
      fun account => unset _ fun entry mem => (apart_of_head (absent entry mem)).2 account
  rw [nothing]
  simp [Ledger.Conserved, ledgerOf, wordOf]

/-- A block in which five coins are minted. -/
def minting : Block :=
  sampleBlock nullId 1 2000 (SizedBytes.zero 32)
    [sampleTransaction (networkId .plain) 1
      [.callProgram Context.coin ⟨[], littleEndian 4 7 ++ (SizedBytes.zero 33).1 ++ storeWord 5⟩]]

def afterMinting : Database := (processBlock .plain minting 0 sampleGenesis).2

/-- There are five coins after that block, and they are somewhere. -/
theorem coins_conserved_after_minting :
    afterMinting.heap.get 1 supplyKey = .ok (some (storeWord 5)) ∧
      ∑ account, (ledgerOf (afterMinting.heap.view 1)).balance account =
        (ledgerOf (afterMinting.heap.view 1)).supply := by
  have run : ProcessRun .plain sampleEntries [(1, minting)] afterMinting :=
    run_sampleGenesis.extended minting 0 (show sampleGenesis.heap.size = 1 by decide +kernel)
      (show (processBlock .plain minting 0 sampleGenesis).1.map
        (Except.map BlockReceipt.height) = .ok (.ok 1) by decide +kernel)
  obtain ⟨_, -, -, conserved⟩ := coins_conserved_on_every_fork
    (balanced_of_absent (by decide)) run 1 minting (List.mem_singleton.mpr rfl)
  exact ⟨by decide +kernel, conserved⟩

end ChainLedger

end Respublica.Controller
