import Respublica.Controller.Frame
import Respublica.Foundation.Ledger

/-!
# Conservation of coins

The objects of the coin program stand for a ledger. Every run of the program, whatever its
input and however it ends, takes the ledger one step in natural numbers: nothing it adds or
subtracts wraps, and both stores of a request happen or neither does. A transfer does not
check for overflow on the receiving side; that the supply bounds any two balances is what
makes it safe, so the step lemma needs the invariant it preserves.

Programs that are asked for authority on the way write under keys of modules, and those are
not keys of the coin program.
-/

namespace Respublica.Controller

open Foundation Effect Program Protocol StateDb Context Interaction Coin

theorem not_moduleKey_supplyKey : ¬ ModuleKey supplyKey := by
  intro isModule
  have heads : [0, 0, 0, 0, 2] = [0, 0, 0, 0, (1 : UInt8)] := isModule
  exact absurd heads (by decide)

theorem not_moduleKey_balanceKey (account : Account) : ¬ ModuleKey (balanceKey account) := by
  intro isModule
  have heads : [0, 0, 0, 0, 2] = [0, 0, 0, 0, (1 : UInt8)] := isModule
  exact absurd heads (by decide)

/-- The spaces of supply and balances are one space; only the keys differ. -/
theorem supplyKey_ne_balanceKey (account : Account) : supplyKey ≠ balanceKey account := by
  intro same
  have lengths := congrArg List.length same
  simp [supplyKey, balanceKey, makeCompoundKey, account.2, (ObjectSpace.ofProgram _ _).2] at lengths

theorem balanceKey_inj {left right : Account} : balanceKey left = balanceKey right ↔
    left = right := by
  rw [balanceKey, balanceKey, makeCompoundKey_inj]
  exact Subtype.ext_iff.symm

/-- The number an object stands for. -/
def wordOf : Option Bytes → ℕ
  | some bytes => if bytes.length = 8 then (loadWord bytes).toNat else 0
  | none => 0

@[simp] theorem wordOf_storeWord (word : UInt64) : wordOf (some (storeWord word)) = word.toNat := by
  simp [wordOf]

/-- The ledger a view of the state stands for. -/
def ledgerOf (view : Bytes → Option Bytes) : Ledger Account where
  balance account := wordOf (view (balanceKey account))
  supply := wordOf (view supplyKey)

/-- Storing a balance changes that of one account. -/
theorem ledgerOf_update_balance (view : Bytes → Option Bytes) (account : Account) (word : UInt64) :
    ledgerOf (Function.update view (balanceKey account) (some (storeWord word))) =
      { ledgerOf view with
        balance := Function.update (ledgerOf view).balance account word.toNat } := by
  refine Ledger.ext (funext fun other => ?_) ?_
  · by_cases same : other = account
    · subst same
      simp [ledgerOf]
    · have apart : balanceKey other ≠ balanceKey account :=
        fun keys => same (balanceKey_inj.mp keys)
      simp [ledgerOf, same, apart]
  · simp [ledgerOf, supplyKey_ne_balanceKey]

/-- Storing a supply changes it alone. -/
theorem ledgerOf_update_supply (view : Bytes → Option Bytes) (word : UInt64) :
    ledgerOf (Function.update view supplyKey (some (storeWord word))) =
      (ledgerOf view).withSupply word.toNat := by
  refine Ledger.ext (funext fun other => ?_) ?_
  · simp [ledgerOf, Ledger.withSupply, (supplyKey_ne_balanceKey other).symm]
  · simp [ledgerOf, Ledger.withSupply]

/-- The coin ledger of a context. -/
def ledger (context : Context) : Ledger Account := ledgerOf context.view

/-- Modules leave the ledger alone. -/
theorem ledger_of_frame {before after : Context} (frame : Frame ModuleKey before after) :
    ledger after = ledger before := by
  refine Ledger.ext (funext fun account => ?_) ?_
  · exact congrArg wordOf (frame.view (not_moduleKey_balanceKey account))
  · exact congrArg wordOf (frame.view not_moduleKey_supplyKey)

/-- The supply is stored in a word. -/
theorem supply_lt (context : Context) : (ledger context).supply < 2 ^ 64 := by
  change wordOf _ < _
  unfold wordOf
  split
  · split
    · exact UInt64.toNat_lt _
    · decide
  · decide

namespace Context

/-- The coin program is on top of the stack. -/
def InCoin (context : Context) : Prop :=
  (context.stack.map StackFrame.programId).head? = some coin

variable {writes : Bytes → Prop} {before after : Context}

theorem InCoin.of_frame (inCoin : before.InCoin) (frame : Frame writes before after) :
    after.InCoin := by
  rw [InCoin, frame.programs]
  exact inCoin

/-- What the coin program reads is what the state node shows. -/
theorem getObject_shows {id : UInt32} {key bytes : Bytes} (inCoin : before.InCoin)
    (gave : (getObject id key).Returns before bytes after) :
    bytes = (before.view (makeCompoundKey (ObjectSpace.ofProgram coin id) key)).getD [] := by
  simp only [getObject, returns_bind] at gave
  obtain ⟨_, charged, paid, space, mid, created, object, _, got, gave⟩ := gave
  obtain ⟨meter, rfl⟩ : ∃ meter, charged = { before with meter := meter } :=
    ⟨_, eq_of_chargeCall paid⟩
  have still : InCoin { before with meter := meter } := inCoin
  obtain ⟨rfl, rfl⟩ := returns_createObjectSpace still created
  simp only [getState, returns_bind, returns_read, returns_ofExcept] at got
  obtain ⟨_, _, ⟨rfl, rfl⟩, got, rfl⟩ := got
  obtain ⟨rfl, -⟩ := returns_pure.mp gave
  rw [← Heap.view_of_get got]
  rfl

/-- The coin program's writes go through, whatever the meter says about paying for them. -/
theorem putObject_returns (sound : before.Sound) (inCoin : before.InCoin)
    (notFinal : before.heap.final before.stateNode = false) (id : UInt32) (key value : Bytes) :
    ∃ code after, (putObject id key value).Returns before code after ∧
      after.view = Function.update before.view
        (makeCompoundKey (ObjectSpace.ofProgram coin id) key) (some value) := by
  obtain ⟨charged, paid⟩ :=
    chargeCall_returns fun isOpen => (sound.payable.computeBandwidth isOpen).1
  have quiet : Frame (fun _ => False) before charged := chargeCall_frame.of_returns paid
  have finality : charged.heap.final charged.stateNode = false := by
    rw [quiet.stateNode, quiet.heap.final, notFinal]
  obtain ⟨size, heap, stored, shown⟩ := putState_returns (sound.of_frame quiet) finality
    (ObjectSpace.ofProgram coin id) key value
  obtain ⟨code, meter, used⟩ := Meter.use_returns (sound.of_frame quiet).payable.diskStorage
    (UInt64.ofInt size)
  refine ⟨code, { charged with heap := heap, meter := meter }, ?_, ?_⟩
  · exact returns_bind.mpr ⟨(), _, paid, returns_bind.mpr ⟨_, _,
      createObjectSpace_returns (inCoin.of_frame quiet) id, returns_bind.mpr ⟨size, _, stored,
        returns_within.mpr ⟨meter, used, rfl⟩⟩⟩⟩
  · have unchanged : charged.view = before.view := by
      rw [eq_of_chargeCall paid]
      rfl
    rw [← unchanged]
    exact shown

/-- A final node refuses writes. -/
theorem putState_of_final (final : before.heap.final before.stateNode = true) (space : ObjectSpace)
    (key value : Bytes) :
    putState space key value before =
      (.error (.exception "cannot modify a final state delta"), before) := by
  simp only [putState, bind, Effect.read, onHeap, Effect.within, Heap.put_of_final final]

/-- On a final node a write of the coin program does not return and changes nothing. -/
theorem putObject_of_final (final : before.heap.final before.stateNode = true)
    (inCoin : before.InCoin) (id : UInt32) (key value : Bytes) :
    Frame ModuleKey before (putObject id key value before).2 ∧
      ∀ code after, ¬ (putObject id key value).Returns before code after := by
  have refused (charged : Context) (paid : chargeCall.Returns before () charged)
      (space : ObjectSpace) : putState space key value charged =
        (.error (.exception "cannot modify a final state delta"), charged) := by
    have quiet : Frame ModuleKey before charged := chargeCall_frame.of_returns paid
    exact putState_of_final (by rw [quiet.stateNode, quiet.heap.final, final]) space key value
  constructor
  · refine related_bind (chargeCall_frame before) fun _ charged paid => ?_
    have quiet : Frame ModuleKey before charged := chargeCall_frame.of_returns paid
    have created := createObjectSpace_returns (inCoin.of_frame quiet) id
    rw [created.bind_eq]
    refine IsTrans.trans _ _ _ quiet (related_bind ?_ fun size mid stored => ?_)
    · rw [refused charged paid]
      exact Std.Refl.refl _
    · rw [Effect.Returns, refused charged paid] at stored
      cases stored
  · intro code after gave
    simp only [putObject, returns_bind] at gave
    obtain ⟨_, charged, paid, space, _, created, size, _, stored, -⟩ := gave
    have quiet : Frame ModuleKey before charged := chargeCall_frame.of_returns paid
    obtain ⟨-, rfl⟩ := returns_createObjectSpace (inCoin.of_frame quiet) created
    rw [Effect.Returns, refused _ paid] at stored
    cases stored

end Context

namespace CoinSupply

variable {env : Env} {room : Nat} {before after : Context}

/-- Calls other than writes and calls to programs leave the coin objects alone. -/
theorem observes_quiet {call : SystemCall} (observes : Coin.Observes call) :
    (answers env room call).Keeps (Frame ModuleKey) := by
  cases call with
  | arguments => exact arguments_kept frame_overlooks
  | write descriptor buffer => exact write_kept frame_overlooks descriptor buffer
  | read descriptor size => exact read_kept frame_overlooks descriptor size
  | getObject id key => exact getObject_kept frame_overlooks id key
  | getNextObject id key => exact getNeighbour_kept frame_overlooks id key
  | getPrevObject id key => exact getNeighbour_kept frame_overlooks id key
  | checkAuthority account =>
    exact checkAuthority_modules (fun _ type => permits_moduleKey type) room account
  | getCaller => exact getCaller_kept frame_overlooks
  | putObject => exact observes.elim
  | removeObject => exact observes.elim
  | callProgram => exact observes.elim

/-- A part of a run that issues such calls only leaves the ledger alone. -/
theorem quiet_of_issues {Value : Type} {program : NativeProgram Value}
    (issues : program.Issues Coin.Observes) :
    (interpret (answers env room) program).Keeps (Frame ModuleKey) :=
  issues.interpret_keeps fun _ => observes_quiet

/-- A stored word the program reads is the number the ledger has. -/
theorem storedWord_reads {id : UInt32} {key : Bytes} {word : UInt64} (inCoin : before.InCoin)
    (gave : (interpret (answers env room) (storedWord id key)).Returns before word after) :
    word.toNat = wordOf (before.view (makeCompoundKey (ObjectSpace.ofProgram coin id) key)) := by
  rw [Coin.storedWord, interpret_bind, returns_bind] at gave
  obtain ⟨object, mid, got, gave⟩ := gave
  rw [Coin.call, interpret_perform] at got
  have shown := getObject_shows inCoin got
  cases held : before.view (makeCompoundKey (ObjectSpace.ofProgram coin id) key) with
  | none =>
    rw [held] at shown
    subst shown
    obtain ⟨rfl, -⟩ := returns_pure.mp gave
    rfl
  | some bytes =>
    obtain rfl : object = bytes := by rw [shown, held]; rfl
    split at gave
    · rename_i none
      obtain ⟨rfl, -⟩ := returns_pure.mp gave
      simp [wordOf, none]
    · split at gave
      · rename_i whole
        obtain ⟨rfl, -⟩ := returns_pure.mp gave
        simp [wordOf, whole]
      · exact (not_returns_fail gave).elim

/-- The ledger takes one step, in numbers that fit a word. -/
def Advances (before after : Context) : Prop :=
  Ledger.Step (2 ^ 64) (ledger before) (ledger after)

theorem advances_of_quiet (quiet : Frame ModuleKey before after) : Advances before after := by
  rw [Advances, ledger_of_frame quiet]
  exact .idle

/-- What comes before a step may be any part that stores nothing. -/
theorem advances_after {First Second : Type} {program : NativeProgram First}
    {continuation : First → NativeProgram Second} (issues : program.Issues Coin.Observes)
    (continues : ∀ value mid, (interpret (answers env room) program).Returns before value mid →
      Frame ModuleKey before mid →
      Advances mid (interpret (answers env room) (continuation value) mid).2) :
    Advances before (interpret (answers env room) (program >>= continuation) before).2 := by
  have quiet : (interpret (answers env room) program).Keeps (Frame ModuleKey) :=
    quiet_of_issues issues
  rw [interpret_bind]
  refine related_bind (advances_of_quiet (quiet before)) fun value mid gave => ?_
  have frame := quiet.of_returns gave
  have step := continues value mid gave frame
  rwa [Advances, ledger_of_frame frame] at step

/-- What comes after a step may be any quiet routine. -/
theorem advances_before_quiet {First Second : Type} {first : Run First}
    {next : First → Run Second} (step : Advances before (first before).2)
    (quiet : ∀ value, (next value).Keeps (Frame ModuleKey)) :
    Advances before ((first >>= next) before).2 := by
  refine related_bind step fun value mid gave => ?_
  rw [show first before = _ from gave] at step
  rw [Advances, ledger_of_frame (quiet value mid)]
  exact step

theorem interpret_storeObject (id : UInt32) (key : Bytes) (word : UInt64) :
    interpret (answers env room) (Coin.storeObject id key word) =
      (putObject id key (storeWord word) >>= fun _ => pure ()) := by
  rw [Coin.storeObject, interpret_bind, Coin.call, interpret_perform]
  rfl

/-- Two stores in a row both go through, or the first already stops. -/
theorem stores_advance {firstId secondId : UInt32} {firstKey secondKey : Bytes}
    {first second : UInt64} (sound : before.Sound) (inCoin : before.InCoin)
    (step : Ledger.Step (2 ^ 64) (ledger before) (ledgerOf (Function.update
      (Function.update before.view (makeCompoundKey (ObjectSpace.ofProgram coin firstId) firstKey)
        (some (storeWord first)))
      (makeCompoundKey (ObjectSpace.ofProgram coin secondId) secondKey)
      (some (storeWord second))))) :
    Advances before (interpret (answers env room) (do
      storeObject firstId firstKey first
      storeObject secondId secondKey second
      pure (ErrorCode.program .ok)) before).2 := by
  simp only [interpret_bind, interpret_storeObject]
  cases finality : before.heap.final before.stateNode with
  | true =>
    obtain ⟨quiet, stops⟩ := putObject_of_final finality inCoin firstId firstKey
      (storeWord first)
    refine related_bind (related_bind (advances_of_quiet quiet) ?_) ?_
    · exact fun code mid gave => (stops code mid gave).elim
    · intro value mid gave
      obtain ⟨code, middle, gave, -⟩ := returns_bind.mp gave
      exact (stops code middle gave).elim
  | false =>
    obtain ⟨_, middle, stored, shown⟩ := putObject_returns sound inCoin finality firstId
      firstKey (storeWord first)
    have frame : Frame (fun _ => True) before middle :=
      (putObject_frame (fun _ _ => trivial) _ _ _).of_returns stored inCoin
    obtain ⟨_, after, storedAgain, shownAgain⟩ := putObject_returns (sound.of_frame frame)
      (inCoin.of_frame frame) (by rw [frame.stateNode, frame.heap.final, finality]) secondId
      secondKey (storeWord second)
    have stepped : Advances before after := by
      rw [Advances, show ledger after = ledgerOf after.view from rfl, shownAgain, shown]
      exact step
    rw [(returns_bind.mpr ⟨_, _, stored, returns_pure.mpr ⟨rfl, rfl⟩⟩ :
        Effect.Returns _ before () middle).bind_eq,
      (returns_bind.mpr ⟨_, _, storedAgain, returns_pure.mpr ⟨rfl, rfl⟩⟩ :
        Effect.Returns _ middle () after).bind_eq]
    exact stepped

/-- What stays the same up to the stores of a request. -/
structure Ready (context : Context) : Prop where
  sound : context.Sound
  inCoin : context.InCoin
  conserved : (ledger context).Conserved

theorem Ready.of_quiet (ready : Ready before) (quiet : Frame ModuleKey before after) :
    Ready after :=
  ⟨ready.sound.of_frame quiet, ready.inCoin.of_frame quiet, by
    rw [ledger_of_frame quiet]
    exact ready.conserved⟩

theorem totalSupply_observes : totalSupply.Issues Coin.Observes :=
  storedWord_issues _ _ trivial

theorem balanceOf_observes (account : Account) : (balanceOf account).Issues Coin.Observes :=
  storedWord_issues _ _ trivial

section Reads

variable {Value : Type} {continuation : UInt64 → NativeProgram Value}

/-- What comes after reading a word of the ledger has that word to go on. -/
theorem advances_after_read {program : NativeProgram UInt64} (word : Ledger Account → Nat)
    (issues : program.Issues Coin.Observes)
    (reads : ∀ value mid, (interpret (answers env room) program).Returns
      before value mid → value.toNat = word (ledger before))
    (ready : Ready before)
    (continues : ∀ value mid, Ready mid → ledger mid = ledger before →
      value.toNat = word (ledger mid) →
        Advances mid (interpret (answers env room) (continuation value) mid).2) :
    Advances before (interpret (answers env room) (program >>= continuation) before).2 := by
  refine advances_after issues fun value mid gave quiet => ?_
  have same := ledger_of_frame quiet
  refine continues value mid (ready.of_quiet quiet) same ?_
  rw [same]
  exact reads value mid gave

/-- Reading the supply leaves the ledger as it is. -/
theorem advances_after_supply (ready : Ready before)
    (continues : ∀ supply mid, Ready mid → ledger mid = ledger before →
      supply.toNat = (ledger mid).supply →
        Advances mid (interpret (answers env room) (continuation supply) mid).2) :
    Advances before (interpret (answers env room) (totalSupply >>= continuation) before).2 :=
  advances_after_read Ledger.supply totalSupply_observes
    (fun _ _ gave => storedWord_reads ready.inCoin gave) ready continues

/-- Reading a balance leaves the ledger as it is. -/
theorem advances_after_balance (account : Account) (ready : Ready before)
    (continues : ∀ balance mid, Ready mid → ledger mid = ledger before →
      balance.toNat = (ledger mid).balance account →
        Advances mid (interpret (answers env room) (continuation balance) mid).2) :
    Advances before (interpret (answers env room) (balanceOf account >>= continuation) before).2 :=
  advances_after_read (fun ledger => ledger.balance account) (balanceOf_observes account)
    (fun _ _ gave => storedWord_reads ready.inCoin gave) ready continues

end Reads

/-- A transfer behind its guard. -/
theorem moveCoins_advances {source target : Account} (different : source ≠ target) (value : UInt64)
    (ready : Ready before) :
    Advances before (interpret (answers env room) (moveCoins source target value) before).2 := by
  unfold moveCoins
  refine advances_after_balance source ready fun sourceBalance middle ready _ sourceHas => ?_
  split
  · exact advances_of_quiet (Std.Refl.refl _)
  rename_i covered
  refine advances_after_balance target ready fun targetBalance mid ready same targetHas => ?_
  rw [← same] at sourceHas
  refine stores_advance ready.sound ready.inCoin ?_
  have enough : value.toNat ≤ sourceBalance.toNat :=
    UInt64.le_iff_toNat_le.mp (UInt64.not_lt.mp covered)
  have bounded := ready.conserved.add_balance_le different
  have supplied := supply_lt mid
  have fits : targetBalance.toNat + value.toNat < 2 ^ 64 := by omega
  have debited : (sourceBalance - value).toNat = (ledger mid).balance source - value.toNat := by
    rw [UInt64.toNat_sub_of_le _ _ (UInt64.not_lt.mp covered), sourceHas]
  have credited : (targetBalance + value).toNat =
      ((ledger mid).debit source value.toNat).balance target + value.toNat := by
    rw [UInt64.toNat_add, Nat.mod_eq_of_lt fits, targetHas,
      Ledger.balance_debit_of_ne _ _ different.symm]
  have landed : ledgerOf (Function.update (Function.update mid.view (balanceKey source)
      (some (storeWord (sourceBalance - value)))) (balanceKey target)
      (some (storeWord (targetBalance + value)))) =
      ((ledger mid).debit source value.toNat).credit target value.toNat := by
    rw [ledgerOf_update_balance, ledgerOf_update_balance, debited, credited]
    rfl
  exact landed ▸ .transfer source target value.toNat different (sourceHas ▸ enough)
    (targetHas ▸ fits)

/-- A transfer advances the ledger. -/
theorem transfer_advances (source target : Account) (value : UInt64) (ready : Ready before) :
    Advances before (interpret (answers env room) (transfer source target value) before).2 := by
  unfold transfer
  split
  · exact advances_of_quiet (Std.Refl.refl _)
  · rename_i different
    refine advances_after (permitted_issues source) fun allowed mid _ quiet => ?_
    split
    · exact moveCoins_advances different value (ready.of_quiet quiet)
    · exact advances_of_quiet (Std.Refl.refl _)

/-- A mint. -/
theorem mint_advances (target : Account) (value : UInt64) (ready : Ready before) :
    Advances before (interpret (answers env room) (mint target value) before).2 := by
  unfold mint
  refine advances_after_supply ready fun supply middle ready _ supplyIs => ?_
  split
  · exact advances_of_quiet (Std.Refl.refl _)
  rename_i small
  refine advances_after_balance target ready fun targetBalance mid ready same targetHas => ?_
  rw [← same] at supplyIs
  refine stores_advance ready.sound ready.inCoin ?_
  have fits : supply.toNat + value.toNat < 2 ^ 64 := by
    have guard := UInt64.le_iff_toNat_le.mp (UInt64.not_lt.mp small)
    rw [UInt64.toNat_sub_of_le _ _ (le_maxWord value), toNat_maxWord] at guard
    have range := value.toNat_lt
    omega
  have balanceFits : targetBalance.toNat + value.toNat < 2 ^ 64 := by
    have bounded := ready.conserved.balance_le target
    omega
  have grown : (supply + value).toNat = (ledger mid).supply + value.toNat := by
    rw [UInt64.toNat_add, Nat.mod_eq_of_lt fits, supplyIs]
  have credited : (targetBalance + value).toNat = (ledger mid).balance target + value.toNat := by
    rw [UInt64.toNat_add, Nat.mod_eq_of_lt balanceFits, targetHas]
  have landed : ledgerOf (Function.update (Function.update mid.view supplyKey
      (some (storeWord (supply + value)))) (balanceKey target)
      (some (storeWord (targetBalance + value)))) =
      ((ledger mid).withSupply ((ledger mid).supply + value.toNat)).credit target
        value.toNat := by
    rw [ledgerOf_update_balance, ledgerOf_update_supply, grown, credited]
    rfl
  exact landed ▸ .mint target value.toNat (supplyIs ▸ fits) (targetHas ▸ balanceFits)

/-- A burn behind its guard. -/
theorem destroyCoins_advances (source : Account) (value : UInt64) (ready : Ready before) :
    Advances before (interpret (answers env room) (destroyCoins source value) before).2 := by
  unfold destroyCoins
  refine advances_after_balance source ready fun sourceBalance middle ready _ sourceHas => ?_
  split
  · exact advances_of_quiet (Std.Refl.refl _)
  rename_i covered
  refine advances_after_supply ready fun supply mid ready same supplyIs => ?_
  rw [← same] at sourceHas
  split
  · exact advances_of_quiet (Std.Refl.refl _)
  rename_i supplied
  refine stores_advance ready.sound ready.inCoin ?_
  have enough : value.toNat ≤ sourceBalance.toNat :=
    UInt64.le_iff_toNat_le.mp (UInt64.not_lt.mp covered)
  have present : value.toNat ≤ supply.toNat := UInt64.le_iff_toNat_le.mp (UInt64.not_lt.mp supplied)
  have shrunk : (supply - value).toNat = (ledger mid).supply - value.toNat := by
    rw [UInt64.toNat_sub_of_le _ _ (UInt64.not_lt.mp supplied), supplyIs]
  have debited : (sourceBalance - value).toNat = (ledger mid).balance source - value.toNat := by
    rw [UInt64.toNat_sub_of_le _ _ (UInt64.not_lt.mp covered), sourceHas]
  have landed : ledgerOf (Function.update (Function.update mid.view supplyKey
      (some (storeWord (supply - value)))) (balanceKey source)
      (some (storeWord (sourceBalance - value)))) =
      ((ledger mid).withSupply ((ledger mid).supply - value.toNat)).debit source
        value.toNat := by
    rw [ledgerOf_update_balance, ledgerOf_update_supply, shrunk, debited]
    rfl
  exact landed ▸ .burn source value.toNat (sourceHas ▸ enough) (supplyIs ▸ present)

/-- Burning advances the ledger. -/
theorem burn_advances (source : Account) (value : UInt64) (ready : Ready before) :
    Advances before (interpret (answers env room) (burn source value) before).2 := by
  unfold burn
  refine advances_after (permitted_issues source) fun allowed mid _ quiet => ?_
  split
  · exact destroyCoins_advances source value (ready.of_quiet quiet)
  · exact advances_of_quiet (Std.Refl.refl _)

/-- Whatever is asked for, the ledger takes one step. -/
theorem execute_advances (request : Coin.Request) (ready : Ready before) :
    Advances before (interpret (answers env room) (execute request) before).2 := by
  have written (bytes : Bytes) : Advances before (interpret (answers env room)
      (writeOut bytes) before).2 :=
    advances_of_quiet (quiet_of_issues (writeOut_issues bytes) before)
  cases request with
  | authorize => exact written _
  | name => exact written _
  | symbol => exact written _
  | decimals => exact written _
  | totalSupply =>
    exact advances_of_quiet (quiet_of_issues (issues_bind totalSupply_observes fun _ =>
      writeOut_issues _) before)
  | balanceOf account =>
    exact advances_of_quiet (quiet_of_issues (issues_bind (balanceOf_observes account)
      fun _ => writeOut_issues _) before)
  | transfer source target value => exact transfer_advances source target value ready
  | mint target value => exact mint_advances target value ready
  | burn source value => exact burn_advances source value ready
  | unknown => exact advances_of_quiet (Std.Refl.refl _)

/-- One run of the program, from the first read to the last store. -/
theorem run_advances (locals : Coin.Locals) (ready : Ready before) :
    Advances before (interpret (answers env room) (run locals) before).2 := by
  unfold run
  refine advances_after ?_ fun request mid _ quiet => execute_advances request
    (ready.of_quiet quiet)
  refine (readRequest_issues locals).mono fun call isRead => ?_
  cases call with
  | read => exact trivial
  | _ => exact isRead.elim

/-- One invocation of the program, in a frame of its own and whatever its exit. -/
theorem invocation_advances (sound : before.Sound) (conserved : (ledger before).Conserved)
    (room : Nat) (tolerance : Tolerance) (stdin : Bytes) (arguments : List Bytes) :
    Advances before (runProgramAt env room tolerance coin stdin arguments before).2 := by
  cases room with
  | zero => exact advances_of_quiet (Std.Refl.refl _)
  | succ room =>
    rw [runProgramAt_succ]
    split
    · exact advances_of_quiet (Std.Refl.refl _)
    · generalize entered : ({ before with
        stack := ⟨coin, arguments, stdin, [], [], 0⟩ :: before.stack } : Context) = inside
      have ready : Ready inside := by
        subst entered
        exact ⟨⟨sound.backed, sound.inside, sound.payable⟩, rfl, conserved⟩
      have executed : Advances inside (executeProgram env
          (runProgramAt env room) coin inside).2 := by
        change Advances inside (executeNativeProgram env _ coin inside).2
        rw [executeNativeProgram, snd_onFault, if_pos rfl]
        exact run_advances (env.locals inside) ready
      have stepped : Advances inside (inOwnFrame env
          (runProgramAt env room) tolerance coin stdin arguments inside).2 :=
        advances_before_quiet executed fun _ => keeps_ite (keeps_pure _)
          (keeps_bind (recordFrame_kept frame_overlooks _ _ _ _) fun _ => keeps_pure _)
      subst entered
      exact stepped

/-- Sequences of invocations. Between two of them anything may happen that leaves the coin
objects as they are. -/
inductive Invocations (env : Env) (first : Context) : Context → Prop where
  | start : Invocations env first first
  | invoke {mid : Context} (earlier : Invocations env first mid) (room : Nat)
      (tolerance : Tolerance) (stdin : Bytes) (arguments : List Bytes) :
      Invocations env first (runProgramAt env room tolerance coin stdin arguments mid).2
  | elsewhere {mid next : Context} (earlier : Invocations env first mid)
      (sound : next.Sound) (same : ledger next = ledger mid) :
      Invocations env first next

/-- What holds of every context that invocations reach. -/
theorem Invocations.invariant {first mid : Context} (sound : first.Sound)
    (conserved : (ledger first).Conserved) (invoked : Invocations env first mid) :
    mid.Sound ∧ (ledger mid).Conserved := by
  induction invoked with
  | start => exact ⟨sound, conserved⟩
  | @invoke mid earlier room tolerance stdin arguments ih =>
    have keeps : (runProgramAt env room tolerance coin stdin arguments).Keeps
        (Frame fun _ => True) :=
      runProgramAt_frame (fun _ _ _ _ => trivial) (fun _ _ => trivial) room _ _ _ _
    exact ⟨ih.1.of_frame (keeps mid),
      (invocation_advances ih.1 ih.2 room tolerance stdin arguments).conserved ih.2⟩
  | elsewhere earlier sound same ih => exact ⟨sound, same ▸ ih.2⟩

/-- In every context that invocations of the coin program reach, the balances add up to the
supply, and the next invocation steps from there in exact arithmetic. -/
theorem coins_conserved {first mid : Context} (sound : first.Sound)
    (conserved : ∑ account, (ledger first).balance account = (ledger first).supply)
    (invoked : Invocations env first mid) :
    ∑ account, (ledger mid).balance account = (ledger mid).supply ∧
      ∀ room tolerance stdin arguments, Ledger.Step (2 ^ 64) (ledger mid)
        (ledger (runProgramAt env room tolerance coin stdin arguments mid).2) := by
  obtain ⟨stillSound, stillConserved⟩ := invoked.invariant sound conserved
  exact ⟨stillConserved, invocation_advances stillSound stillConserved⟩

/-- A context over an empty state. -/
def blank : Context := create (Heap.createRoot Forest.empty) 0 .blockApplication

theorem view_blank : blank.view = fun _ => none := by
  funext key
  have root : blank.heap.node? blank.stateNode =
      some ⟨some (Backend.create nullId 0), ∅, none, false⟩ := rfl
  rw [view, Heap.view_eq root]
  have apart : blank.heap.below blank.stateNode key = none := rfl
  simp [Backend.get, Backend.create, apart]

/-- Five coins minted from nothing. -/
theorem coins_conserved_after_mint :
    ∑ account, (ledger (runProgramAt .plain 33 .strict coin
        (littleEndian 4 7 ++ (SizedBytes.zero 33).1 ++ storeWord 5) [] blank).2).balance account =
      (ledger (runProgramAt .plain 33 .strict coin
        (littleEndian 4 7 ++ (SizedBytes.zero 33).1 ++ storeWord 5) [] blank).2).supply ∧
    (runProgramAt .plain 33 .strict coin
      (littleEndian 4 7 ++ (SizedBytes.zero 33).1 ++ storeWord 5) [] blank).2.heap.get 0 supplyKey =
        .ok (some (storeWord 5)) := by
  have sound : blank.Sound := by
    refine ⟨?_, by decide, ⟨?_, ?_, ?_⟩⟩
    · exact Heap.backed_push Heap.backed_empty rfl
    all_goals exact fun present => by cases present
  have conserved : ∑ account, (ledger blank).balance account = (ledger blank).supply := by
    simp [ledger, view_blank, ledgerOf, wordOf]
  refine ⟨(coins_conserved sound conserved (Invocations.start.invoke 33 .strict _ [])).1, ?_⟩
  decide +kernel

end CoinSupply

end Respublica.Controller
