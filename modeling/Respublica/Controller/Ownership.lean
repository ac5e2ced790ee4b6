import Respublica.Controller.CoinAuthority
import Respublica.Controller.History

/-!
# Who can replace a program

The first upload of a program is signed with the user key behind its id, later uploads are
to be authorized by the stored program. Whether the stored program is asked is decided by
`account_view::program`, while `upload_program::validate` admits what `account::program`
admits. The two agree on odd prefixes only: behind an even prefix a stored program is
replaced on a signature.

Nothing but an upload writes under the key of a program's data, so the results follow a run
of transactions from upload to upload.
-/

namespace Respublica.Controller

open Foundation Effect Crypto Program Protocol StateDb Heap Context

/-- What an upload stores. -/
def programObject (env : Env) (bytecode : Bytes) : Bytes :=
  (env.crypto.hash bytecode).1 ++ bytecode

/-- One of the transaction's authorizations is by the account, with a valid signature. -/
def SignedBy (crypto : Primitives) (tx : Transaction) (account : Account) : Prop :=
  ∃ authorization ∈ tx.authorizations, authorization.signer = account ∧
    crypto.verify account.publicKey authorization.signature tx.id = true

/-- In a context of the transaction, the signers taken as verified have signed it. -/
structure Verified (crypto : Primitives) (tx : Transaction) (context : Context) :
    Prop where
  applying : context.transaction = some tx
  signers : ∀ signer ∈ context.verifiedSignatures, SignedBy crypto tx signer

namespace Context

section Signatures

variable {env : Env} {crypto : Primitives} {tx : Transaction}
  {account : Account} {before after : Context}

variable {authorizations : List Authorization}

/-- A scan takes those as verified whose signatures it has verified. -/
theorem scanAuthorizations_verified
    (known : ∀ authorization ∈ authorizations, authorization ∈ tx.authorizations) :
    (scanAuthorizations crypto tx.id account authorizations).Keeps
      (Preserving (Verified crypto tx)) := by
  induction authorizations with
  | nil => exact keeps_pure _
  | cons authorization rest ih =>
    obtain ⟨here, later⟩ := List.forall_mem_cons.mp known
    unfold scanAuthorizations
    split
    · rename_i verifies
      refine keeps_bind (keeps_modify fun context verified => ?_) fun _ =>
        keeps_ite (keeps_pure _) (ih later)
      refine ⟨verified.applying, fun signer mem => ?_⟩
      rcases List.mem_append.mp mem with old | new
      · exact verified.signers signer old
      · rw [List.mem_singleton.mp new]
        exact ⟨authorization, here, rfl, verifies⟩
    · exact keeps_pure _

/-- A scan that finds the account has verified its signature. -/
theorem scanAuthorizations_signed
    (known : ∀ authorization ∈ authorizations, authorization ∈ tx.authorizations)
    (gave : (scanAuthorizations crypto tx.id account authorizations).Returns before
      (.ok true) after) :
    SignedBy crypto tx account := by
  induction authorizations generalizing before with
  | nil => cases (returns_pure.mp gave).1
  | cons authorization rest ih =>
    obtain ⟨here, later⟩ := List.forall_mem_cons.mp known
    simp only [scanAuthorizations, returns_ite] at gave
    split at gave
    · rename_i verifies
      obtain ⟨_, mid, -, continued⟩ := returns_bind.mp gave
      by_cases signer : authorization.signer = account
      · exact ⟨authorization, here, signer, signer ▸ verifies⟩
      · rw [if_neg signer] at continued
        exact ih later continued
    · cases (returns_pure.mp gave).1

/-- Checking a signature verifies what it adds. -/
theorem checkSignature_verified (account : Account) :
    (checkSignature crypto account).Keeps
      (Preserving (Verified crypto tx)) := by
  intro before verified
  rw [checkSignature, read_bind, verified.applying, expect_bind]
  split
  · exact verified
  · exact scanAuthorizations_verified (fun _ mem => List.mem_of_mem_drop mem) before verified

/-- A signature check of such a context that succeeds is right. -/
theorem checkSignature_signed (verified : Verified crypto tx before)
    (gave : (checkSignature crypto account).Returns before (.ok true) after) :
    SignedBy crypto tx account := by
  rw [Effect.Returns, checkSignature, read_bind, verified.applying, expect_bind] at gave
  split at gave
  · rename_i mem
    exact verified.signers account (List.contains_iff_mem.mp mem)
  · exact scanAuthorizations_signed (fun _ mem => List.mem_of_mem_drop mem) gave

/-- Verified signatures are those of the transaction. -/
theorem verified_ofTransaction : OfTransaction (Verified crypto tx) :=
  fun _ _ sameTransaction _ _ sameSigners verified =>
    ⟨sameTransaction ▸ verified.applying, sameSigners ▸ verified.signers⟩

/-- Verified signers stay verified, whatever programs do. -/
theorem verified_endures (env : Env) (tx : Transaction) :
    Endures env (Preserving (Verified env.crypto tx)) :=
  verified_ofTransaction.endures checkSignature_verified

end Signatures

end Context

/-- A transaction may store a program for an id in a context: nothing is stored and the user
account behind the id has signed, or the module that is stored runs its authorize instruction
and answers with a byte that is not zero. -/
inductive Entitled (env : Env) (tx : Transaction) (id : Account)
    (context : Context) : Prop where
  | first : context.view (programKey id) = none →
      SignedBy env.crypto tx id.userAccount →
        Entitled env tx id context
  | later {object : Bytes} {charged after : Context} {output : ProgramOutput} {byte : UInt8} :
      context.view (programKey id) = some object → id.type = .program →
        chargeCall.Returns context () charged →
        (runProgram env .strict id (littleEndian 4 0) []).Returns charged
          (.ok output) after → output.stdout = [byte] → byte ≠ 0 →
        Entitled env tx id context

/-- The prefix of modules has the program bit. -/
theorem viewProgram_of_type {account : Account} (type : account.type = .program) :
    account.viewProgram = true := by
  unfold Account.type at type
  split at type
  · cases type
  · rename_i isModule
    rw [Account.viewProgram, isModule]
    rfl
  · cases type
  · cases type

theorem viewProgram_userAccount (account : Account) : account.userAccount.viewProgram = false := by
  simp [Account.viewProgram, Account.userAccount, Account.withPrefix, Account.head,
    AccountType.prefixByte]

namespace Context

variable {env : Env} {tx : Transaction} {id : Account} {bytecode : Bytes}
  {before after : Context}

variable {account : Account}

/-- Only accounts of programs run and come back with an output. -/
theorem runProgramAt_type {room : Nat} {tolerance : Tolerance} {stdin : Bytes}
    {arguments : List Bytes} {output : ProgramOutput}
    (gave : (runProgramAt env room tolerance account stdin arguments).Returns before
      (.ok output) after) :
    account.type ≠ .invalid := by
  intro invalid
  cases room with
  | zero => cases (returns_pure.mp gave).1
  | succ room =>
    rw [Effect.Returns, runProgramAt_succ] at gave
    split at gave
    · cases gave
    · obtain ⟨mid, inner, -⟩ := returns_ensuring.mp gave
      obtain ⟨code, _, -, ended⟩ := returns_bind.mp inner
      have surfaced : surfaces tolerance account code = true := by
        cases tolerance <;> simp [surfaces, invalid]
      rw [if_pos surfaced] at ended
      cases (returns_pure.mp ended).1

/-- Authority that was insisted on and not refused was granted. -/
theorem returns_requireAuthority
    (gave : (requireAuthority env account).Returns before (.ok ()) after) :
    (authority env account).Returns before (.ok true) after := by
  obtain ⟨answer, mid, asked, ended⟩ := returns_bind.mp gave
  rcases answer with error | (_ | _)
  · cases (returns_pure.mp ended).1
  · cases (returns_pure.mp ended).1
  · obtain ⟨-, rfl⟩ := returns_pure.mp ended
    exact asked

/-- A user account has authority over a transaction that it has signed. -/
theorem signed_of_authority (verified : Verified env.crypto tx before)
    (isUser : account.viewProgram = false)
    (granted : (authority env account).Returns before (.ok true) after) :
    SignedBy env.crypto tx account := by
  simp only [authority, checkAuthority, returns_bind, returns_read] at granted
  obtain ⟨_, _, paid, _, charged, ⟨rfl, rfl⟩, answered⟩ := granted
  have chargedVerified : Verified env.crypto tx charged :=
    (chargeCall_kept verified_ofTransaction.overlooks).of_returns paid verified
  split at answered
  · cases (returns_pure.mp answered).1
  · rw [if_neg (by simp [isUser])] at answered
    exact checkSignature_signed chargedVerified answered

/-- Keys of program objects. -/
def ObjectKey (key : Bytes) : Prop := key.head? = some 0

theorem permits_objectKey (account : Account) : Permits ObjectKey account := fun _ _ => rfl

/-- Programs are no objects. -/
theorem not_objectKey_programKey (id : Account) : ¬ ObjectKey (programKey id) := by
  intro isObject
  have heads : some (1 : UInt8) = some 0 := isObject
  exact absurd heads (by decide)

theorem requireAuthority_objects (account : Account) :
    (requireAuthority env account).Keeps (Frame ObjectKey) :=
  requireAuthority_frame (fun asked _ => permits_objectKey asked) account

theorem objectKey_of_moduleKey {key : Bytes} (isModule : ModuleKey key) : ObjectKey key := by
  cases key with
  | nil => cases isModule
  | cons head rest => exact congrArg List.head? isModule

/-- A call writes objects only. -/
theorem applyCallProgram_objects (account : Account) (input : ProgramInput) :
    (applyCallProgram env account input).Keeps (Frame ObjectKey) := by
  refine keeps_bind (runProgramAt_frame (fun asked _ => permits_objectKey asked)
    (permits_objectKey coin) fullRoom _ _ _ _) fun outcome => ?_
  cases outcome with
  | error error => exact keeps_pure _
  | ok output => exact keeps_pure _

/-- An upload fails and leaves the stored programs alone, or it stores its program with the
authority of the account that is responsible at this moment. -/
theorem applyUploadProgram_outcome {code : ErrorCode}
    (gave : (applyUploadProgram env id bytecode).Returns before code after) :
    (code.failed = true ∧ ∀ other, after.view (programKey other) = before.view (programKey other)) ∨
      (code = .controller .ok ∧ (∃ checked, (requireAuthority env
          (if (before.view (programKey id)).isSome then id else id.userAccount)).Returns before
            (.ok ()) checked) ∧
        after.view (programKey id) = some (programObject env bytecode) ∧
        ∀ other, other ≠ id → after.view (programKey other) = before.view (programKey other)) := by
  simp only [applyUploadProgram, getState, returns_bind, returns_read, returns_ofExcept] at gave
  obtain ⟨existing, _, ⟨_, _, ⟨rfl, rfl⟩, found, rfl⟩, answer, checked, asked, rest⟩ := gave
  have stored := view_of_get found
  have frame := (requireAuthority_objects _).of_returns asked
  have kept (other : Account) := frame.view (not_objectKey_programKey other)
  cases answer with
  | error error =>
    obtain ⟨rfl, rfl⟩ := returns_pure.mp rest
    exact .inl ⟨requireAuthority_fails _ _ _ _ asked, kept⟩
  | ok value =>
    simp only [putState, onHeap, returns_bind, returns_read, returns_within, returns_pure] at rest
    obtain ⟨size, _, ⟨_, _, ⟨rfl, rfl⟩, heap, put, rfl⟩, rfl, rfl⟩ := rest
    have shown := view_of_put put
    refine .inr ⟨rfl, ⟨_, stored ▸ asked⟩, ?_, fun other apart => ?_⟩
    · exact (congrFun shown _).trans (Function.update_self ..)
    · have keys : programKey other ≠ programKey id := fun same =>
        apart (Subtype.ext (makeCompoundKey_inj.mp same))
      exact (congrFun shown _).trans ((Function.update_of_ne keys _ _).trans (kept other))

/-- An upload that goes through is entitled exactly when nothing was stored or the stored
program was asked, which it is behind odd prefixes. -/
theorem entitled_iff (verified : Verified env.crypto tx before)
    (gave : (applyUploadProgram env id bytecode).Returns before (.controller .ok) after) :
    Entitled env tx id before ↔
      id.viewProgram = true ∨ before.view (programKey id) = none := by
  obtain ⟨failed, -⟩ | ⟨-, ⟨checked, asked⟩, -, -⟩ := applyUploadProgram_outcome gave
  · exact absurd failed (by decide)
  have granted := returns_requireAuthority asked
  constructor
  · rintro (⟨absent, -⟩ | ⟨-, type, -⟩)
    · exact .inr absent
    · exact .inl (viewProgram_of_type type)
  · intro condition
    cases stored : before.view (programKey id) with
    | none =>
      rw [stored] at granted
      exact .first stored (signed_of_authority verified (viewProgram_userAccount id) granted)
    | some object =>
      have isProgram : id.viewProgram = true := condition.resolve_right (by simp [stored])
      rw [stored] at granted
      have vouched := (checkAuthority_answer granted).mp rfl
      rw [Option.isSome_some, if_pos rfl, Vouched, if_pos isProgram] at vouched
      obtain ⟨charged, output, mid, byte, paid, ran, single, set⟩ := vouched
      have type := (type_of_viewProgram isProgram).resolve_right (runProgramAt_type ran)
      exact .later stored type paid ran single set

end Context

/-- Among operations that are applied in order, one is begun in a context; those before it went
well. -/
inductive Begun (env : Env) (operation : Operation) (mid : Context) :
    List Operation → Context → Prop where
  | here {rest : List Operation} : Begun env operation mid (operation :: rest) mid
  | there {first : Operation} {rest : List Operation} {before between : Context}
      {code : ErrorCode} :
      (Context.applyOperation env first).Returns before code between →
        code.failed = false → Begun env operation mid rest between →
        Begun env operation mid (first :: rest) before

/-- A transaction that is applied in a context begins an operation: it is authorized and charged,
and the operation is next on the node that was made for its operations. -/
def BeginsOperation (env : Env) (tx : Transaction) (before : Context)
    (operation : Operation) (mid : Context) : Prop :=
  ∃ authorized charged node heap,
    (authorizeTransaction env tx).Returns
      (beginTransaction tx before) (.ok ()) authorized ∧
    (chargeTransaction tx).Returns authorized (.ok ()) charged ∧
    (makeChild charged.stateNode nullId).Returns charged.heap node heap ∧
    Begun env operation mid tx.operations
      { charged with heap := heap, stateNode := node }

section Begun

variable {env : Env} {tx : Transaction} {operation : Operation}
  {before mid : Context} {property : Context → Prop} (ofTransaction : OfTransaction property)
  (endures : Endures env (Preserving property))

include ofTransaction endures

/-- What operations keep holds when one begins. -/
theorem Begun.holds {operations : List Operation}
    (begun : Begun env operation mid operations before) (start : property before) :
    property mid := by
  induction begun with
  | here => exact start
  | there applied _ _ ih =>
    exact ih ((ofTransaction.applyOperation endures _).of_returns applied start)

/-- What holds of a transaction from its beginning holds when an operation begins. -/
theorem BeginsOperation.holds
    (begins : BeginsOperation env tx before operation mid)
    (start : property (beginTransaction tx before)) : property mid := by
  obtain ⟨authorized, charged, node, heap, authorizes, charges, -, begun⟩ := begins
  have whenAuthorized := (endures.authorizeTransaction tx).of_returns authorizes start
  have whenCharged := (ofTransaction.chargeTransaction tx).of_returns charges whenAuthorized
  exact begun.holds ofTransaction endures (ofTransaction.moved charged heap node whenCharged)

end Begun

namespace Context

variable {env : Env} {tx : Transaction} {id : Account} {bytecode : Bytes}
  {before after : Context}

/-- A moment of a transaction that is applied in a context: it begins an operation, and that is
applied from one context to the next and does not fail. -/
structure Moment (env : Env) (tx : Transaction) (before : Context)
    (operation : Operation) (mid next : Context) : Prop where
  begins : BeginsOperation env tx before operation mid
  applied : ∃ code, (applyOperation env operation).Returns mid code next ∧ code.failed = false

/-- A transaction that begins has verified no signature. -/
theorem beginTransaction_verified : Verified env.crypto tx
    (beginTransaction tx before) :=
  ⟨rfl, by simp [beginTransaction]⟩

variable {mid : Context}

/-- At every moment of a transaction the signers taken as verified have signed it. -/
theorem Moment.verified {operation : Operation} {next : Context}
    (moment : Moment env tx before operation mid next) :
    Verified env.crypto tx mid :=
  moment.begins.holds verified_ofTransaction (verified_endures env tx)
    beginTransaction_verified

/-- An upload that does not fail has stored its program. -/
theorem Moment.uploaded {next : Context}
    (moment : Moment env tx before (.uploadProgram id bytecode) mid next) :
    (applyUploadProgram env id bytecode).Returns mid (.controller .ok) next := by
  obtain ⟨code, applied, well⟩ := moment.applied
  obtain ⟨failed, -⟩ | ⟨rfl, -⟩ := applyUploadProgram_outcome applied
  · exact absurd failed (by simp [well])
  · exact applied

/-- Operations in a row change a stored program only by uploads that go through; the last one
of them is what is stored. -/
theorem applyOperations_programs {operations : List Operation} {code : ErrorCode}
    (gave : (applyOperations env operations).Returns before code after)
    (changed : after.view (programKey id) ≠ before.view (programKey id)) :
    ∃ bytecode mid next, Begun env (.uploadProgram id bytecode) mid operations before ∧
      (∃ code, (applyOperation env (.uploadProgram id bytecode)).Returns mid code next ∧
        code.failed = false) ∧
      after.view (programKey id) = some (programObject env bytecode) := by
  induction operations generalizing before with
  | nil =>
    obtain ⟨-, rfl⟩ := returns_pure.mp gave
    exact absurd rfl changed
  | cons operation rest ih =>
    obtain ⟨first, between, applied, continued⟩ := returns_bind.mp gave
    -- A later operation that changes the program answers for it; otherwise this one does.
    by_cases later : first.failed = false ∧
        after.view (programKey id) ≠ between.view (programKey id)
    · obtain ⟨well, changedLater⟩ := later
      rw [if_neg (by simp [well])] at continued
      obtain ⟨bytecode, mid, next, begun, uploads, shown⟩ := ih continued changedLater
      exact ⟨bytecode, mid, next, .there applied well begun, uploads, shown⟩
    · have last : after.view (programKey id) = between.view (programKey id) := by
        by_cases failed : first.failed = true
        · rw [if_pos failed] at continued
          obtain ⟨-, rfl⟩ := returns_pure.mp continued
          rfl
        · by_contra different
          exact later ⟨by simpa using failed, different⟩
      rw [last] at changed ⊢
      cases operation with
      | callProgram account input =>
        have frame := (applyCallProgram_objects account input).of_returns applied
        exact absurd (frame.view (not_objectKey_programKey id)) changed
      | uploadProgram other bytecode =>
        obtain ⟨-, kept⟩ | ⟨rfl, -, stored, kept⟩ := applyUploadProgram_outcome applied
        · exact absurd (kept id) changed
        · by_cases own : id = other
          · subst own
            exact ⟨bytecode, before, between, .here, ⟨_, applied, rfl⟩, stored⟩
          · exact absurd (kept id own) changed

/-- An applied transaction changes a stored program only by an upload. -/
theorem applyTransaction_programs {receipt : TransactionReceipt} (backed : before.heap.Backed)
    (applied : (applyTransaction env tx).Returns before (.ok receipt) after)
    (changed : after.view (programKey id) ≠ before.view (programKey id)) :
    ∃ bytecode mid next,
      Moment env tx before (.uploadProgram id bytecode) mid next ∧
        after.view (programKey id) = some (programObject env bytecode) := by
  obtain ⟨authorized, charged, executed, code, authorizes, charges, executes, -, rfl⟩ :=
    applyTransaction_phases applied
  have authorizing := (authorizeTransaction_frame tx).of_returns authorizes
  have charging := (chargeTransaction_frame tx).of_returns charges
  have unnamed : programKey id ≠ nonceKey (Transaction.nonceAccount tx) :=
    makeCompoundKey_ne (by decide) _ _
  have shownBefore : charged.view (programKey id) = before.view (programKey id) :=
    (charging.view unnamed).trans (authorizing.view fun isModule =>
      not_objectKey_programKey id (objectKey_of_moduleKey isModule))
  have chargedBacked := charging.heap.backed (authorizing.heap.backed backed)
  obtain ⟨node, heap, outcome, finished, made, ran, started, -, shown⟩ :=
    executeTransaction_views chargedBacked executes
  have shownAfter : (endSession { executed with frames := [] }).view (programKey id) =
      executed.view (programKey id) := rfl
  rw [shownAfter, shown] at changed ⊢
  split at changed
  · exact absurd shownBefore changed
  · rename_i well
    rw [if_neg well]
    have child : (Context.view { charged with heap := heap, stateNode := node }) (programKey id) =
        before.view (programKey id) := (congrFun started _).trans shownBefore
    obtain ⟨bytecode, mid, next, begun, uploads, stored⟩ :=
      applyOperations_programs ran (child ▸ changed)
    exact ⟨bytecode, mid, next, ⟨⟨authorized, charged, node, heap, authorizes, charges, made,
      begun⟩, uploads⟩, stored⟩

end Context

/-- A run of transactions from a context, with the context that each one was applied in. Between
two transactions the work can move to any node that shows the same state: a new block, or the
same node after its block was finalized. -/
inductive TransactionRun (env : Env) (start : Context) :
    List (Transaction × Context) → Context → Prop where
  | start : start.heap.Backed → TransactionRun env start [] start
  | applied {steps : List (Transaction × Context)} {before after : Context}
      {tx : Transaction} {receipt : TransactionReceipt} :
      TransactionRun env start steps before →
        (applyTransaction env tx).Returns before (.ok receipt) after →
        TransactionRun env start (steps ++ [(tx, before)]) after
  | moved {steps : List (Transaction × Context)} {before after : Context} :
      TransactionRun env start steps before → after.heap.Backed →
        after.view = before.view → TransactionRun env start steps after

variable {env : Env} {start after : Context} {steps : List (Transaction × Context)}

/-- A run of transactions leaves the heap backed. -/
theorem TransactionRun.backed (run : TransactionRun env start steps after) :
    after.heap.Backed := by
  induction run with
  | start backed => exact backed
  | applied _ applied ih =>
    exact ((applyTransaction_beyond Heap.shelters_settled _).of_returns applied
      (Nat.zero_le _)).2.backed ih
  | moved _ backed _ _ => exact backed

variable {before mid : Context} {id : Account}

/-- Transactions in a row prolong a run. -/
theorem TransactionRun.transactions {transactions : List Transaction}
    {receipts : List TransactionReceipt} (run : TransactionRun env start steps before)
    (applied : (Context.applyTransactions env transactions).Returns before (.ok receipts) mid) :
    ∃ added, added.map Prod.fst = transactions ∧
      TransactionRun env start (steps ++ added) mid := by
  induction transactions generalizing before receipts steps with
  | nil =>
    obtain ⟨-, rfl⟩ := returns_pure.mp applied
    exact ⟨[], rfl, by rwa [List.append_nil]⟩
  | cons tx rest ih =>
    obtain ⟨receipt, between, first, continued⟩ := returns_andThen_ok.mp applied
    obtain ⟨others, _, later, ended⟩ := returns_andThen_ok.mp continued
    obtain ⟨-, rfl⟩ := returns_pure.mp ended
    obtain ⟨added, same, longer⟩ := ih (.applied run first) later
    rw [List.append_assoc] at longer
    exact ⟨(tx, before) :: added, by rw [List.map_cons, same], longer⟩

/-- The transactions of an applied block prolong a run. -/
theorem TransactionRun.block {block : Block} {receipt : BlockReceipt}
    (run : TransactionRun env start steps before)
    (applied : (applyBlock env block).Returns before (.ok receipt) mid) :
    ∃ added, added.map Prod.fst = block.transactions ∧
      TransactionRun env start (steps ++ added) mid := by
  obtain ⟨last, applies, rfl⟩ := applyBlock_phases applied
  have limited : TransactionRun env start steps { before with
      meter := before.meter.setResourceLimits Context.resourceLimits } :=
    .moved run run.backed rfl
  obtain ⟨added, same, longer⟩ := limited.transactions applies
  exact ⟨added, same, .moved longer longer.backed rfl⟩

/-- A run changes a stored program only by an upload that goes through. -/
theorem TransactionRun.changed (run : TransactionRun env start steps after)
    (changed : after.view (programKey id) ≠ start.view (programKey id)) :
    ∃ step ∈ steps, ∃ bytecode mid next,
      Context.Moment env step.1 step.2 (.uploadProgram id bytecode) mid next ∧
        after.view (programKey id) = some (programObject env bytecode) := by
  induction run with
  | start => exact absurd rfl changed
  | moved _ _ same ih =>
    rw [same] at changed ⊢
    exact ih changed
  | @applied steps before after tx _ earlier applied ih =>
    by_cases kept : after.view (programKey id) = before.view (programKey id)
    · rw [kept] at changed ⊢
      obtain ⟨step, mem, found⟩ := ih changed
      exact ⟨step, List.mem_append_left _ mem, found⟩
    · exact ⟨(tx, before), List.mem_append_right _ List.mem_cons_self,
        applyTransaction_programs earlier.backed applied kept⟩

/-- In every run of transactions a stored program changes only by an upload that goes through,
and such an upload is entitled exactly when nothing was stored for the id or the id has an odd
prefix, so that the stored program was asked. -/
theorem programs_change_by_upload (run : TransactionRun env start steps after)
    (id : Account) :
    (after.view (programKey id) ≠ start.view (programKey id) → ∃ step ∈ steps, ∃ bytecode mid next,
        Context.Moment env step.1 step.2 (.uploadProgram id bytecode) mid next ∧
          after.view (programKey id) = some (programObject env bytecode)) ∧
      ∀ step ∈ steps, ∀ bytecode mid next,
        Context.Moment env step.1 step.2 (.uploadProgram id bytecode) mid next →
          (Entitled env step.1 id mid ↔
            id.viewProgram = true ∨ mid.view (programKey id) = none) := by
  exact ⟨run.changed, fun _ _ _ _ _ moment =>
    entitled_iff moment.verified moment.uploaded⟩

/-- A transaction of a payer that uploads a program and is signed by its owner, too. -/
def uploading (payer owner id : Account) (bytecode : Bytes) : Transaction where
  id := SizedBytes.zero 32
  networkId := SizedBytes.zero 32
  resourceLimit := 1000000
  payer := payer
  payee := SizedBytes.zero 33
  nonce := 1
  operations := [.uploadProgram id bytecode]
  authorizations := [⟨payer, SizedBytes.zero 64⟩, ⟨owner, SizedBytes.zero 64⟩]

/-- The first upload for an id, signed by the user account behind it. -/
def firstUpload (id : Account) : Transaction :=
  uploading (SizedBytes.fit 33 [0, 7]) id.userAccount id [7]

/-- Another upload for the id, signed in the name of the id itself. -/
def secondUpload (id : Account) : Transaction := uploading (SizedBytes.fit 33 [0, 8]) id id [8]

/-- The context that the first upload leaves. -/
def uploadedOnce (env : Env) (id : Account) : Context :=
  (applyTransaction env (firstUpload id) (blockOn [])).2

/-- The context that both uploads leave. -/
def uploadedTwice (env : Env) (id : Account) : Context :=
  (applyTransaction env (secondUpload id) (uploadedOnce env id)).2

/-- The two uploads are a run. -/
theorem run_uploadedTwice
    (first : (applyTransaction env (firstUpload id) (blockOn [])).1.map
      (Except.map TransactionReceipt.reverted) = .ok (.ok false))
    (second : (applyTransaction env (secondUpload id) (uploadedOnce env id)).1.map
      (Except.map TransactionReceipt.reverted) = .ok (.ok false)) :
    TransactionRun env (blockOn [])
      [(firstUpload id, blockOn []), (secondUpload id, uploadedOnce env id)]
      (uploadedTwice env id) := by
  obtain ⟨_, appliesFirst, -⟩ := returns_ok_of_map_fst first
  obtain ⟨_, appliesSecond, -⟩ := returns_ok_of_map_fst second
  exact .applied (.applied (.start (backed_blockOn [])) appliesFirst) appliesSecond

/-- The phases of the second upload up to the node made for it, evaluated. -/
def secondAuthorized (env : Env) (id : Account) :=
  authorizeTransaction env (secondUpload id)
    (beginTransaction (secondUpload id) (uploadedOnce env id))

def secondCharged (env : Env) (id : Account) :=
  chargeTransaction (secondUpload id) (secondAuthorized env id).2

def secondNode (env : Env) (id : Account) :=
  makeChild (secondCharged env id).2.stateNode nullId
    (secondCharged env id).2.heap

/-- The context in which the second upload is applied. -/
def secondStart (env : Env) (id : Account) : Context :=
  { (secondCharged env id).2 with heap := (secondNode env id).2, stateNode := 3 }

/-- The second upload is a moment of that run. -/
theorem moment_secondUpload (authorizes : (secondAuthorized env id).1 = .ok (.ok ()))
    (charges : (secondCharged env id).1 = .ok (.ok ())) (makes : (secondNode env id).1 = .ok 3)
    (uploads : (applyUploadProgram env id [8] (secondStart env id)).1 = .ok (.controller .ok)) :
    Context.Moment env (secondUpload id) (uploadedOnce env id)
      (.uploadProgram id [8]) (secondStart env id)
      (applyUploadProgram env id [8] (secondStart env id)).2 := by
  exact ⟨⟨(secondAuthorized env id).2, (secondCharged env id).2, 3, (secondNode env id).2,
    returns_of_fst authorizes, returns_of_fst charges, returns_of_fst makes,
    .here⟩, _, returns_of_fst uploads, rfl⟩

/-- An id with the prefix of modules. -/
def moduleId : Account := SizedBytes.fit 33 [1, 9]

/-- Modules that authorize everything. -/
def granting : Env :=
  { Env.plain with
    runModule := fun _ _ => .call (.write .stdout [1]) fun _ => .done (.exited 0) }

/-- A module is uploaded and then replaced with its own authority. -/
theorem programs_change_by_upload_of_module :
    ∃ bytecode mid next, Context.Moment granting (secondUpload moduleId)
        (uploadedOnce granting moduleId) (.uploadProgram moduleId bytecode) mid next ∧
      mid.view (programKey moduleId) = some (programObject granting [7]) ∧
      Entitled granting (secondUpload moduleId) moduleId mid ∧
      next.view (programKey moduleId) = some (programObject granting [8]) := by
  have run := @run_uploadedTwice granting moduleId (by decide +kernel) (by decide +kernel)
  have moment : Context.Moment granting (secondUpload moduleId) (uploadedOnce granting moduleId)
      (.uploadProgram moduleId [8]) (secondStart granting moduleId)
      (applyUploadProgram granting moduleId [8] (secondStart granting moduleId)).2 :=
    moment_secondUpload (by decide +kernel) (by decide +kernel) (by decide +kernel)
      (by decide +kernel)
  refine ⟨[8], _, _, moment, view_of_get (by decide +kernel), ?_,
    view_of_get (by decide +kernel)⟩
  exact ((programs_change_by_upload run moduleId).2 _ (List.mem_cons_of_mem _ List.mem_cons_self)
    _ _ _ moment).mpr (.inl (by decide))

/-- An id with the prefix of native programs, which `upload_program::validate` admits. -/
def evenId : Account := SizedBytes.fit 33 [2, 9]

/-- Behind an even prefix a stored program is replaced on a signature in the name of the id,
and the stored program is not run. -/
theorem stored_program_replaced_on_signature :
    (Operation.uploadProgram evenId [8]).validate = true ∧
      TransactionRun .plain (blockOn [])
        [(firstUpload evenId, blockOn []), (secondUpload evenId, uploadedOnce .plain evenId)]
        (uploadedTwice .plain evenId) ∧
      ∃ mid next, Context.Moment .plain (secondUpload evenId) (uploadedOnce .plain evenId)
          (.uploadProgram evenId [8]) mid next ∧
        mid.view (programKey evenId) = some (programObject .plain [7]) ∧
        ¬ Entitled .plain (secondUpload evenId) evenId mid ∧
        (uploadedTwice .plain evenId).view (programKey evenId) =
          some (programObject .plain [8]) := by
  have stored : (secondStart .plain evenId).view (programKey evenId) =
      some (programObject .plain [7]) := view_of_get (by decide +kernel)
  refine ⟨by decide, run_uploadedTwice (by decide +kernel) (by decide +kernel), _, _,
    moment_secondUpload (by decide +kernel) (by decide +kernel) (by decide +kernel)
      (by decide +kernel), stored, ?_, view_of_get (by decide +kernel)⟩
  rintro (⟨absent, -⟩ | ⟨-, type, -⟩)
  · rw [stored] at absent
    cases absent
  · exact absurd type (by decide)

end Respublica.Controller
