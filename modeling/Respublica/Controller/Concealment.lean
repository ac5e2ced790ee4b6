import Respublica.Controller.Apply
import Respublica.Foundation.Simulation

/-!
# Relations that execution does not see through

Applying a transaction looks at the objects its state node shows and at the context's own
fields, and at the intent only to see whether it is read-only. A relation of contexts that
agrees in all this, and that is kept by the same writes on both sides, is kept by every routine,
and every routine gives the same results in related contexts. What the coin program finds in
locals that were never written is left to the environment, and has to be the same in related
contexts.
-/

namespace Respublica.Controller

open Foundation Effect Crypto Program Protocol StateDb Context

namespace Context

/-- Related contexts differ in their deltas, in the node they work on and in their intent. They
are both read-only or neither, show the same objects, and stay related when the same is done
to both. -/
structure Conceals (rel : Context → Context → Prop) : Prop where
  fields : ∀ {left right : Context}, rel left right → ∃ heap node intent,
    right = { left with heap := heap, stateNode := node, intent := intent }
  modes : ∀ {left right : Context}, rel left right →
    (left.intent = .readOnly ↔ right.intent = .readOnly)
  others : ∀ {left right : Context}, rel left right →
    ∀ stack transaction meter frames verifiedSignatures, rel
      { left with stack, transaction, meter, frames, verifiedSignatures }
      { right with stack, transaction, meter, frames, verifiedSignatures }
  reads : ∀ {left right : Context}, rel left right → ∀ key,
    left.heap.get left.stateNode key = right.heap.get right.stateNode key
  puts : ∀ space key value, Simulates rel (putState space key value)
    (putState space key value)
  removes : ∀ space key, Simulates rel (removeState space key) (removeState space key)

/-- A routine gives the same results in related contexts. -/
abbrev Parallel {Value : Type} (rel : Context → Context → Prop) (routine : Run Value) : Prop :=
  Simulates rel routine routine

/-- What unwritten locals hold is the same in related contexts. -/
def LocalsAgreeOn (rel : Context → Context → Prop) (env : Env) : Prop :=
  ∀ left right, rel left right → env.locals left = env.locals right

/-- Routines with results compose in parallel. -/
theorem parallel_andThen {rel : Context → Context → Prop} {First Second : Type}
    {first : Run (Result First)} {next : First → Run (Result Second)}
    (starts : Parallel rel first) (continues : ∀ value, Parallel rel (next value)) :
    Parallel rel (Controller.andThen first next) := by
  refine simulates_bind starts fun outcome => ?_
  cases outcome with
  | error error => exact simulates_pure _
  | ok value => exact continues value

namespace Conceals

variable {rel : Context → Context → Prop} (conceals : Conceals rel)

include conceals

/-- After looking at its context a routine goes on with fields that are the same on both sides,
unless it has looked at its deltas, its node or its intent. -/
theorem observe {Value : Type} {next : Context → Run Value}
    (continues : ∀ context heap node intent, Simulates rel (next context)
      (next { context with heap := heap, stateNode := node, intent := intent })) :
    Parallel rel (Effect.read >>= next) := by
  refine simulates_read fun left right related => ?_
  obtain ⟨heap, node, intent, rfl⟩ := conceals.fields related
  exact continues left heap node intent

/-- The same change of other fields keeps contexts related. -/
theorem change {change : Context → Context}
    (apart : ∀ context heap node intent,
      change { context with heap := heap, stateNode := node, intent := intent } =
        { change context with heap := heap, stateNode := node, intent := intent }) :
    ∀ left right, rel left right → rel (change left) (change right) := by
  intro left right related
  have changed := conceals.others related (change left).stack (change left).transaction
    (change left).meter (change left).frames (change left).verifiedSignatures
  have leftChanged := apart left left.heap left.stateNode left.intent
  obtain ⟨heap, node, intent, rfl⟩ := conceals.fields related
  have rightChanged := apart left heap node intent
  exact leftChanged.symm ▸ rightChanged.symm ▸ changed

/-- A change apart from heap, node and intent runs in parallel. -/
theorem modify {change : Context → Context}
    (apart : ∀ context heap node intent,
      change { context with heap := heap, stateNode := node, intent := intent } =
        { change context with heap := heap, stateNode := node, intent := intent }) :
    Parallel rel (Effect.modify change) :=
  simulates_modify (conceals.change apart)

/-- Work on the meter runs in parallel. -/
theorem onMeter {Value : Type} (routine : Effect Fault Meter Value) :
    Parallel rel (onMeter routine) := by
  have same : Simulates Eq routine routine := by
    rintro left _ value mid rfl gave
    exact ⟨mid, gave, rfl⟩
  refine simulates_within same ?_ ?_
  · intro left right related
    obtain ⟨heap, node, intent, rfl⟩ := conceals.fields related
    rfl
  · rintro left right meter _ related rfl
    have changed : ∀ left right, rel left right →
        rel { left with meter := meter } { right with meter := meter } :=
      conceals.change fun _ _ _ _ => rfl
    exact changed left right related

section Calls

/-- Related contexts read the same objects. -/
theorem getState (space : ObjectSpace) (key : Bytes) :
    Parallel rel (getState space key) := by
  refine simulates_read fun left right related => ?_
  rw [conceals.reads related]
  exact simulates_ofExcept _

theorem chargeCall : Parallel rel chargeCall :=
  simulates_bind (conceals.onMeter _) fun _ => simulates_pure _

theorem peekFrame : Parallel rel peekFrame := by
  refine conceals.observe fun context heap node intent => ?_
  exact simulates_expect _ _

theorem pushFrame (frame : StackFrame) : Parallel rel (pushFrame frame) := by
  refine conceals.observe fun context heap node intent => ?_
  exact simulates_ite (simulates_pure _) (simulates_bind
    (conceals.modify fun _ _ _ _ => rfl) fun _ => simulates_pure _)

theorem updateFrame (change : StackFrame → StackFrame) :
    Parallel rel (updateFrame change) :=
  conceals.modify fun _ _ _ _ => rfl

theorem arguments : Parallel rel arguments := by
  refine conceals.observe fun context heap node intent => ?_
  exact simulates_ite (simulates_fail _ _) (simulates_bind
    conceals.chargeCall fun _ => simulates_bind conceals.peekFrame fun _ =>
      simulates_pure _)

theorem write (descriptor : FileDescriptor) (buffer : Bytes) :
    Parallel rel (write descriptor buffer) := by
  refine simulates_bind conceals.chargeCall fun _ => ?_
  cases descriptor with
  | stdin => exact simulates_pure _
  | stdout =>
    exact simulates_bind conceals.peekFrame fun _ =>
      simulates_bind (conceals.updateFrame _) fun _ => simulates_pure _
  | stderr =>
    exact simulates_bind conceals.peekFrame fun _ =>
      simulates_bind (conceals.updateFrame _) fun _ => simulates_pure _

theorem read (descriptor : FileDescriptor) (size : Nat) :
    Parallel rel (read descriptor size) := by
  refine simulates_bind conceals.chargeCall fun _ => ?_
  cases descriptor with
  | stdin =>
    exact simulates_bind conceals.peekFrame fun _ =>
      simulates_bind (conceals.updateFrame _) fun _ => simulates_pure _
  | stdout => exact simulates_pure _
  | stderr => exact simulates_pure _

theorem createObjectSpace (id : UInt32) : Parallel rel (createObjectSpace id) :=
  simulates_bind conceals.peekFrame fun _ => simulates_pure _

theorem getObject (id : UInt32) (key : Bytes) : Parallel rel (getObject id key) :=
  simulates_bind conceals.chargeCall fun _ =>
    simulates_bind (conceals.createObjectSpace id) fun _ =>
      simulates_bind (conceals.getState _ _) fun _ => simulates_pure _

theorem getNeighbour (id : UInt32) (key : Bytes) : Parallel rel (getNeighbour id key) :=
  simulates_bind conceals.chargeCall fun _ =>
    simulates_bind (conceals.createObjectSpace id) fun _ => simulates_pure _

theorem putObject (id : UInt32) (key value : Bytes) :
    Parallel rel (putObject id key value) :=
  simulates_bind conceals.chargeCall fun _ =>
    simulates_bind (conceals.createObjectSpace id) fun _ =>
      simulates_bind (conceals.puts _ _ _) fun _ => conceals.onMeter _

theorem removeObject (id : UInt32) (key : Bytes) : Parallel rel (removeObject id key) :=
  simulates_bind conceals.chargeCall fun _ =>
    simulates_bind (conceals.createObjectSpace id) fun _ =>
      simulates_bind (conceals.removes _ _) fun _ => conceals.onMeter _

theorem getCaller : Parallel rel getCaller := by
  refine simulates_bind conceals.chargeCall fun _ =>
    conceals.observe fun context heap node intent => ?_
  exact simulates_ite (simulates_pure _)
    (simulates_bind conceals.peekFrame fun _ => simulates_pure _)

/-- Related contexts find the same signers. -/
theorem scanAuthorizations (crypto : Primitives) (id : Digest) (account : Account)
    (authorizations : List Authorization) :
    Parallel rel (scanAuthorizations crypto id account authorizations) := by
  induction authorizations with
  | nil => exact simulates_pure _
  | cons authorization rest ih =>
    refine simulates_ite (simulates_bind (conceals.modify fun _ _ _ _ => rfl) fun _ => ?_)
      (simulates_pure _)
    exact simulates_ite (simulates_pure _) ih

/-- Related contexts check signatures alike. -/
theorem checkSignature (crypto : Primitives) (account : Account) :
    Parallel rel (checkSignature crypto account) := by
  refine conceals.observe fun context heap node intent => ?_
  refine simulates_bind (simulates_expect _ _) fun tx => ?_
  exact simulates_ite (simulates_pure _) (conceals.scanAuthorizations _ _ _ _)

theorem getMeterTicks : Parallel rel getMeterTicks := by
  refine conceals.observe fun context heap node intent => ?_
  exact simulates_pure _

end Calls

section Programs

variable {env : Env} {crypto : Primitives} {run : Runner}

section

variable (runs : ∀ tolerance account stdin arguments,
    Parallel rel (run tolerance account stdin arguments))
include runs

/-- Asking for authority, when programs can be run. -/
theorem checkAuthority
    (account : Account) : Parallel rel (checkAuthority crypto run account) := by
  refine simulates_bind conceals.chargeCall fun _ => simulates_read ?_
  intro left right related
  have modes := conceals.modes related
  obtain ⟨heap, node, intent, rfl⟩ := conceals.fields related
  by_cases mode : left.intent = .readOnly
  · rw [if_pos mode, if_pos (modes.mp mode)]
    exact simulates_pure _
  · rw [if_neg mode, if_neg fun other => mode (modes.mpr other)]
    exact simulates_ite
      (simulates_bind (runs _ _ _ _) fun _ => simulates_pure _)
      (conceals.checkSignature _ _)

/-- A system call is answered alike, if programs run alike. -/
theorem answerSystem (call : SystemCall) : Parallel rel (answerSystem crypto run call) := by
  cases call with
  | arguments => exact conceals.arguments
  | write descriptor buffer => exact conceals.write descriptor buffer
  | read descriptor size => exact conceals.read descriptor size
  | getObject id key => exact conceals.getObject id key
  | getNextObject id key => exact conceals.getNeighbour id key
  | getPrevObject id key => exact conceals.getNeighbour id key
  | putObject id key value => exact conceals.putObject id key value
  | removeObject id key => exact conceals.removeObject id key
  | checkAuthority account => exact conceals.checkAuthority runs account
  | getCaller => exact conceals.getCaller
  | callProgram account stdin arguments =>
    exact simulates_bind conceals.chargeCall fun _ => runs _ _ _ _

/-- A host call is answered alike, if programs run alike. -/
theorem answerHost (call : HostCall) : Parallel rel (answerHost crypto run call) := by
  cases call with
  | arguments => exact conceals.arguments
  | write descriptor buffer => exact conceals.write descriptor buffer
  | read descriptor size => exact conceals.read descriptor size
  | getCaller => exact conceals.getCaller
  | getObject id key => exact conceals.getObject id key
  | putObject id key value => exact conceals.putObject id key value
  | checkAuthority account => exact conceals.checkAuthority runs account
  | getMeterTicks => exact conceals.getMeterTicks
  | useMeterTicks ticks => exact conceals.onMeter _

end

/-- A program is executed alike, if the locals of coin agree. -/
theorem executeProgram (localsAgree : LocalsAgreeOn rel env)
    (runs : ∀ tolerance account stdin arguments,
      Parallel rel (run tolerance account stdin arguments))
    (account : Account) : Parallel rel (Context.executeProgram env run account) := by
  unfold Context.executeProgram
  split
  · refine simulates_onFault (simulates_bind (conceals.getState _ _) fun object => ?_)
    cases object with
    | none => exact simulates_pure _
    | some object =>
      exact simulates_ite (simulates_fail _ _)
        (Interaction.simulates_interpret (conceals.answerHost runs) _)
  · refine simulates_onFault (simulates_ite (simulates_read ?_) (simulates_pure _))
    intro left right related
    rw [localsAgree left right related]
    exact Interaction.simulates_interpret (conceals.answerSystem runs) _
  · exact simulates_pure _

theorem recordFrame (account : Account) (stdin : Bytes) (arguments : List Bytes)
    (code : ErrorCode) : Parallel rel (recordFrame account stdin arguments code) :=
  simulates_bind conceals.peekFrame fun _ =>
    simulates_bind (conceals.modify fun _ _ _ _ => rfl) fun _ =>
      simulates_pure _

/-- Running programs, however deep. -/
theorem runProgramAt (localsAgree : LocalsAgreeOn rel env) (room : Nat) :
    ∀ tolerance account stdin arguments,
      Parallel rel (runProgramAt env room tolerance account stdin arguments) := by
  induction room with
  | zero => exact fun _ _ _ _ => simulates_pure _
  | succ room ih =>
    intro tolerance account stdin arguments
    refine simulates_bind (conceals.pushFrame _) fun pushed =>
      simulates_ite (simulates_pure _) (simulates_ensuring
        (simulates_bind (conceals.executeProgram localsAgree ih account) fun code => ?_)
        (conceals.change fun _ _ _ _ => rfl))
    exact simulates_ite (simulates_pure _)
      (simulates_bind (conceals.recordFrame _ _ _ _) fun _ => simulates_pure _)

end Programs

section Transactions

variable {env : Env}

section

variable (localsAgree : LocalsAgreeOn rel env)
include localsAgree

theorem requireAuthority (account : Account) :
    Parallel rel (requireAuthority env account) := by
  refine simulates_bind (conceals.checkAuthority
    (conceals.runProgramAt localsAgree fullRoom) account) fun answer => ?_
  rcases answer with error | (_ | _) <;> exact simulates_pure _

/-- Operations are applied alike. -/
theorem applyOperation (operation : Operation) :
    Parallel rel (applyOperation env operation) := by
  cases operation with
  | uploadProgram id bytecode =>
    refine simulates_bind (conceals.getState _ _) fun existing =>
      simulates_bind (conceals.requireAuthority localsAgree _) fun answer => ?_
    cases answer with
    | error error => exact simulates_pure _
    | ok value =>
      exact simulates_bind (conceals.puts _ _ _) fun _ => simulates_pure _
  | callProgram id input =>
    refine simulates_bind (conceals.runProgramAt localsAgree fullRoom _ _ _ _)
      fun outcome => ?_
    cases outcome with
    | error error => exact simulates_pure _
    | ok output => exact simulates_pure _

theorem applyOperations
    (operations : List Operation) : Parallel rel (applyOperations env operations) := by
  induction operations with
  | nil => exact simulates_pure _
  | cons operation rest ih =>
    exact simulates_bind (conceals.applyOperation localsAgree operation) fun _ =>
      simulates_ite (simulates_pure _) ih

/-- Authority is asked for alike. -/
theorem authorizeTransaction
    (tx : Transaction) : Parallel rel (authorizeTransaction env tx) :=
  simulates_ite (simulates_pure _)
    (parallel_andThen (conceals.requireAuthority localsAgree _) fun _ =>
      simulates_ite (conceals.requireAuthority localsAgree _) (simulates_pure _))

end

theorem accountNonce (account : Account) : Parallel rel (accountNonce account) := by
  refine simulates_bind (conceals.getState _ _) fun found => ?_
  cases found with
  | none => exact simulates_pure _
  | some bytes => exact simulates_ite (simulates_fail _ _) (simulates_pure _)

/-- Transactions are charged alike. -/
theorem chargeTransaction (tx : Transaction) :
    Parallel rel (chargeTransaction tx) := by
  have unless_ {code : Run ErrorCode} (parallel : Parallel rel code) :
      Parallel rel (unlessFailed code) :=
    simulates_bind parallel fun _ => simulates_pure _
  refine simulates_bind (conceals.accountNonce _) fun nonce =>
    simulates_ite (simulates_pure _) (parallel_andThen (unless_ ?_) fun _ =>
      unless_ (conceals.onMeter _))
  exact simulates_bind (conceals.puts _ _ _) fun _ => conceals.onMeter _

/-- Receipts are made out alike. -/
theorem transactionReceipt (tx : Transaction) (initial : ResourceState)
    (code : ErrorCode) : Parallel rel (transactionReceipt tx initial code) := by
  refine conceals.observe fun context heap node intent => ?_
  exact simulates_bind (conceals.modify fun _ _ _ _ => rfl) fun _ =>
    simulates_pure _

section Blocks

variable (localsAgree : LocalsAgreeOn rel env)
  (executes : ∀ tx, Parallel rel (executeTransaction env tx))

include localsAgree executes

/-- Applying a transaction gives the same receipt in related contexts, if executing it does. -/
theorem applyTransaction (tx : Transaction) :
    Parallel rel (applyTransaction env tx) := by
  refine simulates_ensuring (conceals.observe fun context heap node intent => ?_)
    (conceals.change fun _ _ _ _ => rfl)
  refine simulates_bind (conceals.modify fun _ _ _ _ => rfl) fun _ => ?_
  refine parallel_andThen (conceals.authorizeTransaction localsAgree tx) fun _ => ?_
  refine parallel_andThen (conceals.chargeTransaction tx) fun _ => ?_
  refine simulates_bind (executes tx) fun code => ?_
  exact simulates_bind (conceals.transactionReceipt _ _ _) fun _ => simulates_pure _

theorem applyTransactions (transactions : List Transaction) :
    Parallel rel (applyTransactions env transactions) := by
  induction transactions with
  | nil => exact simulates_pure _
  | cons tx rest ih =>
    exact parallel_andThen (conceals.applyTransaction localsAgree executes tx) fun _ =>
      parallel_andThen ih fun _ => simulates_pure _

/-- So does applying a block. -/
theorem applyBlock (block : Block) : Parallel rel (applyBlock env block) := by
  refine simulates_bind (conceals.modify fun _ _ _ _ => rfl) fun _ => ?_
  refine conceals.observe fun start _ _ _ => ?_
  refine simulates_bind (conceals.getState _ _) fun key => ?_
  cases key with
  | none => exact simulates_fail _ _
  | some key =>
    refine simulates_ite (simulates_pure _) (parallel_andThen
      (conceals.applyTransactions localsAgree executes block.transactions) fun receipts => ?_)
    refine conceals.observe fun context _ _ _ => ?_
    exact simulates_bind (conceals.modify fun _ _ _ _ => rfl) fun _ =>
      simulates_pure _

end Blocks

end Transactions

end Conceals

end Context

end Respublica.Controller
