import Respublica.Controller.SignatureMemo

/-!
# Programs that are authorized by a signature

Whether an account is asked for authority by running its program is decided by one bit of its
prefix, which modules have and native programs do not. So a native program is never asked: a
signature with the key that its account happens to spell is taken for it. Asked, the coin
program says no.
-/

namespace Respublica.Controller

open Foundation Effect Crypto Program Protocol StateDb Context

namespace Context

variable {before after : Context}

variable {frame : StackFrame} {below : List StackFrame} {code : ErrorCode} {env : Env}
  {account : Account} {output : ProgramOutput}

/-- Reading from the input gives the next bytes of the frame on top and moves its position. -/
theorem returns_readStdin {size : Nat} {answer : ErrorCode × Bytes}
    (stacked : before.stack = frame :: below)
    (gave : (read .stdin size).Returns before answer after) :
    answer = (.controller .ok, (frame.stdin.drop frame.stdinOffset).take size) ∧
      after.stack = { frame with stdinOffset := frame.stdinOffset + answer.2.length } :: below := by
  obtain ⟨_, charged, paid, rest⟩ := returns_bind.mp gave
  have top : charged.stack = frame :: below := by rw [eq_of_chargeCall paid, stacked]
  obtain ⟨found, _, peeked, updates⟩ := returns_bind.mp rest
  obtain ⟨isTop, rfl⟩ := returns_peekFrame.mp peeked
  rw [top] at isTop
  obtain rfl := Option.some.inj isTop
  obtain ⟨_, updated, changes, ended⟩ := returns_bind.mp updates
  obtain rfl := returns_modify.mp changes
  obtain ⟨rfl, rfl⟩ := returns_pure.mp ended
  refine ⟨rfl, ?_⟩
  rw [top]
  rfl

/-- Writing to the output appends to that of the frame on top. -/
theorem returns_writeStdout {buffer : Bytes} (stacked : before.stack = frame :: below)
    (gave : (write .stdout buffer).Returns before code after) :
    after.stack = { frame with stdout := frame.stdout ++ buffer } :: below := by
  obtain ⟨_, charged, paid, rest⟩ := returns_bind.mp gave
  have top : charged.stack = frame :: below := by rw [eq_of_chargeCall paid, stacked]
  obtain ⟨found, _, peeked, updates⟩ := returns_bind.mp rest
  obtain ⟨-, rfl⟩ := returns_peekFrame.mp peeked
  obtain ⟨_, updated, changes, ended⟩ := returns_bind.mp updates
  obtain rfl := returns_modify.mp changes
  obtain ⟨-, rfl⟩ := returns_pure.mp ended
  rw [top]
  rfl

/-- Asked to authorize, the coin program writes a zero. -/
theorem coin_says_no {run : Runner} {locals : Coin.Locals} (stacked : before.stack = frame :: below)
    (input : frame.stdin = littleEndian 4 0) (start : frame.stdinOffset = 0)
    (ran : (Interaction.interpret (answerSystem env.crypto run) (Coin.run locals)).Returns before
      code after) :
    after.stack.head?.map StackFrame.stdout = some (frame.stdout ++ [0]) := by
  obtain ⟨answer, mid, reads, continued⟩ := returns_bind.mp ran
  obtain ⟨rfl, readStack⟩ := returns_readStdin stacked reads
  rw [start, input] at continued
  obtain ⟨_, written, writes, ended⟩ := returns_bind.mp continued
  obtain ⟨-, rfl⟩ := returns_pure.mp ended
  rw [returns_writeStdout readStack writes]
  rfl

/-- What a frame returns is what the program wrote to its output. -/
theorem recordFrame_stdout {stdin : Bytes} {arguments : List Bytes}
    (recorded : (recordFrame account stdin arguments code).Returns before output after) :
    before.stack.head?.map StackFrame.stdout = some output.stdout := by
  obtain ⟨top, _, peeked, rest⟩ := returns_bind.mp recorded
  obtain ⟨isTop, rfl⟩ := returns_peekFrame.mp peeked
  obtain ⟨_, _, -, ended⟩ := returns_bind.mp rest
  obtain ⟨rfl, -⟩ := returns_pure.mp ended
  rw [isTop]
  rfl

/-- No native program authorizes anything: the coin program refuses, and there is no other. -/
theorem native_says_no {room : Nat} (native : account.type = .nativeProgram)
    (ran : (runProgramAt env room .strict account (littleEndian 4 0) []).Returns before
      (.ok output) after) :
    output.stdout = [0] := by
  cases room with
  | zero => cases (returns_pure.mp ran).1
  | succ room =>
    rw [Effect.Returns, runProgramAt_succ] at ran
    split at ran
    · cases ran
    obtain ⟨mid, inner, -⟩ := returns_ensuring.mp ran
    obtain ⟨code, executed, executes, ended⟩ := returns_bind.mp inner
    simp only [executeProgram, native, executeNativeProgram, returns_onFault,
      returns_ite] at executes
    split at executes
    · -- The coin program has written its zero when its frame is recorded.
      obtain ⟨_, _, ⟨rfl, rfl⟩, runs⟩ := by
        simpa only [returns_bind, returns_read] using executes
      have wrote := coin_says_no rfl rfl rfl runs
      split at ended
      · cases (returns_pure.mp ended).1
      · obtain ⟨recorded, _, records, final⟩ := returns_bind.mp ended
        obtain ⟨same, -⟩ := returns_pure.mp final
        obtain rfl := Except.ok.inj same
        rw [recordFrame_stdout records] at wrote
        exact Option.some.inj wrote
    · obtain ⟨rfl, -⟩ := returns_pure.mp executes
      have surfaced : surfaces .strict account (.controller .invalidProgram) = true := by
        unfold surfaces
        rw [native]
        rfl
      rw [if_pos surfaced] at ended
      cases (returns_pure.mp ended).1

end Context

/-- The authority of a program was given by its authorize instruction: it ran from the context
of the question and wrote one byte that is not zero. -/
def AnsweredByProgram (env : Env) (room : Nat) (account : Account)
    (context after : Context) : Prop :=
  ∃ charged output byte, chargeCall.Returns context () charged ∧
    (runProgramAt env room .strict account (littleEndian 4 0) []).Returns charged
      (.ok output) after ∧ output.stdout = [byte] ∧ byte ≠ 0

section Authority

variable {env : Env} {tx : Transaction} {account : Account} {room : Nat}
  {before context after : Context}

/-- Authority is granted by the program of an account with the bit of a module, and by a check
of signatures otherwise. -/
theorem granted_cases
    (granted : (checkAuthority env.crypto
      (runProgramAt env room) account).Returns context (.ok true) after) :
    (account.viewProgram = true ∧ AnsweredByProgram env room account context after) ∨
      (account.viewProgram = false ∧ ∃ charged, chargeCall.Returns context () charged ∧
        (Context.checkSignature env.crypto account).Returns charged (.ok true) after) := by
  obtain ⟨_, charged, paid, rest⟩ := returns_bind.mp granted
  obtain ⟨_, _, reads, asked⟩ := returns_bind.mp rest
  obtain ⟨rfl, rfl⟩ := returns_read.mp reads
  split at asked
  · cases (returns_pure.mp asked).1
  split at asked
  · rename_i isModule
    obtain ⟨answer, _, ran, answered⟩ := returns_bind.mp asked
    obtain ⟨said, rfl⟩ := returns_pure.mp answered
    obtain ⟨output, byte, rfl, single, set⟩ := authorizeAnswer_true_iff.mp said.symm
    exact .inl ⟨isModule, _, output, byte, paid, ran, single, set⟩
  · rename_i notModule
    exact .inr ⟨Bool.eq_false_of_not_eq_true notModule, _, paid, asked⟩

/-- While a transaction is applied, who is granted authority without being run has signed the
transaction. -/
theorem signed_of_granted (asks : Asks env tx before room account context)
    (signs : account.viewProgram = false)
    (granted : (checkAuthority env.crypto
      (runProgramAt env room) account).Returns context (.ok true) after) :
    SignedBy env.crypto tx account := by
  obtain ⟨isModule, -⟩ | ⟨-, charged, paid, checks⟩ := granted_cases granted
  · exact absurd isModule (by simp [signs])
  have verified := asks.holds verified_ofTransaction
    (verified_endures env tx) beginTransaction_verified
  have chargedVerified :=
    (chargeCall_kept verified_ofTransaction.overlooks).of_returns paid verified
  exact checkSignature_signed chargedVerified checks

/-- Native programs do not have the bit of a module. -/
theorem viewProgram_of_native (native : account.type = .nativeProgram) :
    account.viewProgram = false := by
  cases isModule : account.viewProgram with
  | false => rfl
  | true =>
    rcases type_of_viewProgram isModule with type | type <;> rw [type] at native <;>
      cases native

/-- Every account with the bit of a module has a prefix that is not zero. -/
theorem program_of_viewProgram (isModule : account.viewProgram = true) :
    account.program = true := by
  rw [Account.program, bne_iff_ne]
  intro user
  rw [Account.viewProgram, user] at isModule
  cases isModule

/-- A native program never gives its authority. -/
theorem not_answered_of_native (native : account.type = .nativeProgram) :
    ¬ AnsweredByProgram env room account context after := by
  rintro ⟨charged, output, byte, -, ran, single, set⟩
  have refused := native_says_no native ran
  rw [single] at refused
  exact set (List.cons.inj refused).1

/-- A transaction that only its payer has signed. -/
def signedBy (account : Account) (signature : Signature) (digest : Digest) : Transaction where
  id := digest
  networkId := SizedBytes.zero 32
  resourceLimit := 1000000
  payer := account
  payee := SizedBytes.zero 33
  nonce := 1
  operations := []
  authorizations := [⟨account, signature⟩]

/-- A native program with a key that a signature verifies with is granted authority as the payer
of a transaction with that signature. -/
theorem granted_of_signature {signature : Signature} {digest : Digest}
    (native : account.type = .nativeProgram)
    (verifies : env.crypto.verify account.publicKey signature digest = true) :
    ∃ after, (checkAuthority env.crypto (runProgramAt env fullRoom) account).Returns
      (beginTransaction (signedBy account signature digest) (blockOn []))
        (.ok true) after := by
  have memo : Memo env.crypto (signedBy account signature digest)
      (beginTransaction (signedBy account signature digest) (blockOn [])) :=
    memo_beginTransaction (by decide) (by decide)
  obtain ⟨after, granted⟩ := checkAuthority_memo (viewProgram_of_native native) memo
  have found : plainScan env.crypto (signedBy account signature digest).id account
      (signedBy account signature digest).authorizations = .ok true :=
    plainScan_true_iff.mpr ⟨[], ⟨account, signature⟩, [], rfl, rfl, verifies,
      fun _ mem => by cases mem⟩
  exact ⟨after, found ▸ granted⟩

/-- `check_authority` says yes for a program account only as the output of the account's
authorize instruction, wherever it is called while transactions are applied, exactly when the
account is that of a module, or the key that its bytes spell verifies no signature at all. The
two tests for programs agree on the account exactly when it is that of a module. -/
theorem granted_by_program_iff
    (isProgram : account.type = .program ∨ account.type = .nativeProgram) :
    ((∀ tx before room context after, Asks env tx before room account context →
        (checkAuthority env.crypto (runProgramAt env room)
          account).Returns context (.ok true) after →
        AnsweredByProgram env room account context after) ↔
      account.type = .program ∨ ∀ signature digest,
        env.crypto.verify account.publicKey signature digest = false) ∧
    (account.program = true ∧ account.viewProgram = true ↔ account.type = .program) := by
  constructor
  · constructor
    · intro answered
      rcases isProgram with type | native
      · exact .inl type
      · refine .inr fun signature digest => Bool.eq_false_of_not_eq_true fun verifies => ?_
        obtain ⟨after, granted⟩ := granted_of_signature native verifies
        have asks : Asks env (signedBy account signature digest) (blockOn [])
            fullRoom account (beginTransaction (signedBy account signature digest)
              (blockOn [])) := .direct .payer
        exact not_answered_of_native native (answered _ _ _ _ _ asks granted)
    · intro condition tx before room context after asks granted
      obtain ⟨-, answered⟩ | ⟨signs, -⟩ := granted_cases granted
      · exact answered
      · obtain ⟨authorization, -, -, verifies⟩ := signed_of_granted asks signs granted
        rcases condition with type | never
        · rw [viewProgram_of_type type] at signs
          cases signs
        · rw [never] at verifies
          cases verifies
  · constructor
    · rintro ⟨-, isModule⟩
      refine isProgram.resolve_right fun native => ?_
      rw [viewProgram_of_native native] at isModule
      cases isModule
    · intro type
      have isModule := viewProgram_of_type type
      exact ⟨program_of_viewProgram isModule, isModule⟩

/-- The account of a module is asked by running it. -/
theorem granted_by_program_of_module : moduleId.type = .program ∧
    ∀ tx before room context after,
      Asks .plain tx before room moduleId context →
      (checkAuthority Env.plain.crypto (runProgramAt .plain room)
        moduleId).Returns context (.ok true) after →
      AnsweredByProgram .plain room moduleId context after :=
  ⟨by decide, (granted_by_program_iff (.inl (by decide))).1.mpr (.inl (by decide))⟩

/-- The prefix of native programs in front of the key of a user. -/
def nativeId : Account := SizedBytes.fit 33 [2, 7]

/-- The user signs a transaction in the name of the native program and pays with its authority,
which no program has given. -/
theorem native_is_authorized_by_signature :
    nativeId.type = .nativeProgram ∧ nativeId.program = true ∧ nativeId.viewProgram = false ∧
    ∃ context after, Asks .plain (signedBy nativeId (SizedBytes.zero 64) (SizedBytes.zero 32))
        (blockOn []) fullRoom nativeId context ∧
      (checkAuthority Env.plain.crypto
        (runProgramAt .plain fullRoom) nativeId).Returns context (.ok true) after ∧
      ¬ AnsweredByProgram .plain fullRoom nativeId context after := by
  have native : nativeId.type = .nativeProgram := by decide
  obtain ⟨after, granted⟩ := granted_of_signature native
    (show Env.plain.crypto.verify nativeId.publicKey (SizedBytes.zero 64)
      (SizedBytes.zero 32) = true from rfl)
  refine ⟨native, by decide, by decide, _, after, .direct .payer, granted, ?_⟩
  exact not_answered_of_native native

end Authority

end Respublica.Controller
