import Respublica.Controller.Frame

/-!
# Who can spend coins

The guard of `transfer` and `burn` lets a request pass when the source is the caller or
when asking for its authority came back with a value. An answer of `false` is a value.
So a spend that completes was authorized exactly when the source is the caller or is
vouched for: by its own authorize instruction if it is a module, by a signature
otherwise. Nothing in the program makes sure of that.
-/

namespace Respublica.Controller

open Foundation Effect Program Protocol StateDb Interaction Coin

/-- The request takes coins away from the account. -/
def Spends (source : Account) : Coin.Request → Prop
  | .transfer sender _ value => sender = source ∧ value ≠ 0
  | .burn owner value => owner = source ∧ value ≠ 0
  | _ => False

/-- Among the calls of a run, the caller was found to be the account or its authority was
asked for and granted. -/
def Authorized (source : Account) (events : List (Interaction.Event SystemCall.Response)) : Prop :=
  ⟨.getCaller, source.1⟩ ∈ events ∨ ⟨.checkAuthority source, .ok true⟩ ∈ events

instance (source : Account) (events : List (Interaction.Event SystemCall.Response)) :
    Decidable (Authorized source events) :=
  inferInstanceAs (Decidable (_ ∨ _))

/-- A module vouches for itself with a non-zero byte, any other account by being a signer
that is verified already or will be looked at. -/
def Vouched (env : Env) (room : Nat) (account : Account) (context : Context) :
    Prop :=
  if account.viewProgram then
    ∃ charged output after byte, Context.chargeCall.Returns context () charged ∧
      (Context.runProgramAt env room .strict account (littleEndian 4 0) []).Returns charged
        (.ok output) after ∧ output.stdout = [byte] ∧ byte ≠ 0
  else
    account ∈ context.verifiedSignatures ∨
      ∃ tx, context.transaction = some tx ∧
        account ∈ (tx.authorizations.drop context.verifiedSignatures.length).map
          Authorization.signer

namespace Context

variable {env : Env} {room : Nat}

variable {crypto : Crypto.Primitives} {account : Account} {before after : Context}
  {answer : Bool}

/-- A scan that came back with a value has seen only valid signatures up to the account's,
or up to the end. -/
theorem scanAuthorizations_answer {id : Crypto.Digest} {authorizations : List Authorization}
    (gave : (scanAuthorizations crypto id account authorizations).Returns before
      (.ok answer) after) :
    answer = true ↔ account ∈ authorizations.map Authorization.signer := by
  induction authorizations generalizing before with
  | nil =>
    simp only [scanAuthorizations, returns_pure, Except.ok.injEq] at gave
    simp [gave.1]
  | cons authorization rest ih =>
    simp only [scanAuthorizations, returns_ite] at gave
    split at gave
    · simp only [returns_bind, returns_modify] at gave
      obtain ⟨-, mid, -, gave⟩ := gave
      by_cases signer : authorization.signer = account
      · simp only [signer, if_true, returns_pure, Except.ok.injEq] at gave
        simp [gave.1, signer]
      · simp only [signer, if_false] at gave
        rw [ih gave, List.map_cons, List.mem_cons, or_iff_right (Ne.symm signer)]
    · simp at gave

/-- A signature is found among those verified, or in the authorizations that are left. -/
theorem checkSignature_answer
    (gave : (checkSignature crypto account).Returns before (.ok answer) after) :
    answer = true ↔ account ∈ before.verifiedSignatures ∨
      ∃ tx, before.transaction = some tx ∧
        account ∈ (tx.authorizations.drop before.verifiedSignatures.length).map
          Authorization.signer := by
  simp only [checkSignature, returns_bind, returns_read, returns_expect] at gave
  obtain ⟨_, _, ⟨rfl, rfl⟩, tx, _, ⟨found, rfl⟩, gave⟩ := gave
  simp only [returns_ite, List.contains_iff_mem, returns_pure, Except.ok.injEq] at gave
  split at gave
  · rename_i verified
    simp [gave.1, verified]
  · rename_i unverified
    rw [scanAuthorizations_answer gave, found]
    simp [unverified]

/-- The answer of an authorize instruction is `true` when it is one non-zero byte. -/
theorem authorizeAnswer_true_iff {output : Result ProgramOutput} :
    authorizeAnswer output = .ok true ↔
      ∃ answered byte, output = .ok answered ∧ answered.stdout = [byte] ∧ byte ≠ 0 := by
  cases output with
  | error error => simp [authorizeAnswer]
  | ok answered =>
    simp only [authorizeAnswer]
    split
    · rename_i byte single
      simp [single]
    · rename_i several
      simp only [reduceCtorEq, false_iff]
      rintro ⟨_, byte, same, single, -⟩
      exact several byte (Except.ok.inj same ▸ single)

/-- When asking for authority comes back with a value, the value says whether the account
is vouched for. -/
theorem checkAuthority_answer
    (gave : (checkAuthority env.crypto (runProgramAt env room) account).Returns before
      (.ok answer) after) :
    answer = true ↔ Vouched env room account before := by
  simp only [checkAuthority, returns_bind, returns_read] at gave
  obtain ⟨_, charged, paid, _, _, ⟨rfl, rfl⟩, gave⟩ := gave
  rw [Vouched]
  split at gave
  · simp at gave
  split at gave <;> rename_i isProgram
  · rw [if_pos isProgram]
    simp only [returns_bind, returns_pure] at gave
    obtain ⟨output, mid, ran, answered, rfl⟩ := gave
    constructor
    · rintro rfl
      obtain ⟨given, byte, rfl, single, set⟩ := authorizeAnswer_true_iff.mp answered.symm
      exact ⟨_, given, _, byte, paid, ran, single, set⟩
    · rintro ⟨_, given, _, byte, paidAgain, ranAgain, single, set⟩
      obtain ⟨-, rfl⟩ := paidAgain.unique paid
      obtain ⟨rfl, -⟩ := ranAgain.unique ran
      have granted := authorizeAnswer_true_iff.mpr ⟨given, byte, rfl, single, set⟩
      exact Except.ok.inj (answered.trans granted)
  · rw [if_neg isProgram, checkSignature_answer gave, eq_of_chargeCall paid]

end Context

namespace CoinAuthority

variable {env : Env} {room : Nat}

variable {source : Account} {before after : Context}
  {events : List (Interaction.Event SystemCall.Response)}

/-- The calls of the guard, and what makes it pass. -/
theorem permitted_events
    (gave : (interpretTraced (answers env room) (permitted source)).Returns before
      (events, true) after) :
    ∃ caller asked, (answers env room .getCaller).Returns before caller asked ∧
      (source.1 = caller ∧ events = [⟨.getCaller, caller⟩] ∨ source.1 ≠ caller ∧ ∃ answer, events =
          [⟨.getCaller, caller⟩, ⟨.checkAuthority source, .ok answer⟩] ∧
          (answers env room (.checkAuthority source)).Returns asked (.ok answer) after) := by
  simp only [Coin.permitted, Coin.call, returns_traced_bind, returns_traced_perform] at gave
  obtain ⟨_, caller, asked, rest, ⟨called, rfl⟩, gave, rfl⟩ := gave
  refine ⟨caller, asked, called, ?_⟩
  split at gave <;> rename_i isCaller
  · simp only [returns_traced_pure] at gave
    exact .inl ⟨isCaller, by simp [gave.1]⟩
  · simp only [returns_traced_bind, returns_traced_perform] at gave
    obtain ⟨_, answer, mid, _, ⟨answered, rfl⟩, gave, rfl⟩ := gave
    cases answer with
    | error error => simp at gave
    | ok answer =>
      obtain ⟨rfl, -, rfl⟩ := returns_traced_pure.mp gave
      exact .inr ⟨isCaller, answer, rfl, answered⟩

/-- The guard of a spend that came back without error has passed, and only object calls
follow it. -/
theorem execute_events {request : Coin.Request} (spends : Spends source request)
    (gave : (interpretTraced (answers env room) (execute request)).Returns before
      (events, .program .ok) after) :
    ∃ guard rest mid, events = guard ++ rest ∧
      (interpretTraced (answers env room) (permitted source)).Returns
        before (guard, true) mid ∧ ∀ event ∈ rest, Coin.IsObjectCall event.1 := by
  cases request with
  | transfer sender target value =>
    obtain ⟨rfl, -⟩ := spends
    simp only [execute, transfer] at gave
    split at gave
    · simp at gave
    · obtain ⟨guard, allowed, mid, rest, guarded, gave, rfl⟩ := returns_traced_bind.mp gave
      cases allowed with
      | false => simp at gave
      | true => exact ⟨guard, rest, mid, rfl, guarded, (moveCoins_issues ..).events gave⟩
  | burn owner value =>
    obtain ⟨rfl, -⟩ := spends
    simp only [execute, burn] at gave
    obtain ⟨guard, allowed, mid, rest, guarded, gave, rfl⟩ := returns_traced_bind.mp gave
    cases allowed with
    | false => simp at gave
    | true => exact ⟨guard, rest, mid, rfl, guarded, (destroyCoins_issues ..).events gave⟩
  | _ => exact spends.elim

/-- Reads and object calls authorize nothing. -/
theorem authorized_append_iff {first guard rest : List (Interaction.Event SystemCall.Response)}
    (reads : ∀ event ∈ first, Coin.IsRead event.1)
    (objects : ∀ event ∈ rest, Coin.IsObjectCall event.1) :
    Authorized source (first ++ (guard ++ rest)) ↔ Authorized source guard := by
  have absent (event : Interaction.Event SystemCall.Response)
      (neither : ¬ Coin.IsRead event.1 ∧ ¬ Coin.IsObjectCall event.1) :
      event ∈ first ++ (guard ++ rest) ↔ event ∈ guard := by
    have notFirst : event ∉ first := fun mem => neither.1 (reads event mem)
    have notRest : event ∉ rest := fun mem => neither.2 (objects event mem)
    simp [notFirst, notRest]
  rw [Authorized, Authorized, absent _ ⟨id, id⟩, absent _ ⟨id, id⟩]

/-- A spend that completes was authorized exactly when its source is the caller or is
vouched for at the moment its authority is asked for. -/
theorem spend_authorized_iff {locals : Coin.Locals} {before ready asked after : Context}
    {request : Coin.Request} {caller : Bytes} {source : Account}
    {events : List (Interaction.Event SystemCall.Response)}
    (reads : (interpret (answers env room) (readRequest locals)).Returns before request ready)
    (calls : (answers env room .getCaller).Returns ready caller asked)
    (spends : Spends source request)
    (completes : (interpretTraced (answers env room) (run locals)).Returns
      before (events, .program .ok) after) :
    Authorized source events ↔
      source.1 = caller ∨ Vouched env room source asked := by
  obtain ⟨first, _, _, later, readTraced, executed, rfl⟩ := returns_traced_bind.mp completes
  obtain ⟨rfl, rfl⟩ := (returns_interpret_iff_traced.mpr ⟨first, readTraced⟩).unique reads
  obtain ⟨guard, rest, mid, rfl, guarded, objects⟩ := execute_events spends executed
  rw [authorized_append_iff ((readRequest_issues locals).events readTraced) objects]
  obtain ⟨_, _, called, outcome⟩ := permitted_events guarded
  obtain ⟨rfl, rfl⟩ := called.unique calls
  cases outcome with
  | inl isCaller =>
    obtain ⟨same, rfl⟩ := isCaller
    simp [Authorized, same]
  | inr asksAuthority =>
    obtain ⟨other, answer, rfl, answered⟩ := asksAuthority
    rw [or_iff_right other, ← Context.checkAuthority_answer answered]
    simp [Authorized, other, @eq_comm Bool true]

/-- A user account with a balance of five. -/
def owner : Account := SizedBytes.fit 33 [0, 7]

/-- A user account that signs. -/
def signer : Account := SizedBytes.fit 33 [0, 9]

/-- A transfer of three coins from the owner to the signer, in a transaction that the given
accounts have signed. -/
def transferring (signers : List Account) : Context :=
  { Context.create (Forest.empty.push none
        ⟨some ⟨Std.ExtTreeMap.ofList [(balanceKey owner, storeWord 5)], nullId, 0,
          SizedBytes.zero 32⟩, ∅, none, false⟩) 0 .blockApplication with
    stack := [⟨Context.coin, [], littleEndian 4 6 ++ owner.1 ++ signer.1 ++ storeWord 3, [], [], 0⟩]
    transaction := some ⟨SizedBytes.zero 32, SizedBytes.zero 32, 0, signer, SizedBytes.zero 33, 1,
      [], signers.map fun account => ⟨account, SizedBytes.zero 64⟩⟩
    verifiedSignatures := signers }

/-- A run of the coin program with its calls recorded. -/
def tracedRun : Run (List (Interaction.Event SystemCall.Response) × ErrorCode) := do
  let context ← Effect.read
  interpretTraced (answers .plain 32) (run (Env.plain.locals context))

/-- The owner's signature authorizes the transfer. -/
theorem spend_authorized_iff_when_signed :
    ∃ events after, tracedRun.Returns (transferring [owner]) (events, .program .ok) after ∧
      Authorized owner events := by
  have read : ((interpret (answers .plain 32)
      (readRequest (Env.plain.locals (transferring [owner]))))
        (transferring [owner])).1 = .ok (.transfer owner signer 3) := by
    decide +kernel
  have called : ((answers .plain 32 .getCaller) (interpret (answers .plain 32)
      (readRequest (Env.plain.locals (transferring [owner])))
        (transferring [owner])).2).1 = .ok [] := by
    decide +kernel
  have completed : (tracedRun (transferring [owner])).1.map Prod.snd = .ok (.program .ok) := by
    decide +kernel
  obtain ⟨⟨events, _⟩, ran, rfl⟩ := returns_of_map_fst completed
  refine ⟨events, _, ran, ?_⟩
  refine (spend_authorized_iff (returns_of_fst read) (returns_of_fst called)
    ⟨rfl, by decide⟩ ran).mpr (.inr ?_)
  exact (if_neg (by decide)).mpr (.inl (by decide +kernel))

/-- A transfer that its source has not signed completes and takes the coins. -/
theorem unsigned_transfer_completes :
    ∃ events after, tracedRun.Returns (transferring [signer]) (events, .program .ok) after ∧
      ¬ Authorized owner events ∧
      (∀ tx, (transferring [signer]).transaction = some tx →
        owner ∉ tx.authorizations.map Authorization.signer) ∧
      (transferring [signer]).heap.get 0 (balanceKey owner) = .ok (some (storeWord 5)) ∧
      after.heap.get 0 (balanceKey owner) = .ok (some (storeWord 2)) := by
  have completed : (tracedRun (transferring [signer])).1.map
      (fun result => (decide (Authorized owner result.1), result.2)) =
        .ok (false, .program .ok) := by
    decide +kernel
  obtain ⟨⟨events, code⟩, ran, found⟩ := returns_of_map_fst completed
  obtain ⟨unauthorized, rfl⟩ := Prod.mk.inj found
  refine ⟨events, _, ran, of_decide_eq_false unauthorized, ?_, by decide +kernel, by decide +kernel⟩
  intro tx found
  cases found
  decide +kernel

end CoinAuthority

end Respublica.Controller
