import Respublica.Controller.CallTree
import Respublica.Controller.Ownership

/-!
# Memoised signature checks

The signers that were verified during a transaction are kept in a list. A check looks there
first and then goes on with the authorizations behind as many as the list is long. That is a
scan from the left because the list is always that of the signers of the first authorizations,
all with valid signatures: a check that stops at a match or at an invalid signature leaves it
so, and nothing else touches it.
-/

namespace Respublica.Controller

open Foundation Effect Crypto Program Protocol StateDb Context

/-- The signature of an authorization verifies. -/
def Verifies (crypto : Primitives) (id : Digest) (authorization : Authorization) : Prop :=
  crypto.verify authorization.signer.publicKey authorization.signature id = true

/-- A scan of authorizations from left to right that remembers nothing. -/
def plainScan (crypto : Primitives) (id : Digest) (account : Account) :
    List Authorization → Result Bool
  | [] => .ok false
  | authorization :: rest =>
    if crypto.verify authorization.signer.publicKey authorization.signature id then
      if authorization.signer = account then .ok true else plainScan crypto id account rest
    else .error (.controller .invalidSignature)

section PlainScan

variable {crypto : Primitives} {id : Digest} {account : Account}
  {authorizations earlier later : List Authorization}

/-- Valid authorizations by others do not change what a scan finds behind them. -/
theorem plainScan_append (valid : ∀ authorization ∈ earlier, Verifies crypto id authorization)
    (others : account ∉ earlier.map Authorization.signer) :
    plainScan crypto id account (earlier ++ later) = plainScan crypto id account later := by
  induction earlier with
  | nil => rfl
  | cons authorization rest ih =>
    obtain ⟨here, behind⟩ := List.forall_mem_cons.mp valid
    rw [List.map_cons, List.mem_cons, not_or] at others
    have verifies : crypto.verify authorization.signer.publicKey authorization.signature id =
        true := here
    rw [List.cons_append, plainScan, if_pos verifies, if_neg (Ne.symm others.1)]
    exact ih behind others.2

/-- A scan that comes to the account behind valid authorizations finds it. -/
theorem plainScan_of_mem (valid : ∀ authorization ∈ earlier, Verifies crypto id authorization)
    (mem : account ∈ earlier.map Authorization.signer) :
    plainScan crypto id account (earlier ++ later) = .ok true := by
  induction earlier with
  | nil => cases mem
  | cons authorization rest ih =>
    obtain ⟨here, behind⟩ := List.forall_mem_cons.mp valid
    have verifies : crypto.verify authorization.signer.publicKey authorization.signature id =
        true := here
    rw [List.cons_append, plainScan, if_pos verifies]
    split
    · rfl
    · rename_i other
      rw [List.map_cons, List.mem_cons] at mem
      exact ih behind (mem.resolve_left (Ne.symm other))

/-- A scan finds the account when it is the signer of an authorization, and that one and all
before it are valid. -/
theorem plainScan_true_iff : plainScan crypto id account authorizations = .ok true ↔
    ∃ earlier authorization later, authorizations = earlier ++ authorization :: later ∧
      authorization.signer = account ∧ Verifies crypto id authorization ∧
      ∀ before ∈ earlier, Verifies crypto id before := by
  constructor
  · intro found
    induction authorizations with
    | nil => cases found
    | cons authorization rest ih =>
      rw [plainScan] at found
      split at found
      · rename_i verifies
        split at found
        · rename_i signs
          exact ⟨[], authorization, rest, rfl, signs, verifies, fun _ mem => by cases mem⟩
        · obtain ⟨earlier, match_, later, rfl, signs, valid, before⟩ := ih found
          exact ⟨authorization :: earlier, match_, later, rfl, signs, valid,
            List.forall_mem_cons.mpr ⟨verifies, before⟩⟩
      · cases found
  · rintro ⟨earlier, authorization, later, rfl, rfl, valid, before⟩
    have upTo : ∀ other ∈ earlier ++ [authorization], Verifies crypto id other := by
      intro other mem
      rcases List.mem_append.mp mem with old | new
      · exact before other old
      · exact List.mem_singleton.mp new ▸ valid
    rw [List.append_cons]
    exact plainScan_of_mem upTo (by simp)

/-- A scan fails when an authorization is not valid, and all before it are valid and by
others. -/
theorem plainScan_error_iff : plainScan crypto id account authorizations =
      .error (.controller .invalidSignature) ↔
    ∃ earlier authorization later, authorizations = earlier ++ authorization :: later ∧
      ¬ Verifies crypto id authorization ∧
      ∀ before ∈ earlier, Verifies crypto id before ∧ before.signer ≠ account := by
  constructor
  · intro failed
    induction authorizations with
    | nil => cases failed
    | cons authorization rest ih =>
      rw [plainScan] at failed
      split at failed
      · rename_i verifies
        split at failed
        · cases failed
        · rename_i other
          obtain ⟨earlier, invalid, later, rfl, fails, before⟩ := ih failed
          exact ⟨authorization :: earlier, invalid, later, rfl, fails,
            List.forall_mem_cons.mpr ⟨⟨verifies, other⟩, before⟩⟩
      · rename_i fails
        exact ⟨[], authorization, rest, rfl, fails, fun _ mem => by cases mem⟩
  · rintro ⟨earlier, authorization, later, rfl, fails, before⟩
    have others : account ∉ earlier.map Authorization.signer := by
      intro mem
      obtain ⟨other, old, signs⟩ := List.mem_map.mp mem
      exact (before other old).2 signs
    rw [plainScan_append (fun other old => (before other old).1) others, plainScan]
    exact if_neg fails

/-- A scan has three answers. -/
theorem plainScan_cases : plainScan crypto id account authorizations = .ok true ∨
    plainScan crypto id account authorizations = .error (.controller .invalidSignature) ∨
      plainScan crypto id account authorizations = .ok false := by
  induction authorizations with
  | nil => exact .inr (.inr rfl)
  | cons authorization rest ih =>
    rw [plainScan]
    split
    · split
      · exact .inl rfl
      · exact ih
    · exact .inr (.inl rfl)

end PlainScan

/-- In a context of a transaction that is being applied, the verified signers are those of its
first authorizations, which are valid. -/
structure Memo (crypto : Primitives) (tx : Transaction) (context : Context) :
    Prop where
  applying : context.transaction = some tx
  writable : context.intent ≠ .readOnly
  costs : context.meter.limits.cost.computeBandwidth ≠ 0
  checked : ∃ scanned rest, tx.authorizations = scanned ++ rest ∧
    context.verifiedSignatures = scanned.map Authorization.signer ∧
    ∀ authorization ∈ scanned, Verifies crypto tx.id authorization

namespace Context

variable {crypto : Primitives} {tx : Transaction} {account : Account}
  {before : Context}

/-- A scan behind the authorizations that are checked answers as one that remembers nothing, and
takes the valid ones it has come to as checked. -/
theorem scanAuthorizations_memo (applying : before.transaction = some tx)
    (writable : before.intent ≠ .readOnly) (costs : before.meter.limits.cost.computeBandwidth ≠ 0)
    {scanned rest : List Authorization} (authorizations : tx.authorizations = scanned ++ rest)
    (checked : before.verifiedSignatures = scanned.map Authorization.signer)
    (valid : ∀ authorization ∈ scanned, Verifies crypto tx.id authorization) :
    ∃ after, (scanAuthorizations crypto tx.id account rest).Returns before
        (plainScan crypto tx.id account rest) after ∧
      Memo crypto tx after := by
  induction rest generalizing before scanned with
  | nil => exact ⟨before, rfl, applying, writable, costs, scanned, [], authorizations, checked,
        valid⟩
  | cons authorization rest ih =>
    rw [scanAuthorizations, plainScan]
    split
    · rename_i verifies
      let noted : Context := { before with
        verifiedSignatures := before.verifiedSignatures ++ [authorization.signer] }
      have longer : noted.verifiedSignatures =
          (scanned ++ [authorization]).map Authorization.signer := by
        simp [noted, checked]
      have split_ : tx.authorizations = (scanned ++ [authorization]) ++ rest := by
        rw [authorizations, List.append_cons]
      have validLonger : ∀ other ∈ scanned ++ [authorization],
          Verifies crypto tx.id other := by
        intro other mem
        rcases List.mem_append.mp mem with old | new
        · exact valid other old
        · exact List.mem_singleton.mp new ▸ verifies
      by_cases signs : authorization.signer = account
      · rw [if_pos signs, if_pos signs]
        exact ⟨noted, rfl, applying, writable, costs, _, rest, split_, longer, validLonger⟩
      · rw [if_neg signs, if_neg signs]
        exact ih applying writable costs split_ longer validLonger
    · exact ⟨before, rfl, applying, writable, costs, scanned, _, authorizations, checked, valid⟩

/-- A signature check answers as a scan that remembers nothing. -/
theorem checkSignature_memo (memo : Memo crypto tx before) (account : Account) :
    ∃ after, (checkSignature crypto account).Returns before
        (plainScan crypto tx.id account tx.authorizations) after ∧
      Memo crypto tx after := by
  obtain ⟨applying, writable, costs, scanned, rest, authorizations, checked, valid⟩ := memo
  have unfolded : checkSignature crypto account before =
      (if before.verifiedSignatures.contains account then pure (.ok true)
      else scanAuthorizations crypto tx.id account
        (tx.authorizations.drop before.verifiedSignatures.length) : Run _) before := by
    rw [checkSignature, read_bind, applying, expect_bind]
  by_cases mem : account ∈ scanned.map Authorization.signer
  · refine ⟨before, ?_, applying, writable, costs, scanned, rest, authorizations, checked, valid⟩
    rw [Effect.Returns, unfolded, if_pos (by simpa [checked] using mem), authorizations,
      plainScan_of_mem valid mem]
    rfl
  · obtain ⟨after, scans, memo⟩ :=
      scanAuthorizations_memo applying writable costs authorizations checked valid
    refine ⟨after, ?_, memo⟩
    have behind : tx.authorizations.drop before.verifiedSignatures.length = rest := by
      rw [authorizations, checked, List.length_map, List.drop_left]
    rw [Effect.Returns, unfolded, if_neg (by simpa [checked] using mem), behind, authorizations,
      plainScan_append valid mem]
    exact scans

theorem memo_ofTransaction : OfTransaction (Memo crypto tx) :=
  fun _ _ sameTransaction sameIntent sameLimits sameSigners memo =>
    ⟨sameTransaction ▸ memo.applying, sameIntent ▸ memo.writable, sameLimits ▸ memo.costs,
      sameSigners ▸ memo.checked⟩

/-- The memo is kept by everything that programs can do. -/
theorem memo_endures (env : Env) (tx : Transaction) :
    Endures env (Preserving (Memo env.crypto tx)) := by
  refine memo_ofTransaction.endures fun account before memo => ?_
  obtain ⟨after, gave, kept⟩ := checkSignature_memo memo account
  rw [gave]
  exact kept

end Context

/-- A transaction that is applied in a context asks for the authority of an account itself: that
of its payer, that of its payee, or the one that an upload needs. -/
inductive AsksDirectly (env : Env) (tx : Transaction)
    (before : Context) : Account → Context → Prop where
  | payer : AsksDirectly env tx before tx.payer
      (beginTransaction tx before)
  | payee {mid : Context} :
      (requireAuthority env tx.payer).Returns
        (beginTransaction tx before) (.ok ()) mid →
        AsksDirectly env tx before tx.payee mid
  | upload {id : Account} {bytecode : Bytes} {mid : Context} :
      BeginsOperation env tx before (.uploadProgram id bytecode) mid →
        AsksDirectly env tx before
          (if (mid.view (programKey id)).isSome then id else id.userAccount) mid

/-- A transaction that is applied in a context starts a program from another: one that it asks
for authority, or one that an operation calls. -/
inductive StartsFrom (env : Env) (tx : Transaction)
    (before : Context) : Context → Prop where
  | asked {account : Account} {context charged : Context} :
      AsksDirectly env tx before account context →
        chargeCall.Returns context () charged →
        StartsFrom env tx before charged
  | called {id : Account} {input : ProgramInput} {mid : Context} :
      BeginsOperation env tx before (.callProgram id input) mid →
        StartsFrom env tx before mid

/-- While a transaction is applied in a context, `check_authority` is called on an account, with
so much room on the stack: by the transaction, or by a program in a tree of runs that it has
started. -/
inductive Asks (env : Env) (tx : Transaction) (before : Context) :
    Nat → Account → Context → Prop where
  | direct {account : Account} {context : Context} :
      AsksDirectly env tx before account context →
        Asks env tx before fullRoom account context
  | nested {room : Nat} {starter : Option Account} {program account : Account}
      {base entered context : Context} {call : ProgramCall} :
      StartsFrom env tx before base →
        Started env base room starter program entered →
        Calls env room program entered call context → call.AsksFor account →
        Asks env tx before room account context

section Asks

variable {env : Env} {tx : Transaction} {account : Account} {room : Nat}
  {before context : Context} {property : Context → Prop} (ofTransaction : OfTransaction property)
  (endures : Endures env (Preserving property))
  (start : property (beginTransaction tx before))

include ofTransaction endures start

/-- What a transaction keeps holds where it asks itself. -/
theorem AsksDirectly.holds (asks : AsksDirectly env tx before account context) :
    property context := by
  cases asks with
  | payer => exact start
  | payee granted => exact (endures.requireAuthority _).of_returns granted start
  | upload begins => exact begins.holds ofTransaction endures start

/-- What a transaction keeps holds where it starts a program. -/
theorem StartsFrom.holds (starts : StartsFrom env tx before context) :
    property context := by
  cases starts with
  | asked asks paid =>
    exact (chargeCall_kept endures.overlooks).of_returns paid
      (asks.holds ofTransaction endures start)
  | called begins => exact begins.holds ofTransaction endures start

/-- What holds of a transaction from its beginning holds wherever authority is asked for. -/
theorem Asks.holds (asks : Asks env tx before room account context) :
    property context := by
  cases asks with
  | direct asks => exact asks.holds ofTransaction endures start
  | nested starts started calls _ =>
    exact endures.calls calls
      (endures.started started (starts.holds ofTransaction endures start))

end Asks

section Memo

variable {env : Env} {tx : Transaction} {account : Account} {room : Nat}
  {before context : Context}

/-- A transaction begins with nothing checked, whatever was checked for the one before. -/
theorem memo_beginTransaction (writable : before.intent ≠ .readOnly)
    (costs : before.meter.limits.cost.computeBandwidth ≠ 0) :
    Memo env.crypto tx (beginTransaction tx before) :=
  ⟨rfl, writable, costs, [], tx.authorizations, rfl, rfl, fun _ mem => by cases mem⟩

/-- Wherever authority is asked for while a transaction is applied, the memo is right. -/
theorem Asks.memo (writable : before.intent ≠ .readOnly)
    (costs : before.meter.limits.cost.computeBandwidth ≠ 0)
    (asks : Asks env tx before room account context) :
    Memo env.crypto tx context :=
  asks.holds memo_ofTransaction (memo_endures env tx)
    (memo_beginTransaction writable costs)

/-- Users are no programs. -/
theorem viewProgram_of_user (isUser : account.user = true) : account.viewProgram = false := by
  have user : account.head = 0 := by simpa [Account.user, AccountType.prefixByte] using isUser
  rw [Account.viewProgram, user]
  rfl

/-- An account without the bit of a module is asked for its signature. -/
theorem checkAuthority_memo (signs : account.viewProgram = false)
    (memo : Memo env.crypto tx context) :
    ∃ after, (checkAuthority env.crypto (runProgramAt env room) account).Returns context
        (plainScan env.crypto tx.id account tx.authorizations)
        after := by
  obtain ⟨charged, paid⟩ := chargeCall_returns fun _ => memo.costs
  have endures := memo_endures env tx
  have chargedMemo := (chargeCall_kept endures.overlooks).of_returns paid memo
  obtain ⟨after, checks, -⟩ := checkSignature_memo chargedMemo account
  refine ⟨after, returns_bind.mpr ⟨(), charged, paid, ?_⟩⟩
  rw [Effect.Returns, read_bind, if_neg chargedMemo.writable, signs]
  exact checks

/-- Wherever `check_authority` is called on a user account while a transaction is applied, by the
transaction or by any program in the trees of runs that it starts, it answers as a scan of the
authorizations from the left that remembers nothing: `true` when the account is the signer of an
authorization and all up to that one are valid, `invalid_signature` when one is not valid and
all before it are valid and by others, and `false` otherwise. -/
theorem memoised_checks_agree (writable : before.intent ≠ .readOnly)
    (costs : before.meter.limits.cost.computeBandwidth ≠ 0)
    (asks : Asks env tx before room account context)
    (isUser : account.user = true) :
    ∃ answer after, (checkAuthority env.crypto
        (runProgramAt env room) account).Returns context answer after ∧
      answer = plainScan env.crypto tx.id account tx.authorizations ∧
      (answer = .ok true ↔ ∃ earlier authorization later,
        tx.authorizations = earlier ++ authorization :: later ∧
          authorization.signer = account ∧
          Verifies env.crypto tx.id authorization ∧
          ∀ other ∈ earlier, Verifies env.crypto tx.id other) ∧
      (answer = .error (.controller .invalidSignature) ↔ ∃ earlier authorization later,
        tx.authorizations = earlier ++ authorization :: later ∧
          ¬ Verifies env.crypto tx.id authorization ∧
          ∀ other ∈ earlier, Verifies env.crypto tx.id other ∧
            other.signer ≠ account) ∧
      (answer = .ok true ∨ answer = .error (.controller .invalidSignature) ∨
        answer = .ok false) := by
  obtain ⟨after, gave⟩ :=
    checkAuthority_memo (viewProgram_of_user isUser) (asks.memo writable costs)
  exact ⟨_, after, gave, rfl, plainScan_true_iff, plainScan_error_iff, plainScan_cases⟩

/-- An upload that the owner of the program pays for with a nonce of their own. -/
def paidUpload : Transaction := { firstUpload moduleId with payee := moduleId.userAccount }

/-- The payee is asked when the signature of the payer has been checked, and is found behind it. -/
theorem memoised_checks_agree_for_payee :
    ∃ mid after, (requireAuthority .plain paidUpload.payer).Returns
        (beginTransaction paidUpload (blockOn [])) (.ok ()) mid ∧
      mid.verifiedSignatures = [paidUpload.payer] ∧
      (checkAuthority Env.plain.crypto (runProgramAt .plain fullRoom)
        paidUpload.payee).Returns mid (.ok true) after := by
  have granted : (requireAuthority .plain paidUpload.payer).Returns
      (beginTransaction paidUpload (blockOn [])) (.ok ()) _ := returns_of_fst (by decide +kernel)
  obtain ⟨answer, after, gave, same, -⟩ := memoised_checks_agree (by decide) (by decide)
    (.direct (.payee granted)) (show paidUpload.payee.user = true by decide)
  have found : answer = .ok true := same.trans (by decide +kernel)
  exact ⟨_, after, granted, by decide +kernel, found ▸ gave⟩

end Memo

end Respublica.Controller
