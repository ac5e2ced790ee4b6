import Respublica.Controller.ChainHead
import Respublica.Controller.Replay

/-!
# Asking for a nonce

`controller::account_nonce` reads the nonce of an account on the head. In every run from initial
objects without nonces it answers with the number of transactions that the blocks on the way to
the head have applied for the account, and a transaction on its own goes through only with the
number after that.
-/

namespace Respublica.Controller

open Foundation Effect Crypto Program Protocol StateDb Context Heap

/-- `controller::account_nonce`. -/
def accountNonce (account : Account) : Effect Fault Database UInt64 := do
  let db ← Effect.read
  let head ← Effect.expect .nullDereference db.head
  inContext head .readOnly (Context.accountNonce account)

variable {env : Env} {entries : List GenesisEntry} {history : List (Nat × Block)}
  {db after : Database} {node : Nat}

/-- The head of a run is the root or the node of an accepted block. -/
theorem Headed.standing {head : Nat} {height : UInt64} (headed : Headed history db head height) :
    Standing history head := by
  rcases headed.leads with ⟨-, rfl, -⟩ | ⟨earlier, block, later, rfl, -⟩
  · exact .inl rfl
  · exact .inr ⟨block, List.mem_append_right _ List.mem_cons_self⟩

/-- On a node that counts transactions a nonce is read without an exception. -/
theorem Context.accountNonce_returns {earlier : List Transaction} {heap : Heap}
    (backed : heap.Backed)
    (inside : node < heap.size) (counts : Counts earlier (heap.view node)) (intent : Intent)
    (account : Account) :
    (accountNonce account).Returns (create heap node intent)
      (UInt64.ofNat (nonceCount account earlier)) (create heap node intent) := by
  have got : heap.get node (nonceKey account) = .ok (storedNonce (nonceCount account earlier)) := by
    rw [get_of_backed backed inside, counts account]
  simp only [accountNonce, getState, returns_bind, returns_read, returns_ofExcept]
  refine ⟨_, _, ⟨_, _, ⟨rfl, rfl⟩, got, rfl⟩, ?_⟩
  cases nonceCount account earlier with
  | zero => exact returns_pure.mpr ⟨rfl, rfl⟩
  | succ number =>
    have long : ¬ (storeWord (UInt64.ofNat (number + 1))).length < 8 := by simp
    simp only [storedNonce, if_neg long, loadWord_storeWord]
    exact returns_pure.mpr ⟨rfl, rfl⟩

/-- A transaction on its own is refused on every head, or applied on a new child of the head. -/
theorem processTransaction_cases (env : Env) (tx : Transaction) :
    (∃ error, ∀ db, (processTransaction env tx).Returns db (.error error) db) ∨
    ∀ {db : Database} {head : Nat} {own : Backend}, db.head = some head →
      db.heap.backend head = .ok own →
        processTransaction env tx db =
          inContext db.heap.size .transactionApplication (applyAlone env tx)
            { db with heap := db.heap.push (some head) (childOf own nullId) } := by
  unfold processTransaction
  split
  · exact .inl ⟨_, fun _ => returns_pure.mpr ⟨rfl, rfl⟩⟩
  split
  · exact .inl ⟨_, fun _ => returns_pure.mpr ⟨rfl, rfl⟩⟩
  refine .inr fun {db head own} isHead backs => ?_
  have makes : (Database.onHeap (makeChild head nullId)).Returns db db.heap.size
      { db with heap := db.heap.push (some head) (Heap.childOf own nullId) } :=
    returns_within.mpr ⟨_, Heap.returns_makeChild.mpr ⟨own, backs, rfl, rfl⟩, rfl⟩
  rw [read_bind, isHead, expect_bind, makes.bind_eq, isHead]

/-- In every run from initial objects without nonces, the controller answers with the number of
transactions of the account on the chain of the head, and a transaction on its own that goes
through has the next number. -/
theorem account_nonce_counts_chain
    (fresh : ∀ entry ∈ entries, ∀ account, entry.compoundKey ≠ nonceKey account)
    (run : ProcessRun env entries history db) :
    ∃ head, db.head = some head ∧
      (∀ account, (accountNonce account).Returns db
        (UInt64.ofNat (nonceCount account (chainOf history db.heap head))) db) ∧
      ∀ tx receipt after,
        (processTransaction env tx).Returns db (.ok receipt) after →
          tx.nonce = UInt64.ofNat (nonceCount (Transaction.nonceAccount tx)
            (chainOf history db.heap head) + 1) := by
  obtain ⟨head, height, headed⟩ := run.headed
  have backed := run.chained.tracked.rooted.backed
  have inside := lt_size_of_final headed.final
  obtain ⟨numbered, counts⟩ := (run.chain fresh head headed.standing).numbered
  refine ⟨head, headed.isHead, fun account => ?_, fun tx receipt after gave => ?_⟩
  · simp only [accountNonce, returns_bind, returns_read, returns_expect]
    exact ⟨_, _, ⟨rfl, rfl⟩, head, _, ⟨headed.isHead, rfl⟩, returns_within.mpr
      ⟨_, accountNonce_returns backed inside counts .readOnly account, rfl⟩⟩
  · obtain ⟨-, own, -, -, backs⟩ := backend_of_backed backed inside
    rcases processTransaction_cases env tx with ⟨error, refuses⟩ | applies
    · cases (gave.unique (refuses db)).1
    rw [Effect.Returns, applies headed.isHead backs] at gave
    obtain ⟨context, ran, -⟩ := returns_within.mp gave
    obtain ⟨_, limited, modified, applied⟩ := returns_bind.mp ran
    obtain ⟨-, rfl⟩ := returns_modify.mp modified
    have childCounts : Counts (chainOf history db.heap head)
        (view (db.heap.push (some head) (childOf own nullId)) db.heap.size) := by
      rw [view_makeChild inside]
      exact counts
    have advanced := applyTransaction_advances (by exact backed_push backed rfl)
      numbered
      (by exact childCounts) applied
    exact advanced.numbered _ tx [] rfl

/-- After two transactions of an account, one of them reverted, its nonce is two. -/
theorem account_nonce_counts_chain_after_second :
    ∃ head, afterSecondPaying.head = some head ∧
      (∀ account, (accountNonce account).Returns afterSecondPaying (UInt64.ofNat (nonceCount account
        (chainOf [(1, firstPaying), (3, secondPaying)] afterSecondPaying.heap head)))
          afterSecondPaying) ∧
      ∀ tx receipt after,
        (processTransaction .plain tx).Returns afterSecondPaying (.ok receipt) after →
          tx.nonce = UInt64.ofNat (nonceCount (Transaction.nonceAccount tx)
            (chainOf [(1, firstPaying), (3, secondPaying)] afterSecondPaying.heap head) + 1) := by
  refine account_nonce_counts_chain (fun entry mem account => ?_) run_afterSecondPaying
  obtain rfl := List.mem_singleton.mp mem
  exact makeCompoundKey_ne (by decide) _ _

end Respublica.Controller
