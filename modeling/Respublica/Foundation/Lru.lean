import Mathlib.Data.List.Basic
import Mathlib.Data.List.Nodup
import Mathlib.Logic.Function.Basic

/-!
# Least recently used caches

A cache keeps values by key and the keys in the order of their last use, the latest first. When
it is full, inserting drops the value of the last key of the order. The order and the values are
kept apart, so nothing here says that they agree: a key that is inserted although it is held is
twice in the order, and the values then lose it when its older place comes to the end.
`Exact` says that they agree, and it is kept by every insertion of a key that is not held.
-/

namespace Respublica.Foundation

/-- Values by key, the keys in the order of use, and how many are kept. -/
@[ext]
structure Lru (Key Value : Type) where
  capacity : Nat
  order : List Key
  values : Key → Option Value

namespace Lru

variable {Key Value : Type}

/-- Nothing is held. -/
def empty (capacity : Nat) : Lru Key Value := ⟨capacity, [], fun _ => none⟩

/-- There is no room for another key. -/
def Full (lru : Lru Key Value) : Prop := lru.capacity ≤ lru.order.length

instance (lru : Lru Key Value) : Decidable lru.Full := inferInstanceAs (Decidable (_ ≤ _))

/-- The order that an insertion leaves of the keys that are there. -/
def kept (lru : Lru Key Value) : List Key := if lru.Full then lru.order.dropLast else lru.order

/-- What is kept was in the order. -/
theorem kept_sublist (lru : Lru Key Value) : lru.kept.Sublist lru.order := by
  unfold kept
  split
  · exact List.dropLast_sublist _
  · exact List.Sublist.refl _

/-- The keys of the order are distinct and are those that have a value. -/
structure Exact (lru : Lru Key Value) : Prop where
  distinct : lru.order.Nodup
  held : ∀ key, (lru.values key).isSome ↔ key ∈ lru.order

theorem exact_empty (capacity : Nat) : (empty capacity : Lru Key Value).Exact :=
  ⟨List.nodup_nil, fun _ => by simp [empty]⟩

variable [DecidableEq Key]

/-- The values that an insertion leaves of those that are there. -/
def retained (lru : Lru Key Value) (key : Key) : Option Value :=
  if lru.Full ∧ lru.order.getLast? = some key then none else lru.values key

/-- A key that is held moves to the front. -/
def touch (lru : Lru Key Value) (key : Key) : Lru Key Value :=
  if (lru.values key).isSome then { lru with order := key :: lru.order.erase key } else lru

/-- A value is put in front. -/
def insert (lru : Lru Key Value) (key : Key) (value : Value) : Lru Key Value :=
  { lru with
    order := key :: lru.kept
    values := Function.update lru.retained key (some value) }

/-- An order of keys is that of their last uses. Uses are listed with the latest first. -/
def Recent (uses order : List Key) : Prop :=
  order.Pairwise fun newer older => uses.idxOf newer < uses.idxOf older

/-- Among keys, one was used before all others. -/
def LeastRecent (uses : List Key) (keys : Key → Prop) (key : Key) : Prop :=
  keys key ∧ ∀ other, keys other → other ≠ key → uses.idxOf other < uses.idxOf key

variable {lru : Lru Key Value} {key : Key} {value : Value} {uses : List Key}

theorem touch_of_isSome (isHeld : (lru.values key).isSome) :
    lru.touch key = { lru with order := key :: lru.order.erase key } :=
  if_pos isHeld

/-- The first place of a key is the one that moves. -/
theorem touch_of_split (isHeld : (lru.values key).isSome) {before after : List Key}
    (split_ : lru.order = before ++ key :: after) (absent : key ∉ before) :
    lru.touch key = { lru with order := key :: (before ++ after) } := by
  rw [touch_of_isSome isHeld, split_, List.erase_append_right _ absent, List.erase_cons_head]

@[simp] theorem values_touch (lru : Lru Key Value) (key : Key) :
    (lru.touch key).values = lru.values := by
  unfold touch
  split <;> rfl

@[simp] theorem capacity_touch (lru : Lru Key Value) (key : Key) :
    (lru.touch key).capacity = lru.capacity := by
  unfold touch
  split <;> rfl

@[simp] theorem values_insert_self (lru : Lru Key Value) (key : Key) (value : Value) :
    (lru.insert key value).values key = some value :=
  Function.update_self ..

/-- Other keys keep their values, unless they are dropped. -/
theorem values_insert_of_ne {other : Key} (different : other ≠ key) :
    (lru.insert key value).values other = lru.retained other :=
  Function.update_of_ne different _ _

/-- A value that is held after an insertion is the inserted one or was held before. -/
theorem values_of_insert {other : Key} {stored : Value}
    (isHeld : (lru.insert key value).values other = some stored) :
    (other = key ∧ stored = value) ∨ lru.values other = some stored := by
  by_cases same : other = key
  · subst same
    rw [values_insert_self] at isHeld
    exact .inl ⟨rfl, (Option.some.inj isHeld).symm⟩
  · rw [values_insert_of_ne same, retained] at isHeld
    split at isHeld
    · cases isHeld
    · exact .inr isHeld

/-- Touching keeps order and values in agreement. -/
theorem Exact.touch (exact_ : lru.Exact) (key : Key) : (lru.touch key).Exact := by
  unfold Lru.touch
  split
  · rename_i isHeld
    have mem := (exact_.held key).mp isHeld
    have perm := List.perm_cons_erase mem
    exact ⟨perm.nodup_iff.mp exact_.distinct, fun other => (exact_.held other).trans perm.mem_iff⟩
  · exact exact_

/-- In a cache whose order and values agree, the values that stay are those of the keys that
stay. -/
theorem Exact.retained_iff (exact_ : lru.Exact) (key : Key) :
    (lru.retained key).isSome ↔ key ∈ lru.kept := by
  unfold retained kept
  by_cases full : lru.Full
  · rw [if_pos full]
    rcases List.eq_nil_or_concat lru.order with nil | ⟨front, last, split_⟩
    · simp [nil, exact_.held key]
    · have distinct := exact_.distinct
      rw [split_, List.concat_eq_append] at distinct ⊢
      obtain ⟨-, -, apart⟩ := List.nodup_append.mp distinct
      simp only [full, true_and, List.getLast?_concat, Option.some.injEq, List.dropLast_concat]
      by_cases isLast : last = key
      · subst isLast
        rw [if_pos rfl]
        simp only [Option.isSome_none, Bool.false_eq_true, false_iff]
        exact fun mem => apart last mem last List.mem_cons_self rfl
      · rw [if_neg isLast, exact_.held key, split_, List.concat_eq_append]
        simp [Ne.symm isLast]
  · rw [if_neg full, if_neg (fun both => full both.1), exact_.held key]

/-- Inserting keeps order and values in agreement exactly when the key is not among those that
stay. -/
theorem Exact.insert_iff (exact_ : lru.Exact) (key : Key) (value : Value) :
    (lru.insert key value).Exact ↔ key ∉ lru.kept := by
  constructor
  · intro after
    exact (List.nodup_cons.mp after.distinct).1
  · intro absent
    refine ⟨List.nodup_cons.mpr ⟨absent, exact_.distinct.sublist lru.kept_sublist⟩, fun other => ?_⟩
    show _ ↔ other ∈ key :: lru.kept
    by_cases same : other = key
    · subst same
      simp
    · rw [values_insert_of_ne same, exact_.retained_iff, List.mem_cons, or_iff_right same]

/-- Touching takes no room. -/
theorem length_touch (known : (lru.values key).isSome → key ∈ lru.order) :
    (lru.touch key).order.length = lru.order.length := by
  unfold touch
  split
  · rename_i isHeld
    exact (List.perm_cons_erase (known isHeld)).length_eq.symm
  · rfl

/-- Inserting takes no more room than there is, if there is any. -/
theorem length_insert_le (room : 0 < lru.capacity) (bound : lru.order.length ≤ lru.capacity)
    (key : Key) (value : Value) : (lru.insert key value).order.length ≤ lru.capacity := by
  show (key :: lru.kept).length ≤ lru.capacity
  rw [List.length_cons, kept]
  split
  · rw [List.length_dropLast]
    omega
  · rename_i notFull
    exact Nat.not_le.mp notFull

theorem Recent.nodup {order : List Key} (recent : Recent uses order) : order.Nodup := by
  refine List.Pairwise.imp (fun {newer older} less => ?_) recent
  rintro rfl
  exact Nat.lt_irrefl _ less

/-- A key that is used comes before all others. -/
theorem Recent.used {order : List Key} (recent : Recent uses order) (absent : key ∉ order) :
    Recent (key :: uses) (key :: order) := by
  have behind : ∀ other ∈ order, (key :: uses).idxOf other = uses.idxOf other + 1 := by
    intro other mem
    have different : key ≠ other := fun same => absent (same ▸ mem)
    rw [List.idxOf_cons_ne _ different]
  refine List.pairwise_cons.mpr ⟨fun other mem => ?_, ?_⟩
  · rw [List.idxOf_cons_self, behind other mem]
    exact Nat.succ_pos _
  · refine recent.imp_of_mem fun {newer older} newerMember olderMember less => ?_
    rw [behind newer newerMember, behind older olderMember]
    exact Nat.succ_lt_succ less

/-- Touching a key that is held is a use of it. -/
theorem Recent.touch (recent : Recent uses lru.order) (isHeld : (lru.values key).isSome) :
    Recent (key :: uses) (lru.touch key).order := by
  rw [touch_of_isSome isHeld]
  have rest : Recent uses (lru.order.erase key) := recent.sublist List.erase_sublist
  exact rest.used recent.nodup.not_mem_erase

/-- Inserting is a use. -/
theorem Recent.insert (recent : Recent uses lru.order) (absent : key ∉ lru.kept) (value : Value) :
    Recent (key :: uses) (lru.insert key value).order :=
  have rest : Recent uses lru.kept := recent.sublist lru.kept_sublist
  rest.used absent

/-- Inserting drops no other value than that of the key that was used before all others. -/
theorem Recent.dropped (recent : Recent uses lru.order) (exact_ : lru.Exact) {other : Key}
    (before : (lru.values other).isSome)
    (after : ((lru.insert key value).values other).isSome = false) :
    LeastRecent uses (fun key => (lru.values key).isSome) other := by
  have missing : (lru.retained other).isSome = false := by
    by_cases same : other = key
    · subst same
      simp at after
    · rwa [values_insert_of_ne same] at after
  unfold retained at missing
  split at missing
  · rename_i isLast
    obtain ⟨front, split_⟩ := List.getLast?_eq_some_iff.mp isLast.2
    refine ⟨before, fun another isHeld different => ?_⟩
    have mem := (exact_.held another).mp isHeld
    rw [Recent, split_] at recent
    rw [split_, List.mem_append, List.mem_singleton, or_iff_left different] at mem
    exact (List.pairwise_append.mp recent).2.2 another mem other List.mem_cons_self
  · rw [before] at missing
    cases missing

end Lru

end Respublica.Foundation
