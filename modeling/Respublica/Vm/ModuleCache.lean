import Respublica.Foundation.Effect
import Respublica.Foundation.Lru
import Respublica.StateDb.Backend

/-!
# The module cache

`module_cache` keeps parsed modules by id: a list of ids in the order of use, and a map from ids
to a module and the place of its id in the list. The keys of the map are views of the bytes in
the list, and `insert_or_assign` keeps the key that is there. So list nodes have addresses here,
and a key is the address of the node it views.

Whatever is put into the cache, keys and positions stay valid (`Intact`), and the cache does what
an `Lru` does. What does not follow is that list and map agree.
-/

namespace Respublica.Vm

open Foundation Effect

/-- `default_module_cache_size`. -/
def defaultModuleCacheSize : Nat := 32

/-- A node of the list. -/
structure CacheNode where
  address : Nat
  id : Bytes
deriving DecidableEq

/-- An entry of the map: the node whose bytes are the key, the module, and the node that is the
position in the list. -/
structure CacheEntry (Stored : Type) where
  key : Nat
  module_ : Stored
  position : Nat

/-- The list with its latest id in front, the map, the most ids that are kept, and the address
of the next node. -/
structure ModuleCache (Stored : Type) where
  lruList : List CacheNode
  moduleMap : List (CacheEntry Stored)
  cacheSize : Nat
  allocated : Nat

/-- The node of a list at an address. -/
def nodeAt (nodes : List CacheNode) (address : Nat) : Option CacheNode :=
  nodes.find? fun node => node.address = address

/-- The latest node of a list with an id. -/
def newest (nodes : List CacheNode) (id : Bytes) : Option CacheNode :=
  nodes.find? fun node => node.id = id

namespace ModuleCache

variable {Stored : Type}

def create (size : Nat) : ModuleCache Stored := ⟨[], [], size, 0⟩

/-- The bytes that a key views, while its node is there. -/
def viewed (cache : ModuleCache Stored) (key : Nat) : Option Bytes :=
  (nodeAt cache.lruList key).map CacheNode.id

/-- Look for a key with the given bytes among entries. -/
def findAmong (cache : ModuleCache Stored) (id : Bytes) :
    List (CacheEntry Stored) → Except StateDb.Fault (Option (CacheEntry Stored))
  | [] => .ok none
  | entry :: rest =>
    match cache.viewed entry.key with
    | none => .error .useAfterErase
    | some bytes => if bytes = id then .ok (some entry) else cache.findAmong id rest

def find (cache : ModuleCache Stored) (id : Bytes) :
    Except StateDb.Fault (Option (CacheEntry Stored)) :=
  cache.findAmong id cache.moduleMap

/-- Move the node of a position to the front, unless it is there. -/
def toFront (position : Nat) : Effect StateDb.Fault (ModuleCache Stored) Unit := do
  let cache ← Effect.read
  if cache.lruList.head?.map CacheNode.address = some position then pure ()
  else do
    let node ← Effect.expect .useAfterErase (nodeAt cache.lruList position)
    Effect.modify fun cache => { cache with
      lruList := node :: cache.lruList.eraseP fun node => node.address = position }

def getModule (id : Bytes) : Effect StateDb.Fault (ModuleCache Stored) (Option Stored) := do
  let cache ← Effect.read
  match ← Effect.ofExcept (cache.find id) with
  | none => pure none
  | some entry => do
      toFront entry.position
      pure (some entry.module_)

/-- Drop the last id, with the entry of the map that is found for its bytes. An empty list has
no last id. -/
def evict : Effect StateDb.Fault (ModuleCache Stored) Unit := do
  let cache ← Effect.read
  let back ← Effect.expect .nullDereference cache.lruList.getLast?
  match ← Effect.ofExcept (cache.find back.id) with
  | none => Effect.modify fun cache => { cache with lruList := cache.lruList.dropLast }
  | some entry => Effect.modify fun cache => { cache with
      lruList := cache.lruList.dropLast
      moduleMap := cache.moduleMap.eraseP fun other => other.key = entry.key }

def makeRoom : Effect StateDb.Fault (ModuleCache Stored) Unit := do
  let cache ← Effect.read
  if cache.cacheSize ≤ cache.lruList.length then evict else pure ()

def emplaceFront (id : Bytes) : Effect StateDb.Fault (ModuleCache Stored) CacheNode := do
  let cache ← Effect.read
  Effect.modify fun cache => { cache with
    lruList := ⟨cache.allocated, id⟩ :: cache.lruList
    allocated := cache.allocated + 1 }
  pure ⟨cache.allocated, id⟩

/-- An entry that is found keeps its key. -/
def insertOrAssign (front : CacheNode) (module_ : Stored) :
    Effect StateDb.Fault (ModuleCache Stored) Unit := do
  let cache ← Effect.read
  match ← Effect.ofExcept (cache.find front.id) with
  | none => Effect.modify fun cache => { cache with
      moduleMap := cache.moduleMap ++ [⟨front.address, module_, front.address⟩] }
  | some entry => Effect.modify fun cache => { cache with
      moduleMap := cache.moduleMap.map fun other =>
        if other.key = entry.key then ⟨other.key, module_, front.address⟩ else other }

def putModule (id : Bytes) (module_ : Stored) : Effect StateDb.Fault (ModuleCache Stored) Unit := do
  makeRoom
  let front ← emplaceFront id
  insertOrAssign front module_

/-- What the cache stands for. -/
def abstraction (cache : ModuleCache Stored) : Lru Bytes Stored where
  capacity := cache.cacheSize
  order := cache.lruList.map CacheNode.id
  values id := (cache.moduleMap.find? fun entry => cache.viewed entry.key = some id).map
    CacheEntry.module_

/-- Every key views a node that is there, different keys view different ids, and a position is
the latest node with the id of its key. -/
structure Intact (cache : ModuleCache Stored) : Prop where
  addresses : (cache.lruList.map CacheNode.address).Nodup
  fresh : ∀ node ∈ cache.lruList, node.address < cache.allocated
  distinct : (cache.moduleMap.map fun entry => cache.viewed entry.key).Nodup
  views : ∀ entry ∈ cache.moduleMap, ∃ id, cache.viewed entry.key = some id ∧
    (newest cache.lruList id).map CacheNode.address = some entry.position

end ModuleCache

section Nodes

variable {nodes others : List CacheNode} {node : CacheNode} {address : Nat} {id : Bytes}

/-- An address finds the node that has it. -/
theorem nodeAt_eq_some_iff (distinct : (nodes.map CacheNode.address).Nodup) :
    nodeAt nodes address = some node ↔ node ∈ nodes ∧ node.address = address := by
  constructor
  · intro found
    exact ⟨List.mem_of_find?_eq_some found, by simpa using List.find?_some found⟩
  · rintro ⟨mem, rfl⟩
    cases found : nodeAt nodes node.address with
    | none => exact absurd (List.find?_eq_none.mp found node mem) (by simp)
    | some other =>
      have otherMember := List.mem_of_find?_eq_some found
      have same : other.address = node.address := by simpa using List.find?_some found
      rw [List.inj_on_of_nodup_map distinct otherMember mem same]

/-- Nodes are found wherever they are in a list. -/
theorem nodeAt_perm (distinct : (nodes.map CacheNode.address).Nodup) (perm : nodes.Perm others)
    (address : Nat) : nodeAt others address = nodeAt nodes address := by
  have otherDistinct := (perm.map CacheNode.address).nodup_iff.mp distinct
  refine Option.ext fun node => ?_
  rw [nodeAt_eq_some_iff otherDistinct, nodeAt_eq_some_iff distinct, perm.mem_iff]

/-- The latest node with an id, and where it is. -/
theorem newest_eq_some_iff : newest nodes id = some node ↔ node.id = id ∧
    ∃ before after, nodes = before ++ node :: after ∧ ∀ other ∈ before, other.id ≠ id := by
  rw [newest, List.find?_eq_some_iff_append]
  simp

/-- The latest node with an id is the latest with any id from the front on. -/
theorem newest_toFront {before after : List CacheNode}
    (others : ∀ other ∈ before, other.id ≠ node.id) (id : Bytes) :
    newest (node :: (before ++ after)) id = newest (before ++ node :: after) id := by
  by_cases named : node.id = id
  · subst named
    rw [newest_eq_some_iff.mpr ⟨rfl, before, after, rfl, others⟩]
    exact newest_eq_some_iff.mpr ⟨rfl, [], _, rfl, fun _ mem => absurd mem List.not_mem_nil⟩
  · simp [newest, named, List.find?_append]

end Nodes

namespace ModuleCache

variable {Stored : Type} {cache : ModuleCache Stored} {id : Bytes} {module_ : Stored}

theorem intact_create (size : Nat) : (create size : ModuleCache Stored).Intact :=
  ⟨List.nodup_nil, fun _ mem => absurd mem List.not_mem_nil, List.nodup_nil,
    fun _ mem => absurd mem List.not_mem_nil⟩

/-- What the cache stands for, entry by entry. -/
theorem values_eq_some_iff
    (distinct : (cache.moduleMap.map fun entry => cache.viewed entry.key).Nodup) :
    cache.abstraction.values id = some module_ ↔
      ∃ entry ∈ cache.moduleMap, cache.viewed entry.key = some id ∧ entry.module_ = module_ := by
  simp only [abstraction, Option.map_eq_some_iff]
  constructor
  · rintro ⟨entry, found, rfl⟩
    exact ⟨entry, List.mem_of_find?_eq_some found, by simpa using List.find?_some found, rfl⟩
  · rintro ⟨entry, mem, views, rfl⟩
    cases found : cache.moduleMap.find? fun entry => cache.viewed entry.key = some id with
    | none => exact absurd (List.find?_eq_none.mp found entry mem) (by simp [views])
    | some other =>
      have otherViews : cache.viewed other.key = some id := by simpa using List.find?_some found
      have same := List.inj_on_of_nodup_map distinct (List.mem_of_find?_eq_some found)
        mem (otherViews.trans views.symm)
      exact ⟨other, rfl, congrArg CacheEntry.module_ same⟩

/-- A look into the map follows no view that is gone, if there is none. -/
theorem find_eq (visible : ∀ entry ∈ cache.moduleMap, (cache.viewed entry.key).isSome)
    (id : Bytes) :
    cache.find id = .ok (cache.moduleMap.find? fun entry => cache.viewed entry.key = some id) := by
  have among : ∀ entries : List (CacheEntry Stored), (∀ entry ∈ entries, entry ∈ cache.moduleMap) →
      cache.findAmong id entries =
        .ok (entries.find? fun entry => cache.viewed entry.key = some id) := by
    intro entries
    induction entries with
    | nil => exact fun _ => rfl
    | cons entry rest ih =>
      intro known
      obtain ⟨bytes, views⟩ :=
        Option.isSome_iff_exists.mp (visible entry (known entry List.mem_cons_self))
      rw [findAmong, views]
      by_cases same : bytes = id
      · simp [same, views]
      · simp only [if_neg same]
        rw [ih fun other mem => known other (List.mem_cons_of_mem _ mem)]
        simp [views, same]
  exact among cache.moduleMap fun _ mem => mem

/-- In an intact cache every lookup returns. -/
theorem Intact.find_eq (intact : cache.Intact) (id : Bytes) :
    cache.find id = .ok (cache.moduleMap.find? fun entry => cache.viewed entry.key = some id) :=
  ModuleCache.find_eq (fun entry mem => by
    obtain ⟨bytes, views, -⟩ := intact.views entry mem
    rw [views]
    rfl) id

variable {entry : CacheEntry Stored} {node back : CacheNode} {front : List CacheNode}
  {address : Nat} {entries : List (CacheEntry Stored)} {after : ModuleCache Stored}

/-- The position of an entry is the node that comes first among those with its id. -/
theorem Intact.position (intact : cache.Intact) (mem : entry ∈ cache.moduleMap)
    (views : cache.viewed entry.key = some id) :
    ∃ node before after, cache.lruList = before ++ node :: after ∧ node.id = id ∧
      node.address = entry.position ∧ ∀ other ∈ before, other.id ≠ id := by
  obtain ⟨bytes, alsoViews, latest⟩ := intact.views entry mem
  obtain rfl := Option.some.inj (alsoViews.symm.trans views)
  obtain ⟨node, isNewest, isPosition⟩ := Option.map_eq_some_iff.mp latest
  obtain ⟨named, before, after, split_, others⟩ := newest_eq_some_iff.mp isNewest
  exact ⟨node, before, after, split_, named, isPosition, others⟩

/-- Moving a position to the front of an intact cache. -/
theorem Intact.toFront_returns (intact : cache.Intact) {before after : List CacheNode}
    (split_ : cache.lruList = before ++ node :: after) :
    (toFront node.address).Returns cache ()
      { cache with lruList := node :: (before ++ after) } := by
  have distinct := intact.addresses
  rw [split_, List.map_append, List.map_cons] at distinct
  have apart : ∀ other ∈ before, other.address ≠ node.address := by
    intro other mem same
    exact (List.nodup_append.mp distinct).2.2 _ (List.mem_map_of_mem mem) _ List.mem_cons_self
      same
  rw [Effect.Returns, toFront, read_bind]
  by_cases atFront : cache.lruList.head?.map CacheNode.address = some node.address
  · -- The node is in front already, so nothing is before it.
    have nothing : before = [] := by
      cases before with
      | nil => rfl
      | cons first rest =>
        rw [split_] at atFront
        exact absurd (Option.some.inj atFront) (apart first List.mem_cons_self)
    subst nothing
    rw [if_pos atFront, List.nil_append, ← List.nil_append (node :: after), ← split_]
    rfl
  · have found : nodeAt cache.lruList node.address = some node :=
      (nodeAt_eq_some_iff intact.addresses).mpr ⟨by simp [split_], rfl⟩
    have erased : (cache.lruList.eraseP fun other => other.address = node.address) =
        before ++ after := by
      rw [split_, List.eraseP_append_right _ (by simpa using apart), List.eraseP_cons_of_pos
        (by simp)]
    rw [if_neg atFront, found, expect_bind, Effect.modify, erased]

/-- A cache with its nodes in another order. -/
def reordered (cache : ModuleCache Stored) (nodes : List CacheNode) : ModuleCache Stored :=
  { cache with lruList := nodes }

section ToFront

variable {node : CacheNode} {before after : List CacheNode}

/-- What keys view does not depend on the order of the nodes. -/
theorem Intact.viewed_reordered (intact : cache.Intact) {nodes : List CacheNode}
    (perm : cache.lruList.Perm nodes) (key : Nat) :
    (cache.reordered nodes).viewed key = cache.viewed key := by
  rw [viewed, viewed, reordered, nodeAt_perm intact.addresses perm]

/-- A cache stays intact when the latest node with an id is moved to the front. -/
theorem Intact.toFront (intact : cache.Intact) (split_ : cache.lruList = before ++ node :: after)
    (others : ∀ other ∈ before, other.id ≠ node.id) :
    (cache.reordered (node :: (before ++ after))).Intact := by
  have perm : cache.lruList.Perm (node :: (before ++ after)) := split_ ▸ List.perm_middle
  have sameViews := intact.viewed_reordered perm
  refine ⟨(perm.map _).nodup_iff.mp intact.addresses,
    fun other isThere => intact.fresh other (perm.mem_iff.mpr isThere), ?_, fun entry mem => ?_⟩
  · simp only [sameViews]
    exact intact.distinct
  · obtain ⟨bytes, views, latest⟩ := intact.views entry mem
    refine ⟨bytes, (sameViews _).trans views, ?_⟩
    rw [← latest, split_, reordered, newest_toFront others]

/-- That is to touch its id. -/
theorem Intact.abstraction_toFront (intact : cache.Intact)
    (split_ : cache.lruList = before ++ node :: after)
    (others : ∀ other ∈ before, other.id ≠ node.id)
    (isHeld : (cache.abstraction.values node.id).isSome) :
    (cache.reordered (node :: (before ++ after))).abstraction =
      cache.abstraction.touch node.id := by
  have apart : node.id ∉ before.map CacheNode.id := by
    intro isThere
    obtain ⟨other, isBefore, same⟩ := List.mem_map.mp isThere
    exact others other isBefore same
  have order : cache.abstraction.order =
      before.map CacheNode.id ++ node.id :: after.map CacheNode.id := by
    simp [abstraction, split_]
  rw [Lru.touch_of_split isHeld order apart]
  refine Lru.ext rfl ?_ ?_
  · simp [abstraction, reordered]
  · funext other
    simp only [abstraction, intact.viewed_reordered (split_ ▸ List.perm_middle)]
    rfl

end ToFront

/-- A look-up in an intact cache gives what the cache stands for, and touches it. -/
theorem Intact.getModule_returns (intact : cache.Intact) (id : Bytes) :
    ∃ after, (getModule id).Returns cache (cache.abstraction.values id) after ∧ after.Intact ∧
      after.abstraction = cache.abstraction.touch id := by
  cases found : cache.moduleMap.find? fun entry => cache.viewed entry.key = some id with
  | none =>
    have value : cache.abstraction.values id = none := by simp [abstraction, found]
    refine ⟨cache, ?_, intact, by simp [Lru.touch, value]⟩
    rw [Effect.Returns, getModule, read_bind, intact.find_eq, found, ofExcept_bind, value]
    rfl
  | some entry =>
    have value : cache.abstraction.values id = some entry.module_ := by simp [abstraction, found]
    have views : cache.viewed entry.key = some id := by simpa using List.find?_some found
    obtain ⟨node, before, after, split_, rfl, isPosition, others⟩ :=
      intact.position (List.mem_of_find?_eq_some found) views
    have moves := intact.toFront_returns split_
    rw [isPosition] at moves
    refine ⟨_, ?_, intact.toFront split_ others,
      intact.abstraction_toFront split_ others (by rw [value]; rfl)⟩
    rw [Effect.Returns, getModule, read_bind, intact.find_eq, found, ofExcept_bind, value]
    exact returns_bind.mpr ⟨(), _, moves, rfl⟩

/-- The ids of nodes that are not the last stay visible without it. -/
theorem nodeAt_of_append (different : node.id ≠ back.id)
    (found : nodeAt (front ++ [back]) address = some node) :
    nodeAt front address = some node := by
  rw [nodeAt, List.find?_append] at found
  cases inFront : front.find? fun node => node.address = address with
  | some other =>
    rw [inFront] at found
    rwa [nodeAt, inFront]
  | none =>
    rw [inFront, Option.none_or] at found
    have isBack := List.mem_singleton.mp (List.mem_of_find?_eq_some found)
    exact absurd (congrArg CacheNode.id isBack) different

theorem newest_of_append {id : Bytes} (different : id ≠ back.id) :
    newest (front ++ [back]) id = newest front id := by
  simp [newest, List.find?_append, Ne.symm different]

/-- Erasing an entry erases what its key views. -/
theorem eraseP_eq_filter {view : Nat → Option Bytes}
    (distinct : (entries.map fun entry => view entry.key).Nodup) (mem : entry ∈ entries) :
    (entries.eraseP fun other => other.key = entry.key) =
      entries.filter fun other => view other.key ≠ view entry.key := by
  induction entries with
  | nil => cases mem
  | cons first rest ih =>
    obtain ⟨apart, restDistinct⟩ := List.nodup_cons.mp distinct
    by_cases here : first.key = entry.key
    · have others : ∀ other ∈ rest, view other.key ≠ view entry.key := by
        intro other isThere same
        exact apart (List.mem_map.mpr ⟨other, isThere, same.trans (congrArg view here.symm)⟩)
      rw [List.eraseP_cons_of_pos (by simpa using here), List.filter_cons_of_neg (by simp [here])]
      exact (List.filter_eq_self.mpr fun other isThere =>
        by simpa using others other isThere).symm
    · have inRest : entry ∈ rest := by
        rcases List.mem_cons.mp mem with rfl | inRest
        · exact absurd rfl here
        · exact inRest
      have different : view first.key ≠ view entry.key :=
        fun same => apart (List.mem_map.mpr ⟨entry, inRest, same.symm⟩)
      rw [List.eraseP_cons_of_neg (by simpa using here),
        List.filter_cons_of_pos (by simpa using different), ih restDistinct inRest]

/-- A cache without its last node and the entry for its id. -/
def evicted (cache : ModuleCache Stored) (front : List CacheNode) (back : CacheNode) :
    ModuleCache Stored :=
  { cache with
    lruList := front
    moduleMap := cache.moduleMap.filter fun entry => cache.viewed entry.key ≠ some back.id }

section Evict

variable {front : List CacheNode} {back : CacheNode}

/-- The last node is evicted with its entries. -/
theorem Intact.evict_evicted (intact : cache.Intact) (split_ : cache.lruList = front ++ [back]) :
    evict.Returns cache () (cache.evicted front back) := by
  have last : cache.lruList.getLast? = some back := by rw [split_, List.getLast?_concat]
  have firsts : cache.lruList.dropLast = front := by rw [split_, List.dropLast_concat]
  rw [Effect.Returns, evict, read_bind, last, expect_bind, intact.find_eq, ofExcept_bind]
  cases found : cache.moduleMap.find? fun entry => cache.viewed entry.key = some back.id with
  | none =>
    -- The id was twice in the list, and its entry went with the other node.
    have all : (cache.moduleMap.filter fun entry => cache.viewed entry.key ≠ some back.id) =
        cache.moduleMap :=
      List.filter_eq_self.mpr fun entry mem => by
        simpa using List.find?_eq_none.mp found entry mem
    simp only [Effect.modify, firsts, evicted, all]
  | some entry =>
    have views : cache.viewed entry.key = some back.id := by simpa using List.find?_some found
    have erased := eraseP_eq_filter intact.distinct (List.mem_of_find?_eq_some found)
    rw [views] at erased
    simp only [Effect.modify, firsts, evicted, erased]

variable {entry : CacheEntry Stored}

/-- Entries of other ids stay. -/
theorem mem_evicted :
    entry ∈ (cache.evicted front back).moduleMap ↔
      entry ∈ cache.moduleMap ∧ cache.viewed entry.key ≠ some back.id := by
  simp [evicted]

/-- The nodes that the other entries view are not the last. -/
theorem Intact.viewed_evicted (intact : cache.Intact) (split_ : cache.lruList = front ++ [back])
    (mem : entry ∈ (cache.evicted front back).moduleMap) :
    (cache.evicted front back).viewed entry.key = cache.viewed entry.key := by
  obtain ⟨old, different⟩ := mem_evicted.mp mem
  obtain ⟨id, views, -⟩ := intact.views entry old
  obtain ⟨node, found, named⟩ := Option.map_eq_some_iff.mp views
  have notLast : node.id ≠ back.id := fun same => different (by rw [views, ← named, same])
  rw [split_] at found
  rw [views, viewed, evicted, nodeAt_of_append notLast found, Option.map_some, named]

theorem Intact.evicted (intact : cache.Intact) (split_ : cache.lruList = front ++ [back]) :
    (cache.evicted front back).Intact := by
  have sublist : front.Sublist cache.lruList := split_ ▸ List.sublist_append_left front [back]
  refine ⟨intact.addresses.sublist (sublist.map _),
    fun node mem => intact.fresh node (sublist.subset mem), ?_, fun entry mem => ?_⟩
  · rw [List.map_congr_left fun entry mem => intact.viewed_evicted split_ mem]
    exact intact.distinct.sublist (List.filter_sublist.map _)
  · obtain ⟨old, different⟩ := mem_evicted.mp mem
    obtain ⟨id, views, latest⟩ := intact.views entry old
    have notLast : id ≠ back.id := fun same => different (by rw [views, same])
    rw [split_, newest_of_append notLast] at latest
    exact ⟨id, (intact.viewed_evicted split_ mem).trans views, latest⟩

/-- Eviction drops one value. -/
theorem Intact.values_evicted (intact : cache.Intact) (split_ : cache.lruList = front ++ [back])
    (id : Bytes) : (cache.evicted front back).abstraction.values id =
      if back.id = id then none else cache.abstraction.values id := by
  refine Option.ext fun module_ => ?_
  rw [values_eq_some_iff (intact.evicted split_).distinct]
  split
  · rename_i isLast
    subst isLast
    refine iff_of_false ?_ (Option.some_ne_none module_).symm
    rintro ⟨entry, mem, views, -⟩
    rw [intact.viewed_evicted split_ mem] at views
    exact (mem_evicted.mp mem).2 views
  · rename_i notLast
    rw [values_eq_some_iff intact.distinct]
    constructor
    · rintro ⟨entry, mem, views, rfl⟩
      rw [intact.viewed_evicted split_ mem] at views
      exact ⟨entry, (mem_evicted.mp mem).1, views, rfl⟩
    · rintro ⟨entry, old, views, rfl⟩
      have mem : entry ∈ (cache.evicted front back).moduleMap :=
        mem_evicted.mpr ⟨old, fun same => notLast (Option.some.inj (same.symm.trans views))⟩
      exact ⟨entry, mem, (intact.viewed_evicted split_ mem).trans views, rfl⟩

end Evict

/-- Evicting from an intact cache drops the last id and its module. -/
theorem Intact.evict_returns (intact : cache.Intact) (present : cache.lruList ≠ []) :
    ∃ after, evict.Returns cache () after ∧ after.Intact ∧ after.cacheSize = cache.cacheSize ∧
      after.abstraction.order = cache.abstraction.order.dropLast ∧
      ∀ id, after.abstraction.values id =
        if cache.abstraction.order.getLast? = some id then none else cache.abstraction.values
          id := by
  obtain ⟨front, back, split_⟩ := (List.eq_nil_or_concat cache.lruList).resolve_left present
  rw [List.concat_eq_append] at split_
  have last : cache.abstraction.order.getLast? = some back.id := by simp [abstraction, split_]
  have firsts : (cache.evicted front back).abstraction.order =
      cache.abstraction.order.dropLast := by
    simp [abstraction, ModuleCache.evicted, split_]
  refine ⟨_, intact.evict_evicted split_, intact.evicted split_, rfl, firsts, fun id => ?_⟩
  simp only [intact.values_evicted split_, last, Option.some.injEq]

/-- A node in front is the latest with its id and leaves the others to be found. -/
theorem nodeAt_cons_of_fresh {nodes : List CacheNode} {id : Bytes} {key : Nat}
    (fresh : ∀ node ∈ nodes, node.address < address) (found : nodeAt nodes key = some node) :
    nodeAt (⟨address, id⟩ :: nodes) key = some node := by
  have mem := List.mem_of_find?_eq_some found
  have named : node.address = key := by simpa using List.find?_some found
  have different : address ≠ key := fun same => by
    have older := fresh node mem
    omega
  rw [nodeAt, List.find?_cons_of_neg (by simpa using different)]
  exact found

/-- A cache with another node in front, and other entries. -/
def entering (cache : ModuleCache Stored) (id : Bytes) (entries : List (CacheEntry Stored)) :
    ModuleCache Stored :=
  ⟨⟨cache.allocated, id⟩ :: cache.lruList, entries, cache.cacheSize, cache.allocated + 1⟩

/-- A cache with another node in front. -/
def emplaced (cache : ModuleCache Stored) (id : Bytes) : ModuleCache Stored :=
  cache.entering id cache.moduleMap

/-- What keys view they view behind another node. -/
theorem Intact.viewed_emplaced (intact : cache.Intact) (id : Bytes)
    (mem : entry ∈ cache.moduleMap) :
    (cache.emplaced id).viewed entry.key = cache.viewed entry.key := by
  obtain ⟨bytes, views, -⟩ := intact.views entry mem
  obtain ⟨node, found, named⟩ := Option.map_eq_some_iff.mp views
  rw [views, viewed, emplaced, entering, nodeAt_cons_of_fresh intact.fresh found, Option.map_some,
    named]

/-- What entries must be when an id is entered: those with other ids as before, and one for the
id, with its position in front. -/
structure Entered (cache : ModuleCache Stored) (id : Bytes) (module_ : Stored)
    (entries : List (CacheEntry Stored)) : Prop where
  distinct : (entries.map fun entry => (cache.emplaced id).viewed entry.key).Nodup
  cases : ∀ entry ∈ entries, (entry ∈ cache.moduleMap ∧ cache.viewed entry.key ≠ some id) ∨
    ((cache.emplaced id).viewed entry.key = some id ∧ entry.module_ = module_ ∧
      entry.position = cache.allocated)
  others : ∀ entry ∈ cache.moduleMap, cache.viewed entry.key ≠ some id → entry ∈ entries
  here : ∃ entry ∈ entries, (cache.emplaced id).viewed entry.key = some id

theorem Entered.intact (entered : cache.Entered id module_ entries) (intact : cache.Intact) :
    (cache.entering id entries).Intact := by
  refine ⟨?_, ?_, entered.distinct, fun entry mem => ?_⟩
  · refine List.nodup_cons.mpr ⟨fun isThere => ?_, intact.addresses⟩
    obtain ⟨node, isNode, same⟩ := List.mem_map.mp isThere
    exact Nat.lt_irrefl _ (same ▸ intact.fresh node isNode)
  · intro node isThere
    rcases List.mem_cons.mp isThere with rfl | old
    · exact Nat.lt_succ_self _
    · exact Nat.lt_succ_of_lt (intact.fresh node old)
  · rcases entered.cases entry mem with ⟨old, different⟩ | ⟨views, -, inFront⟩
    · obtain ⟨bytes, views, latest⟩ := intact.views entry old
      refine ⟨bytes, (intact.viewed_emplaced id old).trans views, ?_⟩
      have other : id ≠ bytes := fun same => different (same ▸ views)
      rw [← latest, newest, entering, List.find?_cons_of_neg (by simpa using other)]
      rfl
    · refine ⟨id, views, ?_⟩
      rw [newest, entering, List.find?_cons_of_pos (by simp), inFront]
      rfl

/-- Entering adds one value. -/
theorem Entered.values (entered : cache.Entered id module_ entries) (intact : cache.Intact) :
    (cache.entering id entries).abstraction.values =
      Function.update cache.abstraction.values id (some module_) := by
  refine funext fun other => Option.ext fun stored => ?_
  rw [values_eq_some_iff entered.distinct]
  by_cases same : other = id
  · subst same
    rw [Function.update_self, Option.some.injEq]
    constructor
    · rintro ⟨entry, mem, views, rfl⟩
      rcases entered.cases entry mem with ⟨old, different⟩ | ⟨-, isModule, -⟩
      · exact absurd ((intact.viewed_emplaced other old).symm.trans views) different
      · exact isModule.symm
    · rintro rfl
      obtain ⟨entry, mem, views⟩ := entered.here
      rcases entered.cases entry mem with ⟨old, different⟩ | ⟨-, isModule, -⟩
      · exact absurd ((intact.viewed_emplaced other old).symm.trans views) different
      · exact ⟨entry, mem, views, isModule⟩
  · rw [Function.update_of_ne same, values_eq_some_iff intact.distinct]
    constructor
    · rintro ⟨entry, mem, views, rfl⟩
      rcases entered.cases entry mem with ⟨old, -⟩ | ⟨isId, -, -⟩
      · exact ⟨entry, old, (intact.viewed_emplaced id old).symm.trans views, rfl⟩
      · exact absurd (Option.some.inj (views.symm.trans isId)) same
    · rintro ⟨entry, old, views, rfl⟩
      have mem := entered.others entry old (by simpa [views] using same)
      exact ⟨entry, mem, (intact.viewed_emplaced id old).trans views, rfl⟩

/-- A key that is not there is added. -/
theorem Intact.entered_new (intact : cache.Intact) (module_ : Stored)
    (absent : ∀ entry ∈ cache.moduleMap, cache.viewed entry.key ≠ some id) :
    cache.Entered id module_
      (cache.moduleMap ++ [⟨cache.allocated, module_, cache.allocated⟩]) := by
  have newViews : (cache.emplaced id).viewed cache.allocated = some id := by
    simp [viewed, emplaced, entering, nodeAt]
  refine ⟨?_, fun entry mem => ?_, fun entry old _ => List.mem_append_left _ old,
    ⟨_, List.mem_append_right _ List.mem_cons_self, newViews⟩⟩
  · rw [List.map_append, List.map_congr_left fun entry old => intact.viewed_emplaced id old,
      List.map_singleton, newViews]
    refine List.nodup_append.mpr ⟨intact.distinct, List.nodup_singleton _, ?_⟩
    rintro _ isOld _ isNew rfl
    obtain ⟨entry, old, views⟩ := List.mem_map.mp isOld
    exact absent entry old (views.trans (List.mem_singleton.mp isNew))
  · rcases List.mem_append.mp mem with old | new
    · exact .inl ⟨old, absent entry old⟩
    · obtain rfl := List.mem_singleton.mp new
      exact .inr ⟨newViews, rfl, rfl⟩

/-- A key that is there stays, and its value is assigned. -/
theorem Intact.entered_assigned (intact : cache.Intact) (module_ : Stored)
    {found : CacheEntry Stored} (isThere : found ∈ cache.moduleMap)
    (views : cache.viewed found.key = some id) :
    cache.Entered id module_ (cache.moduleMap.map fun other =>
      if other.key = found.key then ⟨other.key, module_, cache.allocated⟩ else other) := by
  have onlyFound : ∀ other ∈ cache.moduleMap, cache.viewed other.key = some id →
      other.key = found.key := fun other old otherViews =>
    congrArg CacheEntry.key
      (List.inj_on_of_nodup_map intact.distinct old isThere (otherViews.trans views.symm))
  refine ⟨?_, fun entry mem => ?_, fun entry old different => ?_, ?_⟩
  · rw [List.map_map]
    have sameKeys : ∀ other ∈ cache.moduleMap,
        ((fun entry => (cache.emplaced id).viewed entry.key) ∘
        fun other => if other.key = found.key then
          (⟨other.key, module_, cache.allocated⟩ : CacheEntry Stored) else other) other =
        cache.viewed other.key := by
      intro other old
      rw [Function.comp_apply, ← intact.viewed_emplaced id old]
      split <;> rfl
    rw [List.map_congr_left sameKeys]
    exact intact.distinct
  · obtain ⟨other, old, rfl⟩ := List.mem_map.mp mem
    by_cases isFound : other.key = found.key
    · rw [if_pos isFound]
      refine .inr ⟨?_, rfl, rfl⟩
      rw [isFound, intact.viewed_emplaced id isThere, views]
    · rw [if_neg isFound]
      exact .inl ⟨old, fun otherViews => isFound (onlyFound other old otherViews)⟩
  · refine List.mem_map.mpr ⟨entry, old, if_neg fun same => different ?_⟩
    rw [same, views]
  · refine ⟨_, List.mem_map.mpr ⟨found, isThere, if_pos rfl⟩, ?_⟩
    rw [intact.viewed_emplaced id isThere, views]

/-- Emplacing an id in front of an intact cache and entering it into the map. -/
theorem Intact.enter_returns (intact : cache.Intact) (id : Bytes) (module_ : Stored) :
    ∃ after, (emplaceFront id >>= fun front => insertOrAssign front module_).Returns cache
      () after ∧
      after.Intact ∧ after.cacheSize = cache.cacheSize ∧
      after.abstraction.order = id :: cache.abstraction.order ∧
      after.abstraction.values = Function.update cache.abstraction.values id (some module_) := by
  have emplaces : (emplaceFront id).Returns cache ⟨cache.allocated, id⟩ (cache.emplaced id) := rfl
  have looked : (cache.emplaced id).find id =
      .ok (cache.moduleMap.find? fun entry => (cache.emplaced id).viewed entry.key = some id) := by
    refine ModuleCache.find_eq (fun entry mem => ?_) id
    obtain ⟨bytes, views, -⟩ := intact.views entry mem
    rw [intact.viewed_emplaced id mem, views]
    rfl
  cases found : cache.moduleMap.find? fun entry => (cache.emplaced id).viewed entry.key =
    some id with
  | none =>
    have absent : ∀ entry ∈ cache.moduleMap, cache.viewed entry.key ≠ some id := by
      intro entry mem
      rw [← intact.viewed_emplaced id mem]
      simpa using List.find?_eq_none.mp found entry mem
    have entered := intact.entered_new module_ absent
    refine ⟨cache.entering id _, ?_, entered.intact intact, rfl, rfl, entered.values intact⟩
    rw [Effect.Returns, emplaces.bind_eq, insertOrAssign, read_bind, looked, found, ofExcept_bind]
    rfl
  | some entry =>
    have mem := List.mem_of_find?_eq_some found
    have views : cache.viewed entry.key = some id := by
      rw [← intact.viewed_emplaced id mem]
      simpa using List.find?_some found
    have entered := intact.entered_assigned module_ mem views
    refine ⟨cache.entering id _, ?_, entered.intact intact, rfl, rfl, entered.values intact⟩
    rw [Effect.Returns, emplaces.bind_eq, insertOrAssign, read_bind, looked, found, ofExcept_bind]
    rfl

/-- Making room leaves what an insertion leaves. A cache of size zero has nothing to evict. -/
theorem Intact.makeRoom_returns (intact : cache.Intact)
    (room : 0 < cache.cacheSize ∨ cache.lruList ≠ []) :
    ∃ after, makeRoom.Returns cache () after ∧ after.Intact ∧ after.cacheSize = cache.cacheSize ∧
      after.abstraction.order = cache.abstraction.kept ∧
      after.abstraction.values = cache.abstraction.retained := by
  have full_iff : cache.abstraction.Full ↔ cache.cacheSize ≤ cache.lruList.length := by
    simp [Lru.Full, abstraction]
  by_cases full : cache.cacheSize ≤ cache.lruList.length
  · have present : cache.lruList ≠ [] := by
      rcases room with positive | present
      · exact List.ne_nil_of_length_pos (Nat.lt_of_lt_of_le positive full)
      · exact present
    obtain ⟨after, evicts, afterIntact, sameSize, order, values⟩ := intact.evict_returns present
    refine ⟨after, ?_, afterIntact, sameSize, ?_, funext fun id => ?_⟩
    · rw [Effect.Returns, makeRoom, read_bind, if_pos full]
      exact evicts
    · rw [order, Lru.kept, if_pos (full_iff.mpr full)]
    · rw [values, Lru.retained]
      simp only [full_iff.mpr full, true_and]
  · refine ⟨cache, ?_, intact, rfl, ?_, funext fun id => ?_⟩
    · rw [Effect.Returns, makeRoom, read_bind, if_neg full]
      rfl
    · rw [Lru.kept, if_neg (full_iff.not.mpr full)]
    · rw [Lru.retained, if_neg fun both => full (full_iff.mp both.1)]

/-- Putting a module into an intact cache inserts it. -/
theorem Intact.putModule_returns (intact : cache.Intact)
    (room : 0 < cache.cacheSize ∨ cache.lruList ≠ []) (id : Bytes) (module_ : Stored) :
    ∃ after, (putModule id module_).Returns cache () after ∧ after.Intact ∧
      after.abstraction = cache.abstraction.insert id module_ := by
  obtain ⟨roomy, makes, roomyIntact, roomySize, kept, retained⟩ := intact.makeRoom_returns room
  obtain ⟨after, enters, afterIntact, afterSize, order, values⟩ :=
    roomyIntact.enter_returns id module_
  refine ⟨after, ?_, afterIntact, Lru.ext (afterSize.trans roomySize) ?_ ?_⟩
  · rw [Effect.Returns, putModule, makes.bind_eq]
    exact enters
  · rw [order, kept]
    rfl
  · rw [values, retained]
    rfl

/-- A module is put only where there is room, or something to evict. -/
theorem room_of_putModule (gave : (putModule id module_).Returns cache () after) :
    0 < cache.cacheSize ∨ cache.lruList ≠ [] := by
  by_contra noRoom
  rw [not_or, Nat.not_lt, Nat.le_zero, not_not] at noRoom
  obtain ⟨none_, nothing⟩ := noRoom
  obtain ⟨_, _, makes, -⟩ := returns_bind.mp gave
  rw [Effect.Returns, makeRoom, read_bind, if_pos (by simp [none_]), evict, read_bind,
    nothing] at makes
  cases makes

/-- What was put into an intact cache was inserted. -/
theorem Intact.of_putModule (intact : cache.Intact)
    (gave : (putModule id module_).Returns cache () after) :
    after.Intact ∧ after.abstraction = cache.abstraction.insert id module_ := by
  obtain ⟨other, puts, otherIntact, inserted⟩ :=
    intact.putModule_returns (room_of_putModule gave) id module_
  obtain ⟨-, rfl⟩ := gave.unique puts
  exact ⟨otherIntact, inserted⟩

/-- A lookup finds the value and touches its id. -/
theorem Intact.of_getModule (intact : cache.Intact) {found : Option Stored}
    (gave : (getModule id).Returns cache found after) :
    found = cache.abstraction.values id ∧ after.Intact ∧
      after.abstraction = cache.abstraction.touch id := by
  obtain ⟨other, gets, otherIntact, touched⟩ := intact.getModule_returns id
  obtain ⟨rfl, rfl⟩ := gave.unique gets
  exact ⟨rfl, otherIntact, touched⟩

/-- The map has an entry for an id. -/
def Holds (cache : ModuleCache Stored) (id : Bytes) : Prop :=
  ∃ entry ∈ cache.moduleMap, cache.viewed entry.key = some id

/-- The representation that the cache is meant to have: no id twice in the list, the keys are the
ids of the list, a position holds the id of its key, and there are not more entries than the
cache is to keep. -/
structure Represented (cache : ModuleCache Stored) : Prop where
  distinct : (cache.lruList.map CacheNode.id).Nodup
  keys : ∀ id, cache.Holds id ↔ id ∈ cache.lruList.map CacheNode.id
  positions : ∀ entry ∈ cache.moduleMap, ∃ node ∈ cache.lruList, node.address = entry.position ∧
    cache.viewed entry.key = some node.id
  bounded : cache.moduleMap.length ≤ cache.cacheSize

/-- An id is held if it has a value. -/
theorem Intact.holds_iff (intact : cache.Intact) (id : Bytes) :
    cache.Holds id ↔ (cache.abstraction.values id).isSome := by
  simp only [Option.isSome_iff_exists, values_eq_some_iff intact.distinct]
  constructor
  · rintro ⟨entry, mem, views⟩
    exact ⟨entry.module_, entry, mem, views, rfl⟩
  · rintro ⟨module_, entry, mem, views, -⟩
    exact ⟨entry, mem, views⟩

/-- An id that has an entry is in the list. -/
theorem Intact.mem_of_holds (intact : cache.Intact) (holds : cache.Holds id) :
    id ∈ cache.abstraction.order := by
  obtain ⟨entry, mem, views⟩ := holds
  obtain ⟨node, before, after, split_, named, -⟩ := intact.position mem views
  exact List.mem_map.mpr ⟨node, by simp [split_], named⟩

/-- A cache of ids has no more entries than ids. -/
theorem Intact.length_le (intact : cache.Intact) :
    cache.moduleMap.length ≤ cache.lruList.length := by
  have known : (cache.moduleMap.map fun entry => cache.viewed entry.key) ⊆
      cache.lruList.map fun node => some node.id := by
    intro _ isThere
    obtain ⟨entry, mem, rfl⟩ := List.mem_map.mp isThere
    obtain ⟨id, views, -⟩ := intact.views entry mem
    obtain ⟨node, found, named⟩ := Option.map_eq_some_iff.mp views
    exact List.mem_map.mpr ⟨node, List.mem_of_find?_eq_some found, by rw [views, named]⟩
  simpa using (List.subperm_of_subset intact.distinct known).length_le

/-- An intact cache that keeps to its size is represented as it is meant to be exactly when list
and map agree. -/
theorem Intact.represented_iff (intact : cache.Intact)
    (bound : cache.lruList.length ≤ cache.cacheSize) :
    cache.Represented ↔ cache.abstraction.Exact := by
  constructor
  · intro represented
    exact ⟨represented.distinct, fun id => (intact.holds_iff id).symm.trans (represented.keys id)⟩
  · intro exact_
    refine ⟨exact_.distinct, fun id => (intact.holds_iff id).trans (exact_.held id), ?_,
      Nat.le_trans intact.length_le bound⟩
    intro entry mem
    obtain ⟨id, views, -⟩ := intact.views entry mem
    obtain ⟨node, before, after, split_, named, isPosition, -⟩ := intact.position mem views
    exact ⟨node, by simp [split_], isPosition, by rw [views, named]⟩

end ModuleCache

end Respublica.Vm
