import Respublica.Controller.Layering

/-!
# The head of the chain

The head that queries, reads and transactions on their own work on is, in every run, the node
of the first accepted block among the highest: a block takes the lead only from a lower one.
Refused blocks, blocks that throw and transactions on their own leave it where it is.
-/

namespace Respublica.Controller

open Foundation Crypto Program Protocol StateDb

variable {env : Env} {entries : List GenesisEntry} {history : List (Nat × Block)}
  {db after : Database} {root node : Nat} {block : Block} {now : Int}

/-- A final node of an index, with its id. -/
structure FinalNode (db : Database) (node : Nat) (id : StateNodeId) : Prop where
  indexed : node ∈ db.index
  final : db.heap.final node = true
  named : db.heap.id node = .ok id

/-- Such a node is the root, which has the null id, or was made for an accepted block. -/
theorem Chained.standing (chained : Chained env history db root) {id : StateNodeId}
    (finalNode : FinalNode db node id) :
    node = root ∧ id = nullId ∨
      id ≠ nullId ∧ ∃ block, (node, block) ∈ history ∧ block.id = id := by
  have tracked := chained.tracked
  have top := tracked.rooted.top node (tracked.inside node finalNode.indexed)
  by_cases isNull : id = nullId
  · exact .inl ⟨chained.nullRoot node finalNode.indexed (isNull ▸ finalNode.named), isNull⟩
  · refine .inr ⟨isNull, ?_⟩
    rcases tracked.accepted node finalNode.indexed finalNode.final with isTop | ⟨block, accepted⟩
    · obtain rfl := top.mp isTop
      exact absurd (Except.ok.inj (finalNode.named.symm.trans tracked.genesis.2.1)) isNull
    · have named := (chained.links node block accepted).named
      exact ⟨block, accepted, Except.ok.inj (named.symm.trans finalNode.named)⟩

theorem Extends.finalNode {parent : Nat} (extends_ : Extends block db parent) :
    FinalNode db parent block.previous := by
  obtain ⟨named, indexed⟩ := Database.id_of_findAmong extends_.named
  exact ⟨indexed, extends_.final, named⟩

/-- A node leads a history of accepted blocks at a height: it is the root while there are none,
and then the node of a block that is higher than all before it and not lower than any after
it. -/
def Leads (history : List (Nat × Block)) (head : Nat) (height : UInt64) : Prop :=
  (history = [] ∧ head = 0 ∧ height = 0) ∨
    ∃ earlier block later, history = earlier ++ (head, block) :: later ∧ block.height = height ∧
      (∀ entry ∈ earlier, entry.2.height < height) ∧ ∀ entry ∈ later, entry.2.height ≤ height

namespace Leads

variable {head : Nat} {height : UInt64}

/-- No accepted block is higher than the one that leads. -/
theorem highest (leads : Leads history head height) {entry : Nat × Block} (mem : entry ∈ history) :
    entry.2.height ≤ height := by
  rcases leads with ⟨rfl, -⟩ | ⟨earlier, block, later, rfl, rfl, lower, notHigher⟩
  · cases mem
  · rcases List.mem_append.mp mem with before | rest
    · exact UInt64.le_of_lt (lower entry before)
    · rcases List.mem_cons.mp rest with rfl | behind
      · exact UInt64.le_refl _
      · exact notHigher entry behind

/-- A further block leads if it is higher, and otherwise changes nothing. -/
theorem append (leads : Leads history head height) (positive : 0 < block.height) :
    Leads (history ++ [(node, block)]) (if height < block.height then node else head)
      (if height < block.height then block.height else height) := by
  by_cases higher : height < block.height
  · rw [if_pos higher, if_pos higher]
    refine .inr ⟨history, block, [], rfl, rfl, fun entry mem => ?_,
      fun _ mem => absurd mem List.not_mem_nil⟩
    exact UInt64.lt_of_le_of_lt (leads.highest mem) higher
  · rw [if_neg higher, if_neg higher]
    rcases leads with ⟨-, -, rfl⟩ | ⟨earlier, leader, later, rfl, rfl, lower, notHigher⟩
    · exact absurd positive higher
    · refine .inr ⟨earlier, leader, later ++ [(node, block)], by simp, rfl, lower, ?_⟩
      intro entry mem
      rcases List.mem_append.mp mem with before | last
      · exact notHigher entry before
      · obtain rfl := List.mem_singleton.mp last
        exact UInt64.not_lt.mp higher

end Leads

/-- The head of a database is the final node that leads the blocks it has accepted. -/
structure Headed (history : List (Nat × Block)) (db : Database) (head : Nat)
    (height : UInt64) : Prop where
  isHead : db.head = some head
  indexed : head ∈ db.index
  final : db.heap.final head = true
  revised : db.heap.revision head = .ok height
  leads : Leads history head height

theorem Headed.unmoved {head : Nat} {height : UInt64} (headed : Headed history db head height)
    (unmoved : Unmoved env db after) : Headed history after head height := by
  have inside := Heap.lt_size_of_final headed.final
  have carried := unmoved.carried
  exact ⟨unmoved.head.trans headed.isHead, carried.index head headed.indexed,
    carried.finals head inside headed.final, (carried.revisions head inside).trans headed.revised,
    headed.leads⟩

/-- A valid block is above the root. -/
theorem height_pos_of_validate {crypto : Primitives} (valid : block.validate crypto = true) :
    0 < block.height := by
  simp only [Block.validate, Bool.and_eq_true, bne_iff_ne] at valid
  exact UInt64.pos_iff_ne_zero.mpr valid.1.1.1.1.1

/-- An accepted block takes the lead or leaves it. -/
theorem Headed.accept {head : Nat} {height : UInt64} (headed : Headed history db head height)
    (chained : Chained env history db root) {receipt : BlockReceipt}
    (gave : (processBlock env block now).Returns db (.ok receipt) after) :
    Headed (history ++ [(db.heap.size, block)]) after
      (if height < block.height then db.heap.size else head)
      (if height < block.height then block.height else height) := by
  obtain ⟨parent, checked, context, acceptance⟩ := chained.tracked.acceptance gave
  have carried := acceptance.carried
  have inside := Heap.lt_size_of_final headed.final
  have placed := (chained.accept acceptance).tracked.placed db.heap.size block
    (List.mem_append_right _ (List.mem_singleton.mpr rfl))
  obtain ⟨_, _, _, accepted⟩ := accepted_outcome chained.tracked gave
  obtain ⟨_, headRevision, revision, isHead, headRevised, revised, chosen⟩ := accepted.head
  obtain rfl := Option.some.inj (headed.isHead.symm.trans isHead)
  obtain rfl := Except.ok.inj (headed.revised.symm.trans headRevised)
  obtain rfl := Except.ok.inj ((acceptance.link chained).revised.symm.trans revised)
  refine ⟨chosen, ?_, ?_, ?_, headed.leads.append (height_pos_of_validate acceptance.valid)⟩
  · split
    · exact placed.indexed
    · exact carried.index head headed.indexed
  · split
    · exact placed.final
    · exact carried.finals head inside headed.final
  · split
    · exact revised
    · exact (carried.revisions head inside).trans headed.revised

/-- Every run has a head at some height. -/
theorem ProcessRun.headed (run : ProcessRun env entries history db) :
    ∃ head height, Headed history db head height := by
  refine run.invariant (fun history db => ∃ head height, Headed history db head height)
    ?_ ?_ ?_
  · intro db gave
    have opens := openIndex_of_openController gave
    obtain ⟨-, isHead, onlyRoot, -, isFinal⟩ :=
      Database.openIndex_opens (Database.writeAll_extends _ 0) opens
    exact ⟨0, 0, isHead, onlyRoot ▸ List.mem_singleton.mpr rfl, isFinal,
      Database.openIndex_revision opens, .inl ⟨rfl, rfl, rfl⟩⟩
  · rintro history before after earlier unmoved ⟨head, height, headed⟩
    exact ⟨head, height, headed.unmoved unmoved⟩
  · rintro history before after block now receipt earlier gave ⟨head, height, headed⟩
    exact ⟨_, _, headed.accept earlier.chained gave⟩

/-- The head of a run is a final node of the index. -/
theorem ProcessRun.head_final (run : ProcessRun env entries history db)
    (isHead : db.head = some node) : ∃ id, FinalNode db node id := by
  obtain ⟨head, height, headed⟩ := run.headed
  obtain rfl := Option.some.inj (isHead.symm.trans headed.isHead)
  obtain ⟨id, named⟩ := Heap.id_of_backed run.chained.tracked.rooted.backed
    (Heap.lt_size_of_final headed.final)
  exact ⟨id, headed.indexed, headed.final, named⟩

end Respublica.Controller
