import Mathlib.Algebra.BigOperators.Group.List.Basic
import Mathlib.Logic.Relation
import GrammarFuzz.Proofs.Offers

/-! Coverage read off trees of any shape. Recording a tree covers the keys of the grammar among
those that it shows, and as the covered keys are a set, neither they nor their number depend on
which of the waiting nodes is visited next. -/
namespace GrammarFuzz

namespace Tree

mutual

def nodeCount : Tree → Nat
  | pending _ => 1
  | node _ children => 1 + forestNodeCount children

def forestNodeCount : List Tree → Nat
  | [] => 0
  | child :: rest => nodeCount child + forestNodeCount rest

end

theorem forestNodeCount_eq (forest : List Tree) :
    forestNodeCount forest = (forest.map nodeCount).sum := by
  induction forest with
  | nil => rfl
  | cons child rest ih => rw [forestNodeCount, ih, List.map_cons, List.sum_cons]

theorem forestNodeCount_children_lt (tree : Tree) :
    forestNodeCount tree.children < tree.nodeCount := by
  cases tree with
  | pending symbol =>
      rw [nodeCount]
      exact Nat.one_pos
  | node symbol children =>
      rw [nodeCount, Nat.add_comm]
      exact Nat.lt_succ_self _

theorem forestNodeCount_exposed_lt (node : Tree) :
    forestNodeCount node.exposed < node.nodeCount := by
  have below := forestNodeCount_children_lt node
  unfold exposed
  split
  · exact below
  · exact Nat.zero_lt_of_lt below

end Tree

namespace Tracker

variable {t : Tracker} {keys keys' : List Key}

theorem size_recordKey (t : Tracker) (key : Key) :
    (t.recordKey key).2.covered.size = t.covered.size + (t.recordKey key).1.toNat := by
  have records := t.records_recordKey key
  generalize t.recordKey key = call at records
  rcases call with ⟨_ | _, after⟩
  · obtain rfl : after = t := records
    rfl
  · obtain ⟨uncovered, covered⟩ := records
    rw [covered, Std.ExtTreeSet.size_insert,
      if_neg (Std.ExtTreeSet.contains_iff_mem.not.mpr uncovered)]
    rfl

theorem recordKeys_cons (t : Tracker) (key : Key) (keys : List Key) : t.recordKeys (key :: keys) =
    ((t.recordKey key).1.toNat + ((t.recordKey key).2.recordKeys keys).1,
      ((t.recordKey key).2.recordKeys keys).2) := by
  have counted : ∀ (keys : List Key) (added : Nat) (t : Tracker),
      keys.foldl (fun (counted : Nat × Tracker) key =>
        (counted.1 + (counted.2.recordKey key).1.toNat, (counted.2.recordKey key).2))
        (added, t) = (added + (t.recordKeys keys).1, (t.recordKeys keys).2) := by
    intro keys
    induction keys with
    | nil => exact fun _ _ => rfl
    | cons key keys ih =>
        intro added t
        simp only [recordKeys, List.foldl_cons] at ih ⊢
        rw [ih, ih (0 + _), Nat.zero_add, Nat.add_assoc]
  rw [← counted]
  simp only [recordKeys, List.foldl_cons, Nat.zero_add]

theorem recordKeys_append (t : Tracker) (keys keys' : List Key) : t.recordKeys (keys ++ keys') =
    ((t.recordKeys keys).1 + ((t.recordKeys keys).2.recordKeys keys').1,
      ((t.recordKeys keys).2.recordKeys keys').2) := by
  induction keys generalizing t with
  | nil => simp [recordKeys]
  | cons key keys ih => rw [List.cons_append, recordKeys_cons, ih, recordKeys_cons, Nat.add_assoc]

theorem recordKeys_singleton (t : Tracker) (key : Key) :
    t.recordKeys [key] = ((t.recordKey key).1.toNat, (t.recordKey key).2) :=
  t.recordKeys_cons key []

theorem recordKeys_snd (t : Tracker) (keys : List Key) :
    (t.recordKeys keys).2 = keys.foldl cover t :=
  (List.foldl_hom Prod.snd fun _ _ => rfl).symm

/-- What is counted is by how much the covered keys become more. -/
theorem size_recordKeys (t : Tracker) (keys : List Key) :
    (t.recordKeys keys).2.covered.size = t.covered.size + (t.recordKeys keys).1 := by
  induction keys generalizing t with
  | nil => rfl
  | cons key keys ih => rw [recordKeys_cons, ih, size_recordKey, Nat.add_assoc]

/-- Only the set of keys matters. -/
theorem recordKeys_congr (same : ∀ key, key ∈ keys ↔ key ∈ keys') :
    t.recordKeys keys = t.recordKeys keys' := by
  have trackers : (t.recordKeys keys).2 = (t.recordKeys keys').2 := by
    rw [recordKeys_snd, recordKeys_snd]
    refine ext_covered (by rw [grammar_foldl_cover, grammar_foldl_cover]) fun key => ?_
    rw [mem_covered_foldl_cover, mem_covered_foldl_cover, same]
  have counts := t.size_recordKeys keys
  rw [trackers, t.size_recordKeys keys'] at counts
  exact Prod.ext (Nat.add_left_cancel counts).symm trackers

theorem recordKeys_of_covered (covered : ∀ key ∈ keys, key ∈ t.maximum → key ∈ t.covered) :
    t.recordKeys keys = (0, t) := by
  have same : (t.recordKeys keys).2 = t := by
    rw [recordKeys_snd]
    refine ext_covered (grammar_foldl_cover keys t) fun key => ?_
    rw [mem_covered_foldl_cover, ← t.maximum_eq]
    exact or_iff_left_of_imp fun listed => covered key listed.1 listed.2
  have counts := t.size_recordKeys keys
  rw [same] at counts
  exact Prod.ext (by omega) same

end Tracker

/-- A tree being recorded: how many keys were new so far, and the nodes that wait to be visited. -/
structure Traversal where
  tracker : Tracker
  added : Nat
  waiting : List Tree

namespace Traversal

open GrammarFuzz.Tree

variable {t : Tracker} {before after : Traversal}

/-- Any waiting node is visited: its key is recorded, if it has one, and its children wait in
turn. -/
inductive Visits : Traversal → Traversal → Prop
  | next {t : Tracker} {added : Nat} {node : Tree} {waiting rest later : List Tree}
      (taken : waiting.Perm (node :: rest)) (put : later.Perm (node.exposed ++ rest)) :
      Visits ⟨t, added, waiting⟩
        ⟨(t.recordKeys node.ownKey?.toList).2, added + (t.recordKeys node.ownKey?.toList).1, later⟩

/-- What comes of a traversal if it is brought to its end. -/
def outcome (traversal : Traversal) : Nat × Tracker :=
  (traversal.added + (traversal.tracker.recordKeys (traversal.waiting.flatMap usedKeys)).1,
    (traversal.tracker.recordKeys (traversal.waiting.flatMap usedKeys)).2)

/-- The invariant: no visit changes what comes of the traversal. -/
theorem outcome_visits (visits : Visits before after) : after.outcome = before.outcome := by
  obtain @⟨t, added, node, waiting, rest, later, taken, put⟩ := visits
  have ahead : t.recordKeys (waiting.flatMap usedKeys) =
      t.recordKeys (node.ownKey?.toList ++ (node.exposed ++ rest).flatMap usedKeys) := by
    refine Tracker.recordKeys_congr fun key => ?_
    rw [(taken.flatMap_right usedKeys).mem_iff, List.flatMap_cons, usedKeys_eq, List.flatMap_append,
      List.append_assoc]
  have after (t : Tracker) : t.recordKeys (later.flatMap usedKeys) =
      t.recordKeys ((node.exposed ++ rest).flatMap usedKeys) :=
    Tracker.recordKeys_congr fun key => (put.flatMap_right usedKeys).mem_iff
  simp only [outcome, ahead, after, Tracker.recordKeys_append, Nat.add_assoc]

theorem outcome_walk (walk : Relation.ReflTransGen Visits before after) :
    after.outcome = before.outcome := by
  induction walk with
  | refl => rfl
  | tail _ last ih => exact (outcome_visits last).trans ih

theorem nodeCount_visits (visits : Visits before after) :
    forestNodeCount after.waiting < forestNodeCount before.waiting := by
  obtain @⟨_, _, node, _, _, _, taken, put⟩ := visits
  rw [forestNodeCount_eq, forestNodeCount_eq, (put.map nodeCount).sum_eq,
    (taken.map nodeCount).sum_eq, List.map_append, List.sum_append, List.map_cons, List.sum_cons,
    ← forestNodeCount_eq]
  exact Nat.add_lt_add_right (forestNodeCount_exposed_lt node) _

/-- In whatever order nodes are visited, they run out. -/
theorem wellFounded_visits : WellFounded (flip Visits) :=
  Subrelation.wf (fun visits => nodeCount_visits visits)
    (InvImage.wf (fun traversal : Traversal => forestNodeCount traversal.waiting) wellFounded_lt)

theorem exists_visits (waits : before.waiting ≠ []) : ∃ after, Visits before after := by
  obtain ⟨t, added, waiting⟩ := before
  obtain ⟨node, rest, rfl⟩ := List.exists_cons_of_ne_nil waits
  exact ⟨_, .next (.refl _) (.refl _)⟩

end Traversal

namespace Tracker

open GrammarFuzz.Tree

/-- Take nodes off a stack, the last one put on it first. A nonterminal with children is recorded by
their symbols, and they are put on the stack; below anything else nothing is looked at. -/
def stackRecord (t : Tracker) (added : Nat) : List Tree → Nat × Tracker
  | [] => (added, t)
  | top :: stack =>
      if isNonterminal top.symbol then
        match top.expansionText? with
        | some text =>
            stackRecord (t.recordText top.symbol text).2
              (added + (t.recordText top.symbol text).1.toNat)
              (top.children.reverse ++ stack)
        | none => stackRecord t added (top.children.reverse ++ stack)
      else stackRecord t added stack
termination_by stack => forestNodeCount stack
decreasing_by
  all_goals
    have below := forestNodeCount_children_lt top
    rw [forestNodeCount_eq] at below
    simp only [forestNodeCount_eq, List.map_append, List.map_reverse, List.sum_append,
      List.sum_reverse, List.map_cons, List.sum_cons]
    omega

/-- The stack is one of the orders. -/
theorem stackRecord_eq_outcome (t : Tracker) (added : Nat) (stack : List Tree) :
    t.stackRecord added stack = Traversal.outcome ⟨t, added, stack⟩ := by
  have visit (t : Tracker) (added : Nat) {top : Tree} {stack later : List Tree}
      (put : later.Perm (top.exposed ++ stack)) : Traversal.Visits ⟨t, added, top :: stack⟩
        ⟨(t.recordKeys top.ownKey?.toList).2, added + (t.recordKeys top.ownKey?.toList).1, later⟩ :=
    .next (.refl _) put
  have put {top : Tree} (stack : List Tree) (closed : isNonterminal top.symbol = true) :
      (top.children.reverse ++ stack).Perm (top.exposed ++ stack) := by
    rw [exposed, if_pos closed]
    exact (List.reverse_perm _).append_right stack
  fun_induction stackRecord t added stack with
  | case1 t added => rfl
  | case2 t added top stack closed text given ih =>
      have own : top.ownKey? = some (Key.ofText top.symbol text) := by
        rw [ownKey?, if_pos closed, given]
        rfl
      have visits := visit t added (put stack closed)
      rw [own, Option.toList_some, recordKeys_singleton] at visits
      exact ih.trans (Traversal.outcome_visits visits)
  | case3 t added top stack closed given ih =>
      have own : top.ownKey? = none := by
        rw [ownKey?, if_pos closed, given]
        rfl
      have visits := visit t added (put stack closed)
      rw [own] at visits
      exact ih.trans (Traversal.outcome_visits visits)
  | case4 t added top stack opened ih =>
      have own : top.ownKey? = none := if_neg opened
      have below : top.exposed = [] := if_neg opened
      have visits := visit t added (.refl (top.exposed ++ stack))
      rw [own, below] at visits
      exact ih.trans (Traversal.outcome_visits visits)

theorem recordTree_eq_outcome (t : Tracker) (tree : Tree) :
    t.recordTree tree = Traversal.outcome ⟨t, 0, [tree]⟩ := by
  simp [recordTree, Traversal.outcome]

/-- Recording a tree of any shape covers the keys of the grammar among those of its exposed nodes
with children, and says by how much the covered keys became more; once more, it adds nothing. A walk
with a stack does the same, and so does every walk that visits whichever waiting node it likes
until, as must happen, none is left. -/
theorem recordTree_exact (t : Tracker) (tree : Tree) :
    let after := (t.recordTree tree).2
    (after.grammar = t.grammar ∧ ∀ key, key ∈ after.covered ↔ key ∈ t.covered ∨ key ∈ t.maximum ∧
      ∃ path node, tree.Exposes path node ∧ node.children ≠ [] ∧
        key = Key.ofText node.symbol (String.join (node.children.map Tree.symbol))) ∧
    after.covered.size = t.covered.size + (t.recordTree tree).1 ∧
    after.recordTree tree = (0, after) ∧
    t.stackRecord 0 [tree] = t.recordTree tree ∧
    (∀ walk, Relation.ReflTransGen Traversal.Visits ⟨t, 0, [tree]⟩ walk →
      (walk.waiting = [] → (walk.added, walk.tracker) = t.recordTree tree) ∧
      (walk.waiting ≠ [] → ∃ next, walk.Visits next)) ∧
    WellFounded (flip Traversal.Visits) := by
  intro after
  have same : after.grammar = t.grammar :=
    (congrArg grammar (t.recordTree_snd tree)).trans (grammar_foldl_cover _ t)
  have covers (key : Key) : key ∈ after.covered ↔
      key ∈ t.covered ∨ key ∈ tree.usedKeys ∧ key ∈ t.maximum := by
    rw [t.maximum_eq, ← mem_covered_foldl_cover, ← recordTree_snd]
  refine ⟨⟨same, fun key => ?_⟩, t.size_recordKeys _,
    recordKeys_of_covered fun key used known => ?_, ?_,
    fun walk walks => ⟨fun ended => ?_, Traversal.exists_visits⟩, Traversal.wellFounded_visits⟩
  · rw [covers, Tree.mem_usedKeys_iff_shows, and_comm]
    rfl
  · rw [after.maximum_eq, same, ← t.maximum_eq] at known
    exact (covers key).mpr (.inr ⟨used, known⟩)
  · rw [stackRecord_eq_outcome, recordTree_eq_outcome]
  · rw [recordTree_eq_outcome, ← Traversal.outcome_walk walks, Traversal.outcome, ended]
    rfl

/-- Two nodes with one key, a foreign expansion, an expansion below a terminal, and a pending
node. -/
def patchwork : Tree := .node "<s>" [.node "<s>" [.leaf "x"], .node "+" [.node "<s>" [.leaf "y"]],
  .node "<t>" [.leaf "x"], .node "<s>" [.leaf "x"], .pending "<s>"]

def patches : Grammar := ⟨Rules.ofList [("<s>", ["<s>+<t><s><s>", "x", "y"]), ("<t>", ["z"])]⟩

theorem patchwork_recorded : ∃ after : Tracker,
    (Tracker.new patches).recordTree patchwork = (2, after) ∧
    ⟨"<s> -> x"⟩ ∈ after.covered ∧ ⟨"<s> -> y"⟩ ∉ after.covered ∧
    after.recordTree patchwork = (0, after) := by
  have counted : ((Tracker.new patches).recordTree patchwork).1 = 2 := by decide +kernel
  have hidden : (⟨"<s> -> y"⟩ : Key) ∉ patchwork.usedKeys := by decide +kernel
  have known : (⟨"<s> -> x"⟩ : Key) ∈ (Tracker.new patches).maximum := by decide +kernel
  have first : patchwork.Exposes [0] (.node "<s>" [.leaf "x"]) :=
    Tree.exposes_cons.mpr ⟨by decide, _, rfl, Tree.exposes_nil.mpr ⟨by decide, rfl⟩⟩
  obtain ⟨⟨_, covers⟩, _, again, _⟩ := recordTree_exact (.new patches) patchwork
  refine ⟨_, Prod.ext counted rfl,
    (covers _).mpr (.inr ⟨known, _, _, first, List.cons_ne_nil _ _, rfl⟩), fun covered => ?_, again⟩
  rcases (covers _).mp covered with before | ⟨_, shows⟩
  · exact Std.ExtTreeSet.not_mem_empty before
  · exact hidden (Tree.mem_usedKeys_iff_shows.mpr shows)

end Tracker
end GrammarFuzz
