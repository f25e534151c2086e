import Mathlib.Algebra.Order.BigOperators.Group.List
import Mathlib.Algebra.Order.Group.Nat
import GrammarFuzz.Proofs.Uses

/-! Derivation trees as they grow. A tree grows by the expansion of one pending node, which
rewrites its frontier and adds one to the nodes that are expanded; so all ways to grow one tree
into another take equally many steps. -/
namespace GrammarFuzz

/-- Related by so many steps, one after the other. -/
inductive Steps {α : Type} (step : α → α → Prop) : Nat → α → α → Prop
  | none (start : α) : Steps step 0 start start
  | next {count : Nat} {start middle last : α} :
      step start middle → Steps step count middle last → Steps step (count + 1) start last

namespace Steps

variable {α β : Type} {step : α → α → Prop} {count : Nat} {start last : α}

theorem reflTransGen (steps : Steps step count start last) :
    Relation.ReflTransGen step start last := by
  induction steps with
  | none => exact .refl
  | next first _ ih => exact .head first ih

theorem of_reflTransGen (steps : Relation.ReflTransGen step start last) :
    ∃ count, Steps step count start last := by
  induction steps using Relation.ReflTransGen.head_induction_on with
  | refl => exact ⟨0, .none last⟩
  | head first _ ih =>
      obtain ⟨count, rest⟩ := ih
      exact ⟨count + 1, .next first rest⟩

theorem lift {image : β → β → Prop} (f : α → β)
    (each : ∀ before after, step before after → image (f before) (f after))
    (steps : Steps step count start last) : Steps image count (f start) (f last) := by
  induction steps with
  | none start => exact .none (f start)
  | next first _ ih => exact .next (each _ _ first) ih

end Steps

namespace Grammar

/-- A text is derived by so many expansions. -/
def DerivesIn (g : Grammar) (symbol : Symbol) (count : Nat) (text : String) : Prop :=
  ∃ form, Steps g.Rewrites count [.nonterminal symbol] form ∧ (∀ other, .nonterminal other ∉ form) ∧
    String.join (form.map Part.text) = text

end Grammar

namespace Tree

variable {g : Grammar} {before after tree subtree : Tree}

/-- A pending node is expanded by its rule. -/
def Grows (g : Grammar) (before after : Tree) : Prop :=
  ∃ symbol, ∃ expansion ∈ g.expansions symbol,
    Replaces symbol (expansion.toTree symbol) before after

abbrev GrowsTo (g : Grammar) : Tree → Tree → Prop := Relation.ReflTransGen (Grows g)

theorem GrowsTo.within (grows : GrowsTo g before after) (parent : Symbol) (front back : List Tree) :
    GrowsTo g (.node parent (front ++ before :: back)) (.node parent (front ++ after :: back)) := by
  refine Relation.ReflTransGen.lift (fun child =>
    Tree.node parent (front ++ child :: back)) ?_ _ _ grows
  rintro before after ⟨symbol, expansion, member, replaces⟩
  exact ⟨symbol, expansion, member, replaces.within parent front back⟩

/-- The children of a node grow one after the other, from the left. -/
theorem GrowsTo.node (parent : Symbol) {children grown : List Tree}
    (grow : List.Forall₂ (GrowsTo g) children grown) : ∀ front,
      GrowsTo g (.node parent (front ++ children)) (.node parent (front ++ grown)) := by
  induction grow with
  | nil => exact fun front => .refl
  | @cons child tree children grown first _ ih =>
      intro front
      have left := first.within parent front children
      have right := ih (front ++ [tree])
      simp only [List.append_assoc, List.singleton_append] at right
      exact left.trans right

theorem growsTo_fits {templates children : List Tree} (fits : List.Forall₂ Fits templates children)
    (closed : ∀ symbol, .pending symbol ∈ templates → isNonterminal symbol = true)
    (below : ∀ child ∈ children, isNonterminal child.symbol = true →
      GrowsTo g (.pending child.symbol) child) :
    List.Forall₂ (GrowsTo g) templates children := by
  induction fits with
  | nil => exact .nil
  | cons first _ ih =>
      refine .cons ?_ (ih (fun symbol inside => closed symbol (List.mem_cons_of_mem _ inside))
        fun child inside => below child (List.mem_cons_of_mem _ inside))
      cases first with
      | leaf text => exact .refl
      | pending same =>
          subst same
          exact below _ List.mem_cons_self (closed _ List.mem_cons_self)

/-- A complete derivation tree grows from its pending root. -/
theorem Complete.growsTo (complete : Complete g tree) :
    isNonterminal tree.symbol = true → GrowsTo g (.pending tree.symbol) tree := by
  induction complete with
  | leaf terminal =>
      intro closed
      rw [symbol, terminal] at closed
      contradiction
  | @node symbol expansion children _ member fits _ ih =>
      intro _
      have first : Grows g (.pending symbol) (expansion.toTree symbol) :=
        ⟨symbol, expansion, member, .here⟩
      refine .head first (GrowsTo.node symbol (growsTo_fits fits (fun name inside => ?_) ih) [])
      rcases Expansion.toChildren_cases inside with ⟨_, _, closed, same⟩ | ⟨_, _, same⟩
      · cases same
        exact closed
      · cases same

theorem Complete.settled (complete : Complete g tree) : tree.hasPending = false := by
  induction complete with
  | leaf => rfl
  | node _ _ _ _ ih =>
      rw [← Bool.not_eq_true, hasPending, forestHasPending_iff]
      rintro ⟨child, inside, pending⟩
      rw [ih child inside] at pending
      contradiction

theorem Grows.rewrites (grows : Grows g before after) :
    g.Rewrites before.frontier after.frontier := by
  obtain ⟨symbol, expansion, member, replaces⟩ := grows
  obtain ⟨front, back, same, replaced⟩ := replaces.frontier
  rw [same, replaced, expansion.frontier_toTree]
  exact .at front back member

/-! Counting the nodes that are expanded. -/

mutual

def expandedCount : Tree → Nat
  | pending _ => 0
  | node _ [] => 0
  | node _ (child :: rest) => 1 + (expandedCount child + forestExpandedCount rest)

def forestExpandedCount : List Tree → Nat
  | [] => 0
  | child :: rest => expandedCount child + forestExpandedCount rest

end

theorem forestExpandedCount_eq (forest : List Tree) :
    forestExpandedCount forest = (forest.map expandedCount).sum := by
  induction forest with
  | nil => rfl
  | cons child rest ih => rw [forestExpandedCount, ih, List.map_cons, List.sum_cons]

theorem expandedCount_node {children : List Tree} (some : children ≠ []) (symbol : Symbol) :
    expandedCount (.node symbol children) = 1 + (children.map expandedCount).sum := by
  cases children with
  | nil => contradiction
  | cons child rest => rw [expandedCount, forestExpandedCount_eq, List.map_cons, List.sum_cons]

theorem Replaces.expandedCount {symbol : Symbol} (replaces : Replaces symbol subtree before after) :
    after.expandedCount = before.expandedCount + subtree.expandedCount := by
  induction replaces with
  | here => simp [Tree.expandedCount]
  | within parent front back _ ih =>
      rw [expandedCount_node (by simp), expandedCount_node (by simp)]
      simp only [List.map_append, List.map_cons, List.sum_append, List.sum_cons, ih]
      omega

theorem expandedCount_toTree (expansion : Expansion) (symbol : Symbol) :
    (expansion.toTree symbol).expandedCount = 1 := by
  rw [Expansion.toTree, expandedCount_node expansion.toChildren_ne_nil, Nat.add_eq_left]
  refine List.sum_eq_zero fun count listed => ?_
  obtain ⟨child, member, rfl⟩ := List.mem_map.mp listed
  rcases Expansion.toChildren_cases member with ⟨_, _, _, rfl⟩ | ⟨_, _, rfl⟩ <;> rfl

theorem Grows.expandedCount (grows : Grows g before after) :
    after.expandedCount = before.expandedCount + 1 := by
  obtain ⟨symbol, expansion, _, replaces⟩ := grows
  rw [replaces.expandedCount, expandedCount_toTree]

theorem expandedCount_of_steps {count : Nat} (steps : Steps (Grows g) count before after) :
    after.expandedCount = before.expandedCount + count := by
  induction steps with
  | none => rfl
  | next first _ ih =>
      rw [ih, first.expandedCount]
      omega

/-- A complete derivation tree spells a derivation with as many expansions as it has. -/
theorem Complete.derivesIn (complete : Complete g tree) (root : isNonterminal tree.symbol = true) :
    g.DerivesIn tree.symbol tree.expandedCount tree.text := by
  obtain ⟨count, steps⟩ := Steps.of_reflTransGen (complete.growsTo root)
  have counted := expandedCount_of_steps steps
  rw [expandedCount, Nat.zero_add] at counted
  subst counted
  refine ⟨tree.frontier, ?_, not_mem_frontier complete.settled, tree.join_frontier⟩
  exact steps.lift frontier fun _ _ grows => grows.rewrites

/-! Nodes below a node. -/

theorem isSubtree_iff : subtree.IsSubtree tree ↔
    subtree = tree ∨ ∃ child ∈ tree.children, subtree.IsSubtree child := by
  cases tree with
  | node symbol children => exact isSubtree_node
  | pending symbol =>
      simp only [children, List.not_mem_nil, false_and, exists_false, or_false]
      refine ⟨fun inside => ?_, fun same => same ▸ .root _⟩
      cases inside
      rfl

theorem IsSubtree.trans {first second third : Tree} (left : first.IsSubtree second)
    (right : second.IsSubtree third) :
    first.IsSubtree third := by
  induction right with
  | root => exact left
  | within member _ ih => exact .within member ih

theorem IsSubtree.expandedCount_le (inside : subtree.IsSubtree tree) :
    subtree.expandedCount ≤ tree.expandedCount := by
  induction inside with
  | root => exact Nat.le_refl _
  | @within child symbol children member _ ih =>
      rw [expandedCount_node (List.ne_nil_of_mem member)]
      have part : child.expandedCount ≤ (children.map expandedCount).sum :=
        List.le_sum_of_mem (List.mem_map_of_mem member)
      omega

theorem Complete.of_isSubtree (inside : subtree.IsSubtree tree) :
    Complete g tree → Complete g subtree := by
  induction inside with
  | root => exact id
  | within member _ ih =>
      intro complete
      cases complete with
      | leaf => contradiction
      | node _ _ _ below => exact ih (below _ member)

/-- Where a symbol comes up, it comes up a last time. -/
theorem exists_last (symbol : Symbol) (tree : Tree) :
    (∃ node : Tree, node.IsSubtree tree ∧ node.symbol = symbol) →
    ∃ last : Tree, last.IsSubtree tree ∧ last.symbol = symbol ∧
      ∀ child ∈ last.children, ∀ node : Tree, node.IsSubtree child → node.symbol ≠ symbol := by
  induction tree using induct with
  | pending name =>
      rintro ⟨node, inside, same⟩
      cases inside
      exact ⟨_, .root _, same, by simp [children]⟩
  | node name children ih =>
      rintro ⟨node, inside, same⟩
      by_cases again : ∃ child ∈ children, ∃ node : Tree, node.IsSubtree child ∧
        node.symbol = symbol
      · obtain ⟨child, member, found⟩ := again
        obtain ⟨last, within, root, none⟩ := ih child member found
        exact ⟨last, .within member within, root, none⟩
      · rcases isSubtree_node.mp inside with rfl | ⟨child, member, within⟩
        · refine ⟨_, .root _, same, fun child member node within root => ?_⟩
          exact again ⟨child, member, node, within, root⟩
        · exact absurd ⟨child, member, node, within, same⟩ again

/-- The children that are not leaves. -/
def branches (children : List Tree) : List Tree :=
  children.filter fun child => isNonterminal child.symbol

theorem mem_branches {children : List Tree} {child : Tree} :
    child ∈ branches children ↔ child ∈ children ∧ isNonterminal child.symbol = true :=
  List.mem_filter

theorem sum_branches {children : List Tree} (below : ∀ child ∈ children, child.Complete g) :
    ((branches children).map expandedCount).sum = (children.map expandedCount).sum := by
  induction children with
  | nil => rfl
  | cons child rest ih =>
      have later := ih fun other member => below other (List.mem_cons_of_mem child member)
      cases below child List.mem_cons_self with
      | leaf terminal => simpa [branches, symbol, terminal, expandedCount] using later
      | node closed => simpa [branches, symbol, closed] using later

end Tree

namespace Expansion

variable {expansion : Expansion} {children : List Tree}

theorem filter_symbols (expansion : Expansion) :
    (expansion.toChildren.map Tree.symbol).filter isNonterminal = expansion.references := by
  unfold toChildren
  split
  · rename_i empty
    have none : expansion.references = expansion.parts.filterMap Part.symbol? := rfl
    rw [none, isEmpty_text.mp empty]
    decide
  · have lexed : Part.Lexed expansion.parts := lexed_parts _
    rw [List.map_map, ← List.filterMap_eq_filter, List.filterMap_map]
    refine List.filterMap_congr fun part inside => ?_
    cases part with
    | terminal text => simp [Part.toTree, Tree.symbol, Part.symbol?, lexed.unclosed inside]
    | nonterminal symbol => simp [Part.toTree, Tree.symbol, Part.symbol?, lexed.closed inside]

/-- The branches of a node are where the references of its expansion were. -/
theorem map_symbol_branches (fits : List.Forall₂ Tree.Fits expansion.toChildren children) :
    (Tree.branches children).map Tree.symbol = expansion.references := by
  rw [Tree.branches, ← expansion.filter_symbols, ← Tree.map_symbol_of_fits fits, List.filter_map]
  rfl

/-- A tree for each reference makes the children of a node. -/
theorem exists_children (expansion : Expansion) (grown : Symbol → Tree)
    (same : ∀ symbol ∈ expansion.references, (grown symbol).symbol = symbol) : ∃ children,
      List.Forall₂ Tree.Fits expansion.toChildren children ∧ ∀ child ∈ children,
        (∃ symbol ∈ expansion.references, child = grown symbol) ∨
          ∃ text, isNonterminal text = false ∧ child = .leaf text := by
  let plant (child : Tree) : Tree :=
    if isNonterminal child.symbol then grown child.symbol else child
  refine ⟨expansion.toChildren.map plant, ?_, ?_⟩
  · refine List.forall₂_map_right_iff.mpr (List.forall₂_same.mpr fun child inside => ?_)
    rcases toChildren_cases inside with ⟨symbol, used, closed, rfl⟩ | ⟨text, terminal, rfl⟩
    · exact .pending (by simpa [plant, Tree.symbol, closed] using same symbol used)
    · simpa [plant, Tree.symbol, terminal] using Tree.Fits.leaf text
  · intro child planted
    obtain ⟨child, inside, rfl⟩ := List.mem_map.mp planted
    rcases toChildren_cases inside with ⟨symbol, used, closed, rfl⟩ | ⟨text, terminal, rfl⟩
    · exact .inl ⟨symbol, used, by simp [plant, Tree.symbol, closed]⟩
    · exact .inr ⟨text, terminal, by simp [plant, Tree.symbol, terminal]⟩

end Expansion
end GrammarFuzz
