import Mathlib.Algebra.GroupWithZero.Nat
import Mathlib.Data.List.Forall2
import Mathlib.Data.Multiset.AddSub
import GrammarFuzz.Derivation.Key
import GrammarFuzz.Proofs.Derivation

/-! Trees under construction as sentential forms. The frontier of a tree reads its pending
nodes as references, so that expanding a pending node rewrites the frontier, and counts,
texts and pending symbols are those of the frontier. -/
namespace GrammarFuzz.Tree

@[elab_as_elim]
theorem induct {motive : Tree → Prop} (pending : ∀ symbol, motive (.pending symbol))
    (node : ∀ symbol children, (∀ child ∈ children, motive child) → motive (.node symbol children))
    (tree : Tree) : motive tree :=
  Tree.rec (motive_1 := motive) (motive_2 := fun forest => ∀ child ∈ forest, motive child)
    pending node (by simp) (fun _ _ first rest => by simpa using ⟨first, rest⟩) tree

mutual

/-- The leaves from left to right, without empty texts; a pending node is a reference. -/
def frontier : Tree → List Part
  | pending symbol => [.nonterminal symbol]
  | node text [] => if text = "" then [] else [.terminal text]
  | node _ (child :: rest) => frontier child ++ forestFrontier rest

def forestFrontier : List Tree → List Part
  | [] => []
  | child :: rest => frontier child ++ forestFrontier rest

end

/-- The symbols of the pending nodes, from left to right. -/
def pendingSymbols (tree : Tree) : List Symbol := tree.frontier.filterMap Part.symbol?

theorem forestFrontier_eq (forest : List Tree) :
    forestFrontier forest = forest.flatMap frontier := by
  induction forest with
  | nil => rfl
  | cons child rest ih => rw [forestFrontier, ih, List.flatMap_cons]

theorem frontier_node {children : List Tree} (some : children ≠ []) (symbol : Symbol) :
    frontier (.node symbol children) = children.flatMap frontier := by
  cases children with
  | nil => contradiction
  | cons child rest => rw [frontier, forestFrontier_eq, List.flatMap_cons]

theorem text_node {children : List Tree} (some : children ≠ []) (symbol : Symbol) :
    text (.node symbol children) = forestText children := by
  cases children with
  | nil => contradiction
  | cons child rest => rfl

theorem forestText_eq (forest : List Tree) : forestText forest = String.join (forest.map text) := by
  induction forest with
  | nil => rfl
  | cons child rest ih => rw [forestText, ih, List.map_cons, String.join_cons]

theorem forestText_congr {forest : List Tree} {pieces : Tree → List Part}
    (same : ∀ child ∈ forest, String.join ((pieces child).map Part.text) = child.text) :
    String.join ((forest.flatMap pieces).map Part.text) = forestText forest := by
  rw [forestText_eq, ← String.toList_inj, String.toList_join, String.toList_join, List.map_flatMap,
    List.flatMap_assoc, List.flatMap_map]
  refine List.flatMap_congr fun child member => ?_
  rw [← same child member, String.toList_join]

theorem join_frontier (tree : Tree) : String.join (tree.frontier.map Part.text) = tree.text := by
  induction tree using induct with
  | pending symbol => simp [frontier, text, Part.text]
  | node symbol children ih =>
      by_cases some : children = []
      · subst some
        by_cases empty : symbol = "" <;> simp [frontier, text, Part.text, empty]
      · rw [frontier_node some, text_node some, forestText_congr ih]

theorem forestPendingCount_eq (forest : List Tree) :
    forestPendingCount forest = (forest.map pendingCount).sum := by
  induction forest with
  | nil => rfl
  | cons child rest ih => rw [forestPendingCount, ih, List.map_cons, List.sum_cons]

theorem pendingSymbols_node (symbol : Symbol) (children : List Tree) :
    pendingSymbols (.node symbol children) = children.flatMap pendingSymbols := by
  by_cases some : children = []
  · subst some
    by_cases empty : symbol = "" <;> simp [pendingSymbols, frontier, Part.symbol?, empty]
  · rw [pendingSymbols, frontier_node some, List.filterMap_flatMap]
    rfl

theorem pendingCount_eq (tree : Tree) : tree.pendingCount = tree.pendingSymbols.length := by
  induction tree using induct with
  | pending symbol => rfl
  | node symbol children ih =>
      rw [pendingSymbols_node, List.length_flatMap, pendingCount, forestPendingCount_eq]
      exact congrArg List.sum (List.map_congr_left ih)

theorem forestHasPending_iff (forest : List Tree) :
    forestHasPending forest = true ↔ ∃ child ∈ forest, child.hasPending = true := by
  induction forest with
  | nil => simp [forestHasPending]
  | cons child rest ih => simp [forestHasPending, ih]

theorem hasPending_iff {tree : Tree} : tree.hasPending = true ↔
    ∃ symbol, symbol ∈ tree.pendingSymbols := by
  induction tree using induct with
  | pending symbol => simp [hasPending, pendingSymbols, frontier, Part.symbol?]
  | node symbol children ih =>
      simp only [hasPending, forestHasPending_iff, pendingSymbols_node, List.mem_flatMap]
      constructor
      · rintro ⟨child, member, opened⟩
        obtain ⟨pending, inside⟩ := (ih child member).mp opened
        exact ⟨pending, child, member, inside⟩
      · rintro ⟨pending, child, member, inside⟩
        exact ⟨child, member, (ih child member).mpr ⟨pending, inside⟩⟩

theorem not_mem_pendingSymbols {tree : Tree} (settled : tree.hasPending = false) (symbol : Symbol) :
    symbol ∉ tree.pendingSymbols := by
  intro pending
  rw [hasPending_iff.mpr ⟨symbol, pending⟩] at settled
  contradiction

theorem not_mem_frontier {tree : Tree} (settled : tree.hasPending = false) (symbol : Symbol) :
    .nonterminal symbol ∉ tree.frontier :=
  fun member => not_mem_pendingSymbols settled symbol (List.mem_filterMap.mpr ⟨_, member, rfl⟩)

/-- One pending node of the symbol is replaced by a tree. -/
inductive Replaces (symbol : Symbol) (subtree : Tree) : Tree → Tree → Prop
  | here : Replaces symbol subtree (.pending symbol) subtree
  | within {before after : Tree} (parent : Symbol) (front back : List Tree) :
      Replaces symbol subtree before after →
      Replaces symbol subtree (.node parent (front ++ before :: back))
        (.node parent (front ++ after :: back))

namespace Replaces

variable {symbol : Symbol} {subtree before after : Tree}

/-- The frontier changes at one reference only. -/
theorem frontier (replaces : Replaces symbol subtree before after) : ∃ front back,
    before.frontier = front ++ .nonterminal symbol :: back ∧
      after.frontier = front ++ (subtree.frontier ++ back) := by
  induction replaces with
  | here => exact ⟨[], [], rfl, by simp⟩
  | within parent front back _ ih =>
      obtain ⟨left, right, same, replaced⟩ := ih
      refine ⟨front.flatMap Tree.frontier ++ left, right ++ back.flatMap Tree.frontier, ?_, ?_⟩
      · rw [frontier_node (by simp), List.flatMap_append, List.flatMap_cons, same]
        simp only [List.append_assoc, List.cons_append]
      · rw [frontier_node (by simp), List.flatMap_append, List.flatMap_cons, replaced]
        simp only [List.append_assoc]

/-- The pending symbols lose one and gain those of the tree in its place. -/
theorem split (replaces : Replaces symbol subtree before after) : ∃ others : Multiset Symbol,
    (before.pendingSymbols : Multiset Symbol) = symbol ::ₘ others ∧
      (after.pendingSymbols : Multiset Symbol) = subtree.pendingSymbols + others := by
  obtain ⟨front, back, same, replaced⟩ := replaces.frontier
  refine ⟨(front.filterMap Part.symbol? ++ back.filterMap Part.symbol? : List Symbol), ?_, ?_⟩
  · simp only [Tree.pendingSymbols, same, List.filterMap_append, List.filterMap_cons, Part.symbol?]
    exact Multiset.coe_eq_coe.mpr List.perm_middle
  · simp only [Tree.pendingSymbols, replaced, List.filterMap_append, Multiset.coe_add]
    apply Multiset.coe_eq_coe.mpr
    rw [← List.append_assoc, ← List.append_assoc]
    exact List.perm_append_comm.append_right _

theorem mem_pendingSymbols (replaces : Replaces symbol subtree before after) :
    symbol ∈ before.pendingSymbols := by
  obtain ⟨others, same, _⟩ := replaces.split
  rw [← Multiset.mem_coe, same]
  exact Multiset.mem_cons_self symbol others

theorem mem_of_subtree (replaces : Replaces symbol subtree before after) {other : Symbol}
    (member : other ∈ subtree.pendingSymbols) : other ∈ after.pendingSymbols := by
  obtain ⟨others, _, replaced⟩ := replaces.split
  rw [← Multiset.mem_coe, replaced, Multiset.mem_add]
  exact .inl member

theorem mem_of_before (replaces : Replaces symbol subtree before after) {other : Symbol}
    (member : other ∈ before.pendingSymbols) : other = symbol ∨ other ∈ after.pendingSymbols := by
  obtain ⟨others, same, replaced⟩ := replaces.split
  rw [← Multiset.mem_coe, same, Multiset.mem_cons] at member
  rw [← Multiset.mem_coe, replaced, Multiset.mem_add]
  exact member.imp_right .inr

theorem mem_after (replaces : Replaces symbol subtree before after) {other : Symbol}
    (member : other ∈ after.pendingSymbols) :
    other ∈ subtree.pendingSymbols ∨ other ∈ before.pendingSymbols := by
  obtain ⟨others, same, replaced⟩ := replaces.split
  rw [← Multiset.mem_coe, replaced, Multiset.mem_add] at member
  rw [← Multiset.mem_coe (l := before.pendingSymbols), same]
  exact member.imp_right (Multiset.mem_cons_of_mem ·)

theorem set (parent : Symbol) {children : List Tree} {position : Fin children.length}
    (replaces : Replaces symbol subtree (children.get position) after) :
    Replaces symbol subtree (.node parent children)
      (.node parent (children.set position after)) := by
  have split : children = children.take position ++
      children.get position :: children.drop (position + 1) := by
    rw [List.get_eq_getElem, List.getElem_cons_drop, List.take_append_drop]
  have replaced : children.set position after =
      children.take position ++ after :: children.drop (position + 1) := by
    rw [List.set_eq_take_append_cons_drop, if_pos position.isLt]
  have step := replaces.within parent (children.take position) (children.drop (position + 1))
  rwa [← split, ← replaced] at step

theorem symbol_eq (replaces : Replaces symbol subtree before after)
    (same : subtree.symbol = symbol) : after.symbol = before.symbol := by
  cases replaces with
  | here => exact same
  | within => rfl

end Replaces

/-- A pending node of the symbol, by what the tree becomes when another tree takes its place. -/
inductive Gap (symbol : Symbol) : Tree → (Tree → Tree) → Prop
  | here : Gap symbol (.pending symbol) id
  | within (parent : Symbol) {children : List Tree} {position : Fin children.length}
      {plug : Tree → Tree} :
      Gap symbol (children.get position) plug →
      Gap symbol (.node parent children)
        (fun subtree => .node parent (children.set position (plug subtree)))

theorem Gap.replaces {symbol : Symbol} {tree : Tree} {plug : Tree → Tree}
    (gap : Gap symbol tree plug)
    (subtree : Tree) : Replaces symbol subtree tree (plug subtree) := by
  induction gap with
  | here => exact .here
  | within parent _ ih => exact ih.set parent

theorem exists_gap {symbol : Symbol} (tree : Tree) (pending : symbol ∈ tree.pendingSymbols) :
    ∃ plug, Gap symbol tree plug := by
  induction tree using induct with
  | pending name =>
      obtain rfl := List.mem_singleton.mp pending
      exact ⟨id, .here⟩
  | node parent children ih =>
      rw [pendingSymbols_node, List.mem_flatMap] at pending
      obtain ⟨child, member, pending⟩ := pending
      obtain ⟨plug, gap⟩ := ih child member pending
      obtain ⟨index, bound, rfl⟩ := List.mem_iff_getElem.mp member
      exact ⟨_, @Gap.within _ parent children ⟨index, bound⟩ plug gap⟩

end GrammarFuzz.Tree

namespace GrammarFuzz.Expansion

variable {expansion : Expansion}

theorem text_eq_empty_iff : expansion.text = "" ↔ expansion.parts = [] := by
  constructor
  · intro empty
    rw [parts, empty]
    rfl
  · intro empty
    have whole := join_parts expansion.text
    rw [parts] at empty
    rw [← whole, empty]
    rfl

theorem isEmpty_text : expansion.text.isEmpty = true ↔ expansion.parts = [] := by
  rw [String.isEmpty_iff, text_eq_empty_iff]

theorem toChildren_ne_nil (expansion : Expansion) : expansion.toChildren ≠ [] := by
  unfold toChildren
  split
  · simp
  · rename_i some
    rwa [ne_eq, List.map_eq_nil_iff, ← isEmpty_text]

/-- The children of an expansion have its parts as their frontier. -/
theorem frontier_toChildren (expansion : Expansion) :
    expansion.toChildren.flatMap Tree.frontier = expansion.parts := by
  unfold toChildren
  split
  · rename_i empty
    rw [isEmpty_text.mp empty]
    rfl
  · have lexed : Part.Lexed expansion.parts := lexed_parts _
    rw [List.flatMap_map]
    generalize expansion.parts = pieces at lexed
    induction lexed with
    | nil => rfl
    | nonterminal _ _ ih => rw [List.flatMap_cons, ih]; rfl
    | terminal nonempty _ _ _ ih =>
        rw [List.flatMap_cons, ih, Part.toTree, Tree.frontier, if_neg nonempty]
        rfl

theorem forestText_toChildren (expansion : Expansion) :
    Tree.forestText expansion.toChildren = expansion.text := by
  rw [← join_parts expansion.text, ← parts, ← frontier_toChildren]
  exact (Tree.forestText_congr fun child _ => child.join_frontier).symm

/-- The key by children and the key by text are one. -/
theorem ofChildren_toChildren (symbol : Symbol) (expansion : Expansion) :
    Key.ofChildren symbol expansion.toChildren = Key.ofText symbol expansion.text :=
  congrArg (Key.ofText symbol) expansion.forestText_toChildren

theorem toChildren_cases {child : Tree} (member : child ∈ expansion.toChildren) :
    (∃ symbol ∈ expansion.references, isNonterminal symbol = true ∧ child = .pending symbol) ∨
      ∃ text, isNonterminal text = false ∧ child = .leaf text := by
  unfold toChildren at member
  split at member
  · exact .inr ⟨"", by decide, List.mem_singleton.mp member⟩
  · obtain ⟨part, inside, rfl⟩ := List.mem_map.mp member
    have lexed : Part.Lexed expansion.parts := lexed_parts _
    cases part with
    | terminal text => exact .inr ⟨text, lexed.unclosed inside, rfl⟩
    | nonterminal symbol => exact .inl ⟨symbol, mem_references.mpr inside, lexed.closed inside, rfl⟩

theorem pending_mem_toChildren {symbol : Symbol} (member : symbol ∈ expansion.references) :
    .pending symbol ∈ expansion.toChildren := by
  have inside := mem_references.mp member
  unfold toChildren
  rw [if_neg]
  · exact List.mem_map_of_mem (f := Part.toTree) inside
  · intro empty
    rw [← parts, isEmpty_text.mp empty] at inside
    exact List.not_mem_nil inside

end Expansion

/-- The tree of one expansion of a pending node. -/
def Expansion.toTree (expansion : Expansion) (symbol : Symbol) : Tree :=
  .node symbol expansion.toChildren

theorem Expansion.frontier_toTree (expansion : Expansion) (symbol : Symbol) :
    (expansion.toTree symbol).frontier = expansion.parts := by
  rw [toTree, Tree.frontier_node expansion.toChildren_ne_nil, expansion.frontier_toChildren]

theorem Expansion.pendingSymbols_toTree (expansion : Expansion) (symbol : Symbol) :
    (expansion.toTree symbol).pendingSymbols = expansion.references := by
  rw [Tree.pendingSymbols, frontier_toTree]
  rfl

theorem Expansion.text_toTree (expansion : Expansion) (symbol : Symbol) :
    (expansion.toTree symbol).text = expansion.text := by
  rw [toTree, Tree.text_node expansion.toChildren_ne_nil, forestText_toChildren]

theorem Expansion.hasPending_toTree {expansion : Expansion} (plain : expansion.references = [])
    (symbol : Symbol) :
    (expansion.toTree symbol).hasPending = false := by
  rw [← Bool.not_eq_true, Tree.hasPending_iff, expansion.pendingSymbols_toTree, plain]
  simp

namespace Tree

/-- A child of an expanded node, against the child it was made from: a leaf is unchanged, and
a pending node may have been expanded. -/
inductive Fits : Tree → Tree → Prop
  | leaf (text : String) : Fits (.leaf text) (.leaf text)
  | pending {symbol : Symbol} {child : Tree} (same : child.symbol = symbol) :
      Fits (.pending symbol) child

/-- The derivation trees of a grammar, with pending nodes. -/
inductive Conforms (g : Grammar) : Tree → Prop
  | pending {symbol : Symbol} (member : symbol ∈ g.symbols) : Conforms g (.pending symbol)
  | leaf {text : String} (terminal : isNonterminal text = false) : Conforms g (.leaf text)
  | node {symbol : Symbol} {expansion : Expansion} {children : List Tree}
      (closed : isNonterminal symbol = true) (member : expansion ∈ g.expansions symbol)
      (fits : List.Forall₂ Fits expansion.toChildren children)
      (below : ∀ child ∈ children, Conforms g child) : Conforms g (.node symbol children)

/-- The complete derivation trees of a grammar: every nonterminal is expanded by its rule,
and all else is leaves. -/
inductive Complete (g : Grammar) : Tree → Prop
  | leaf {text : String} (terminal : isNonterminal text = false) : Complete g (.leaf text)
  | node {symbol : Symbol} {expansion : Expansion} {children : List Tree}
      (closed : isNonterminal symbol = true) (member : expansion ∈ g.expansions symbol)
      (fits : List.Forall₂ Fits expansion.toChildren children)
      (below : ∀ child ∈ children, Complete g child) : Complete g (.node symbol children)

variable {g : Grammar} {tree : Tree}

theorem Conforms.complete (conforms : Conforms g tree) (settled : tree.pendingSymbols = []) :
    Complete g tree := by
  induction conforms with
  | pending => simp [pendingSymbols, frontier, Part.symbol?] at settled
  | leaf terminal => exact .leaf terminal
  | node closed member fits _ ih =>
      rw [pendingSymbols_node, List.flatMap_eq_nil_iff] at settled
      exact .node closed member fits fun child inside => ih child inside (settled child inside)

theorem Complete.conforms (complete : Complete g tree) : Conforms g tree := by
  induction complete with
  | leaf terminal => exact .leaf terminal
  | node closed member fits _ ih => exact .node closed member fits ih

theorem Conforms.pending_mem (conforms : Conforms g tree) {symbol : Symbol}
    (pending : symbol ∈ tree.pendingSymbols) : symbol ∈ g.symbols := by
  induction conforms with
  | pending member => exact List.mem_singleton.mp pending ▸ member
  | leaf => simp [pendingSymbols_node] at pending
  | node _ _ _ _ ih =>
      rw [pendingSymbols_node, List.mem_flatMap] at pending
      obtain ⟨child, inside, pending⟩ := pending
      exact ih child inside pending

theorem Conforms.toTree (valid : g.Valid) {symbol : Symbol} {expansion : Expansion}
    (member : expansion ∈ g.expansions symbol) : Conforms g (expansion.toTree symbol) := by
  apply Conforms.node (valid.closed (Grammar.mem_symbols_of_expansion member)) member
  · refine List.forall₂_same.mpr fun child inside => ?_
    rcases Expansion.toChildren_cases inside with ⟨name, _, _, rfl⟩ | ⟨text, _, rfl⟩
    · exact .pending rfl
    · exact .leaf text
  · intro child inside
    rcases Expansion.toChildren_cases inside with ⟨name, used, _, rfl⟩ | ⟨text, terminal, rfl⟩
    · exact .pending (valid.references_mem member used)
    · exact .leaf terminal

theorem Fits.replaced {template before after : Tree} (fits : Fits template before)
    (pending : ∃ symbol, symbol ∈ before.pendingSymbols) (same : after.symbol = before.symbol) :
    Fits template after := by
  cases fits with
  | leaf text => simp [pendingSymbols_node] at pending
  | pending own => exact .pending (same.trans own)

theorem fits_replaced {templates front back : List Tree} {before after : Tree}
    (fits : List.Forall₂ Fits templates (front ++ before :: back))
    (pending : ∃ symbol, symbol ∈ before.pendingSymbols) (same : after.symbol = before.symbol) :
    List.Forall₂ Fits templates (front ++ after :: back) := by
  induction front generalizing templates with
  | nil =>
      cases fits with
      | cons first rest => exact .cons (first.replaced pending same) rest
  | cons child front ih =>
      cases fits with
      | cons first rest => exact .cons first (ih rest)

/-- Expanding a pending node by its rule keeps a derivation tree. -/
theorem Conforms.replaces {symbol : Symbol} {subtree before after : Tree}
    (conforms : Conforms g before) (replaces : Replaces symbol subtree before after)
    (same : subtree.symbol = symbol) (fresh : Conforms g subtree) : Conforms g after := by
  induction replaces with
  | here => exact fresh
  | @within before after parent front back inner ih =>
      generalize children : front ++ before :: back = forest at conforms
      cases conforms with
      | leaf => simp at children
      | node closed member fits below =>
          subst children
          have pending := inner.mem_pendingSymbols
          refine .node closed member (fits_replaced fits ⟨symbol, pending⟩
            (inner.symbol_eq same)) ?_
          intro child inside
          simp only [List.mem_append, List.mem_cons] at inside
          rcases inside with left | rfl | right
          · exact below child (by simp [left])
          · exact ih (below before (by simp))
          · exact below child (by simp [right])

end Tree
end GrammarFuzz
