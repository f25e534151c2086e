import GrammarFuzz.Coverage.Tracker
import GrammarFuzz.Proofs.Trees

/-! The keys used in a tree. In a derivation tree every node that is not a leaf has the key of
its expansion, which can be read off the symbols of its children also after these were expanded
in turn; expanding a pending node adds the key of that expansion and no other. -/
namespace GrammarFuzz

theorem Expansion.join_symbols (expansion : Expansion) :
    String.join (expansion.toChildren.map Tree.symbol) = expansion.text := by
  unfold toChildren
  split
  · rename_i empty
    rw [String.isEmpty_iff.mp empty]
    rfl
  · have same : Tree.symbol ∘ Part.toTree = Part.text := by
      funext part
      cases part <;> rfl
    rw [List.map_map, same]
    exact join_parts expansion.text

namespace Tree

variable {g : Grammar} {symbol : Symbol} {expansion : Expansion} {children : List Tree}
  {tree : Tree} {key : Key}

theorem forestUsedKeys_eq (forest : List Tree) :
    forestUsedKeys forest = forest.flatMap usedKeys := by
  induction forest with
  | nil => rfl
  | cons child rest ih => rw [forestUsedKeys, ih, List.flatMap_cons]

theorem usedKeys_leaf (text : String) : (leaf text).usedKeys = [] := by
  simp [usedKeys, forestUsedKeys]

theorem Fits.symbol_eq {template child : Tree} (fits : Fits template child) :
    child.symbol = template.symbol := by
  cases fits with
  | leaf => rfl
  | pending same => exact same

theorem map_symbol_of_fits {templates : List Tree} (fits : List.Forall₂ Fits templates children) :
    children.map Tree.symbol = templates.map Tree.symbol := by
  induction fits with
  | nil => rfl
  | cons first _ ih => rw [List.map_cons, List.map_cons, first.symbol_eq, ih]

/-- The symbols of the children tell the expansion, however far they were expanded. -/
theorem join_symbols_of_fits (fits : List.Forall₂ Fits expansion.toChildren children) :
    String.join (children.map Tree.symbol) = expansion.text := by
  rw [map_symbol_of_fits fits, expansion.join_symbols]

theorem ne_nil_of_fits (fits : List.Forall₂ Fits expansion.toChildren children) :
    children ≠ [] := by
  rintro rfl
  exact expansion.toChildren_ne_nil (List.forall₂_nil_right_iff.mp fits)

theorem mem_usedKeys_of_fits (closed : isNonterminal symbol = true)
    (fits : List.Forall₂ Fits expansion.toChildren children) :
    key ∈ (node symbol children).usedKeys ↔
      key = Key.ofText symbol expansion.text ∨ ∃ child ∈ children, key ∈ child.usedKeys := by
  have some : children.isEmpty = false := List.isEmpty_eq_false_iff.mpr (ne_nil_of_fits fits)
  simp [usedKeys, closed, some, forestUsedKeys_eq, join_symbols_of_fits fits]

theorem mem_usedKeys_toTree (closed : isNonterminal symbol = true) :
    key ∈ (expansion.toTree symbol).usedKeys ↔ key = Key.ofText symbol expansion.text := by
  have fits : List.Forall₂ Fits expansion.toChildren expansion.toChildren := by
    refine List.forall₂_same.mpr fun child inside => ?_
    rcases Expansion.toChildren_cases inside with ⟨name, _, _, rfl⟩ | ⟨text, _, rfl⟩
    · exact .pending rfl
    · exact .leaf text
  rw [Expansion.toTree, mem_usedKeys_of_fits closed fits, or_iff_left_iff_imp]
  rintro ⟨child, inside, used⟩
  rcases Expansion.toChildren_cases inside with ⟨name, _, _, rfl⟩ | ⟨text, _, rfl⟩
  · simp [usedKeys] at used
  · simp [usedKeys_leaf] at used

/-- The first tree is a node of the second with all that is below it. -/
inductive IsSubtree : Tree → Tree → Prop
  | root (tree : Tree) : IsSubtree tree tree
  | within {subtree child : Tree} {symbol : Symbol} {children : List Tree}
      (member : child ∈ children) :
      IsSubtree subtree child → IsSubtree subtree (.node symbol children)

theorem isSubtree_node {subtree : Tree} : subtree.IsSubtree (.node symbol children) ↔
    subtree = .node symbol children ∨ ∃ child ∈ children, subtree.IsSubtree child := by
  constructor
  · intro inside
    cases inside with
    | root => exact .inl rfl
    | within member inside => exact .inr ⟨_, member, inside⟩
  · rintro (rfl | ⟨child, member, inside⟩)
    · exact .root _
    · exact .within member inside

/-- The key of the expansion that a nonterminal was given at this node. -/
def ownKey? (node : Tree) : Option Key :=
  if isNonterminal node.symbol then node.expansionText?.map (Key.ofText node.symbol) else none

theorem ownKey?_of_fits (closed : isNonterminal symbol = true)
    (fits : List.Forall₂ Fits expansion.toChildren children) :
    (node symbol children).ownKey? = some (Key.ofText symbol expansion.text) := by
  have some : children.isEmpty = false := List.isEmpty_eq_false_iff.mpr (ne_nil_of_fits fits)
  simp [ownKey?, expansionText?, Tree.symbol, Tree.children, closed, some,
    join_symbols_of_fits fits]

/-- Somewhere in the tree a nonterminal was given the expansion with this key. -/
def Uses (tree : Tree) (key : Key) : Prop :=
  ∃ node : Tree, node.IsSubtree tree ∧ node.ownKey? = some key

/-- In a derivation tree no use is overlooked: above each are nonterminals only. -/
theorem Conforms.mem_usedKeys (conforms : Conforms g tree) :
    key ∈ tree.usedKeys ↔ tree.Uses key := by
  unfold Uses
  induction conforms with
  | pending =>
      simp only [usedKeys, List.not_mem_nil, false_iff, not_exists, not_and]
      rintro _ (_ | _)
      simp [ownKey?, expansionText?, Tree.children]
  | leaf =>
      simp only [usedKeys_leaf, List.not_mem_nil, false_iff, not_exists, not_and, isSubtree_node]
      rintro _ (rfl | ⟨_, absurd, _⟩)
      · simp [ownKey?, expansionText?, Tree.children]
      · contradiction
  | node closed _ fits _ ih =>
      rw [mem_usedKeys_of_fits closed fits]
      simp only [isSubtree_node, or_and_right, exists_or, exists_eq_left,
        ownKey?_of_fits closed fits, Option.some.injEq]
      refine or_congr eq_comm ⟨?_, ?_⟩
      · rintro ⟨child, member, used⟩
        obtain ⟨node, inside, own⟩ := (ih child member).mp used
        exact ⟨node, ⟨child, member, inside⟩, own⟩
      · rintro ⟨node, ⟨child, member, inside⟩, own⟩
        exact ⟨child, member, (ih child member).mpr ⟨node, inside, own⟩⟩

/-- Expanding a pending node of a derivation tree adds the key of the expansion. -/
theorem Replaces.mem_usedKeys {before after : Tree}
    (replaces : Replaces symbol (expansion.toTree symbol) before after)
    (valid : g.Valid) (conforms : Conforms g before) :
    key ∈ after.usedKeys ↔ key ∈ before.usedKeys ∨ key = Key.ofText symbol expansion.text := by
  induction replaces with
  | here =>
      cases conforms with
      | pending member =>
          rw [mem_usedKeys_toTree (valid.closed member)]
          simp [usedKeys]
  | @within before after parent front back inner ih =>
      have same := inner.symbol_eq rfl
      have pending : ∃ symbol, symbol ∈ before.pendingSymbols := ⟨_, inner.mem_pendingSymbols⟩
      generalize children : front ++ before :: back = forest at conforms
      cases conforms with
      | leaf => simp at children
      | node closed member fits below =>
          subst children
          rw [mem_usedKeys_of_fits closed fits,
            mem_usedKeys_of_fits closed (fits_replaced fits pending same)]
          have inside := ih (below before (by simp))
          simp only [List.mem_append, List.mem_cons, or_and_right, exists_or, exists_eq_left,
            inside, or_assoc]
          simp only [or_left_comm, or_comm]

end Tree
end GrammarFuzz
