import GrammarFuzz.Proofs.Copies
import GrammarFuzz.Proofs.Uses

/-! Derivation trees of a copy and of its original. Renaming the nonterminals of a tree of the
copy gives a tree of the original with the same text, in which the renamed keys are used; and
every tree of the original is the renamed tree of a copy, read from the root downwards. -/
namespace GrammarFuzz

/-- Nonterminals are replaced by their images; other texts stay as they are. -/
def onNonterminals (f : Symbol → Symbol) (text : String) : String :=
  if isNonterminal text then f text else text

namespace Tree

variable {f : Symbol → Symbol} {tree : Tree}

mutual

/-- Replace all symbols and texts of a tree. -/
def map (f : Symbol → Symbol) : Tree → Tree
  | pending symbol => pending (f symbol)
  | node symbol children => node (f symbol) (mapForest f children)

def mapForest (f : Symbol → Symbol) : List Tree → List Tree
  | [] => []
  | child :: rest => map f child :: mapForest f rest

end

def rename (f : Symbol → Symbol) (tree : Tree) : Tree := tree.map (onNonterminals f)

theorem mapForest_eq (forest : List Tree) : mapForest f forest = forest.map (map f) := by
  induction forest with
  | nil => rfl
  | cons child rest ih => rw [mapForest, ih, List.map_cons]

theorem rename_node (symbol : Symbol) (children : List Tree) :
    (node symbol children).rename f = node (onNonterminals f symbol) (children.map (rename f)) := by
  rw [rename, map, mapForest_eq]
  rfl

theorem symbol_rename : (tree.rename f).symbol = onNonterminals f tree.symbol := by
  cases tree <;> rfl

theorem rename_leaf {text : String} (terminal : isNonterminal text = false) :
    (leaf text).rename f = leaf text := by
  rw [rename_node, onNonterminals, if_neg (by simp [terminal])]
  rfl

theorem Fits.rename {template child : Tree} (fits : Fits template child) :
    Fits (template.rename f) (child.rename f) := by
  cases fits with
  | leaf text =>
      rw [rename_node]
      exact .leaf _
  | pending same => exact .pending (symbol_rename.trans (congrArg (onNonterminals f) same))

/-- Renaming an expansion renames the children that it stands for. -/
theorem toChildren_rename {expansion : Expansion}
    (closed : ∀ symbol ∈ expansion.references, isNonterminal (f symbol) = true) :
    (expansion.rename f).toChildren = expansion.toChildren.map (rename f) := by
  have pieces := Expansion.parts_rename closed
  by_cases empty : expansion.parts = []
  · have none : (expansion.rename f).parts = [] := by rw [pieces, empty, List.map_nil]
    rw [Expansion.toChildren, if_pos (Expansion.isEmpty_text.mpr none), Expansion.toChildren,
      if_pos (Expansion.isEmpty_text.mpr empty), List.map_singleton, rename_leaf (by decide)]
  · have some : (expansion.rename f).parts ≠ [] := by simpa [pieces] using empty
    rw [Expansion.toChildren, if_neg (mt Expansion.isEmpty_text.mp some), Expansion.toChildren,
      if_neg (mt Expansion.isEmpty_text.mp empty), pieces, List.map_map, List.map_map]
    refine List.map_congr_left fun part inside => ?_
    have lexed : Part.Lexed expansion.parts := lexed_parts _
    cases part with
    | terminal text => exact (rename_leaf (lexed.unclosed inside)).symm
    | nonterminal symbol =>
        have own : onNonterminals f symbol = f symbol := if_pos (lexed.closed inside)
        exact congrArg pending own.symm

end Tree

namespace Grammar.Renaming

open GrammarFuzz.Tree

variable {origin : Symbol → Symbol} {copy g : Grammar} {tree : Tree}
  (copied : Renaming origin copy g) (copyValid : copy.Valid) (valid : g.Valid)
include copied copyValid valid

theorem fits {symbol : Symbol} {expansion : Expansion} {children : List Tree}
    (member : expansion ∈ copy.expansions symbol)
    (fits : List.Forall₂ Fits expansion.toChildren children) :
    List.Forall₂ Fits (expansion.rename origin).toChildren (children.map (Tree.rename origin)) := by
  rw [toChildren_rename (copied.closed copyValid valid member), List.forall₂_map_left_iff,
    List.forall₂_map_right_iff]
  exact fits.imp fun _ _ first => first.rename

omit copyValid in
theorem image_node {symbol : Symbol} {expansion : Expansion} (closed : isNonterminal symbol = true)
    (member : expansion ∈ copy.expansions symbol) :
    onNonterminals origin symbol = origin symbol ∧ isNonterminal (origin symbol) = true ∧
      expansion.rename origin ∈ g.expansions (origin symbol) := by
  have known := mem_symbols_of_expansion member
  refine ⟨if_pos closed, valid.closed (copied.image known), ?_⟩
  rw [← copied.rule known]
  exact List.mem_map_of_mem member

theorem complete (complete : tree.Complete copy) : (tree.rename origin).Complete g := by
  induction complete with
  | leaf terminal =>
      rw [rename_leaf terminal]
      exact .leaf terminal
  | @node symbol expansion children closed member fits _ ih =>
      obtain ⟨own, closed', member'⟩ := copied.image_node valid closed member
      rw [rename_node, own]
      refine .node closed' member' (copied.fits copyValid valid member fits) ?_
      simpa using ih

omit copied copyValid valid in
/-- Only leaves are spelled. -/
theorem text (complete : tree.Complete copy) : (tree.rename origin).text = tree.text := by
  induction complete with
  | leaf terminal => rw [rename_leaf terminal]
  | node _ _ fits _ ih =>
      have some := ne_nil_of_fits fits
      rw [rename_node, text_node (by simpa using some), text_node some, forestText_eq,
        forestText_eq, List.map_map]
      exact congrArg String.join (List.map_congr_left ih)

theorem mem_usedKeys {key : Key} (complete : tree.Complete copy) :
    key ∈ (tree.rename origin).usedKeys ↔ ∃ own ∈ tree.usedKeys, own.rename origin = key := by
  induction complete with
  | leaf terminal => simp [rename_leaf terminal, usedKeys_leaf]
  | @node symbol expansion children closed member fits _ ih =>
      obtain ⟨own, closed', _⟩ := copied.image_node valid closed member
      rw [rename_node, own, mem_usedKeys_of_fits closed' (copied.fits copyValid valid member fits)]
      rw [← Key.rename_ofText origin closed]
      simp only [mem_usedKeys_of_fits closed fits, List.mem_map, exists_exists_and_eq_and]
      constructor
      · rintro (rfl | ⟨child, inside, used⟩)
        · exact ⟨_, .inl rfl, rfl⟩
        · obtain ⟨own, used, renamed⟩ := (ih child inside).mp used
          exact ⟨own, .inr ⟨child, inside, used⟩, renamed⟩
      · rintro ⟨own, rfl | ⟨child, inside, used⟩, rfl⟩
        · exact .inl rfl
        · exact .inr ⟨child, inside, (ih child inside).mpr ⟨own, used, rfl⟩⟩

omit copied valid in
/-- What a child of a copied expansion can be read as, given how trees below are read. -/
theorem exists_child {symbol : Symbol} {expansion : Expansion} {template child : Tree}
    (member : expansion ∈ copy.expansions symbol) (inside : template ∈ expansion.toChildren)
    (fits : Fits (template.rename origin) child)
    (below : ∀ reference ∈ copy.symbols, child.symbol = origin reference →
      ∃ lifted : Tree, lifted.Complete copy ∧ lifted.symbol = reference ∧
        lifted.rename origin = child) :
    ∃ lifted : Tree, Fits template lifted ∧ lifted.Complete copy ∧
      lifted.rename origin = child := by
  rcases Expansion.toChildren_cases inside
    with ⟨reference, used, closed, rfl⟩ | ⟨text, terminal, rfl⟩
  · have root : child.symbol = origin reference := by
      rw [fits.symbol_eq, symbol_rename]
      exact if_pos closed
    obtain ⟨lifted, complete, own, renamed⟩ :=
      below reference (copyValid.references_mem member used) root
    exact ⟨lifted, .pending own, complete, renamed⟩
  · rw [rename_leaf terminal] at fits
    cases fits with
    | leaf => exact ⟨.leaf text, .leaf text, .leaf terminal, rename_leaf terminal⟩

omit copied copyValid valid in
theorem exists_forest {templates children : List Tree}
    (each : ∀ template ∈ templates, ∀ child ∈ children, Fits (template.rename origin) child →
      ∃ lifted : Tree, Fits template lifted ∧ lifted.Complete copy ∧ lifted.rename origin = child)
    (fits : List.Forall₂ Fits (templates.map (Tree.rename origin)) children) :
    ∃ forest, List.Forall₂ Fits templates forest ∧ (∀ lifted ∈ forest, lifted.Complete copy) ∧
      forest.map (Tree.rename origin) = children := by
  induction templates generalizing children with
  | nil =>
      cases fits
      exact ⟨[], .nil, by simp, rfl⟩
  | cons template rest ih =>
      cases fits with
      | @cons _ child _ others first fits =>
          obtain ⟨lifted, own, complete, renamed⟩ :=
            each template List.mem_cons_self child List.mem_cons_self first
          obtain ⟨forest, fits, below, same⟩ := ih (fun template' member child' inside =>
            each template' (List.mem_cons_of_mem _ member) child'
              (List.mem_cons_of_mem _ inside)) fits
          refine ⟨lifted :: forest, .cons own fits, ?_, by rw [List.map_cons, renamed, same]⟩
          simpa using ⟨complete, below⟩

/-- A tree of the original is read as a tree of the copy, from any symbol that is a copy of its
root. By induction on the tree, whose children fit the renamed children of the copy. -/
theorem exists_complete (complete : tree.Complete g) : ∀ {symbol : Symbol}, symbol ∈ copy.symbols →
    tree.symbol = origin symbol →
    ∃ lifted : Tree, lifted.Complete copy ∧ lifted.symbol = symbol ∧
      lifted.rename origin = tree := by
  induction complete with
  | @leaf text terminal =>
      intro symbol member root
      have closed := valid.closed (copied.image member)
      rw [← root] at closed
      exact absurd (terminal.symm.trans closed) (by decide)
  | @node image expansion children closed listed fits _ ih =>
      intro symbol member root
      obtain rfl : image = origin symbol := root
      rw [← copied.rule member] at listed
      obtain ⟨template, own, rfl⟩ := List.mem_map.mp listed
      rw [toChildren_rename (copied.closed copyValid valid own)] at fits
      obtain ⟨forest, own', below, rfl⟩ := exists_forest (fun _ inside child below fits =>
        exists_child copyValid own inside fits fun _ known => ih child below known) fits
      refine ⟨.node symbol forest, .node (copyValid.closed member) own own' below, rfl, ?_⟩
      rw [rename_node, onNonterminals, if_pos (copyValid.closed member)]

end Grammar.Renaming
end GrammarFuzz
