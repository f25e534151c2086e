import Mathlib.Data.Set.Defs
import GrammarFuzz.Proofs.RenamedTrees

/-! Duplicating contexts refines coverage. However often contexts are duplicated, once the
rules out of reach are dropped there is exactly as much to cover as in the original, only in
more places: keys of the result are renamed to the keys within reach of the start symbol, all
of them, and so trees that use every key of the result use all of those. -/
namespace GrammarFuzz.Grammar

/-- The copy is `g` under other names, and covering it covers `reach`. -/
structure RefinesCoverage (origin : Symbol → Symbol) (copy g : Grammar) (start : Symbol)
    (reach : KeySet) : Prop
    extends Renaming origin copy g where
  base {symbol : Symbol} : symbol ∈ g.symbols → origin symbol = symbol
  mem_reach_iff {key : Key} : key ∈ reach ↔ ∃ own ∈ copy.maximumCoverage, own.rename origin = key
  /-- A derivation tree becomes one of `g`, with the same text and the renamed keys. -/
  maps {tree : Tree} : tree.Complete copy →
    (tree.rename origin).Complete g ∧ (tree.symbol = start → (tree.rename origin).symbol = start) ∧
      (tree.rename origin).text = tree.text ∧
      ∀ key, (tree.rename origin).Uses key ↔ ∃ own, tree.Uses own ∧ own.rename origin = key
  /-- Every derivation tree of `g` comes from one of the copy. -/
  onto {tree : Tree} : tree.Complete g → tree.symbol = start →
    ∃ lifted : Tree, lifted.Complete copy ∧ lifted.symbol = start ∧ lifted.rename origin = tree
  covers {trees : Set Tree} : (∀ tree ∈ trees, tree.Complete copy) →
    (∀ key ∈ copy.maximumCoverage, ∃ tree ∈ trees, tree.Uses key) →
    ∀ key ∈ reach, ∃ tree ∈ trees, (tree.rename origin).Uses key

theorem Renaming.uses_iff {origin : Symbol → Symbol} {copy g : Grammar} {tree : Tree} {key : Key}
    (copied : Renaming origin copy g) (copyValid : copy.Valid) (valid : g.Valid)
    (complete : tree.Complete copy) :
    (tree.rename origin).Uses key ↔ ∃ own, tree.Uses own ∧ own.rename origin = key := by
  rw [← (copied.complete copyValid valid complete).conforms.mem_usedKeys,
    copied.mem_usedKeys copyValid valid complete]
  simp only [complete.conforms.mem_usedKeys]

/-- Context duplication only refines coverage. After any duplications, trimming leaves a
grammar whose keys are renamed to the keys that can be reached in the original, so that trees
which use them all map to trees of the original that use all keys within its reach. -/
theorem trim_duplicated_refines {g copied : Grammar} {start : Symbol} (valid : g.Valid)
    (member : start ∈ g.symbols) (duplicated : Relation.ReflTransGen Duplicates g copied) :
    ∃ dropped trimmed reach origin, copied.trim start = .ok (dropped, trimmed) ∧
      g.maximumCoverageFrom start none = .ok reach ∧
      RefinesCoverage origin trimmed g start reach := by
  obtain ⟨stage, renames, rfl⟩ := exists_renames valid duplicated
  obtain ⟨listed, same⟩ := renames.base member
  have trimmed : Renaming stage.origin (stage.grammar.kept start) g :=
    renames.renamed.kept renames.valid listed
  have trimmedValid : (stage.grammar.kept start).Valid := valid_kept renames.valid listed
  have reaches {key : Key} : key ∈ g.keysWithin none start ↔
      ∃ own ∈ (stage.grammar.kept start).maximumCoverage, own.rename stage.origin = key := by
    have within : key ∈ g.keysWithin none (stage.origin start) ↔ _ :=
      renames.renamed.mem_keysWithin_iff renames.valid valid listed
    rwa [same] at within
  refine ⟨_, _, g.keysWithin none start, stage.origin, trim_of_mem listed,
    maximumCoverageFrom_eq_ok.mpr ⟨member, rfl⟩, ?_⟩
  · refine { trimmed with
      base := fun known => (renames.base known).2
      mem_reach_iff := reaches
      maps := fun complete => ⟨trimmed.complete trimmedValid valid complete, fun root => ?_,
        Renaming.text complete, fun key => trimmed.uses_iff trimmedValid valid complete⟩
      onto := fun complete root => ?_
      covers := fun complete covered key inside => ?_ }
    · rw [Tree.symbol_rename, root, onNonterminals, if_pos (valid.closed member), same]
    · exact trimmed.exists_complete trimmedValid valid complete
        ((mem_symbols_kept renames.valid listed).mpr .refl) (root.trans same.symm)
    · obtain ⟨own, known, renamed⟩ := reaches.mp inside
      obtain ⟨tree, listed, uses⟩ := covered own known
      exact ⟨tree, listed, (trimmed.uses_iff trimmedValid valid (complete tree listed)).mpr
        ⟨own, uses, renamed⟩⟩

/-- The number before the point taken apart once more, so that its digits come from copies of
copies. -/
def pointedTwice : Grammar := ⟨Rules.ofList [
  ("<start>", ["<<num-2>.<num-3>>"]), ("<num>", ["<digit><num>", "<digit>"]),
  ("<digit>", ["0", "1"]),
  ("<num-1>", ["< num>"]), ("<num-2>", ["<digit-1-1><num-2-1>", "<digit-1-2>"]),
  ("<digit-1>", ["0", "1"]),
  ("<num-3>", ["<digit-2><num-3>", "<digit-2>"]), ("<digit-2>", ["0", "1"]),
  ("<digit-1-1>", ["0", "1"]),
  ("<num-2-1>", ["<digit-1><num-2-1>", "<digit-1>"]), ("<digit-1-2>", ["0", "1"])]⟩

def pointedTwiceTrimmed : Grammar := ⟨Rules.ofList [
  ("<start>", ["<<num-2>.<num-3>>"]), ("<num-2>", ["<digit-1-1><num-2-1>", "<digit-1-2>"]),
  ("<digit-1>", ["0", "1"]), ("<num-3>", ["<digit-2><num-3>", "<digit-2>"]),
  ("<digit-2>", ["0", "1"]),
  ("<digit-1-1>", ["0", "1"]), ("<num-2-1>", ["<digit-1><num-2-1>", "<digit-1>"]),
  ("<digit-1-2>", ["0", "1"])]⟩

theorem pointedTwice_refines : pointed.Valid ∧
    Relation.ReflTransGen Duplicates pointed pointedTwice ∧
    ∃ dropped reach origin, pointedTwice.trim "<start>" = .ok (dropped, pointedTwiceTrimmed) ∧
      pointed.maximumCoverageFrom "<start>" none = .ok reach ∧
      RefinesCoverage origin pointedTwiceTrimmed pointed "<start>" reach ∧
      pointedTwiceTrimmed.maximumCoverage.size = 15 ∧ reach.size = 5 := by
  have valid : pointed.Valid := by decide +kernel
  have member : "<start>" ∈ pointed.symbols := by decide +kernel
  have once : Duplicates pointed pointedApart := ⟨"<start>", none, none, by decide +kernel⟩
  have twice : Duplicates pointedApart pointedTwice := ⟨"<num-2>", none, some 1, by decide +kernel⟩
  have duplicated := (Relation.ReflTransGen.single once).tail twice
  have left : pointedTwice.kept "<start>" = pointedTwiceTrimmed := by
    rw [pointedTwice, kept_ofList]
    decide +kernel
  obtain ⟨dropped, trimmed, reach, origin, done, found, refines⟩ :=
    trim_duplicated_refines valid member duplicated
  obtain rfl : trimmed = pointedTwiceTrimmed := by
    rw [trim_of_mem (by decide +kernel), left] at done
    cases done
    rfl
  have size : (pointed.maximumCoverageFrom "<start>" none).map (·.size) = .ok 5 := by decide +kernel
  rw [found] at size
  exact ⟨valid, duplicated, dropped, reach, origin, done, found, refines, by decide +kernel,
    Except.ok.inj size⟩

end GrammarFuzz.Grammar
