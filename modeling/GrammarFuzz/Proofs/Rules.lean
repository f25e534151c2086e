import Mathlib.Logic.Basic
import Mathlib.Tactic.ByContra
import Std.Data.ExtTreeMap.Lemmas
import Std.Data.String.ToNat
import GrammarFuzz.Language.Valid
import GrammarFuzz.Proofs.Parts

/-! Rule lookup in terms of `symbols` and `expansions`, what validity gives at one rule,
and the freshness of minted symbols. -/
namespace GrammarFuzz.Grammar

variable {g : Grammar} {symbol other : Symbol} {expansions : List Expansion} {expansion : Expansion}

theorem mem_symbols : symbol ∈ g.symbols ↔ symbol ∈ g.rules := Std.ExtTreeMap.mem_keys

theorem pairwise_symbols (g : Grammar) : g.symbols.Pairwise (· < ·) := by
  have ordered : g.symbols.Pairwise fun left right => compare left right = .lt :=
    Std.ExtTreeMap.ordered_keys
  exact ordered.imp compareOfLessAndEq_eq_lt.mp

theorem nodup_symbols (g : Grammar) : g.symbols.Nodup := by
  refine g.pairwise_symbols.imp fun {left right} less same => ?_
  exact String.lt_irrefl right (same ▸ less)

theorem contains_iff : g.contains symbol = true ↔ symbol ∈ g.symbols := by
  rw [mem_symbols, Std.ExtTreeMap.mem_iff_contains, contains]

theorem contains_eq_false_iff : g.contains symbol = false ↔ symbol ∉ g.symbols := by
  rw [← contains_iff, Bool.not_eq_true]

theorem expansions_of_not_mem (absent : symbol ∉ g.symbols) : g.expansions symbol = [] :=
  Std.ExtTreeMap.getD_eq_fallback (mem_symbols.not.mp absent)

theorem mem_symbols_of_expansion (member : expansion ∈ g.expansions symbol) :
    symbol ∈ g.symbols := by
  by_contra absent
  rw [expansions_of_not_mem absent] at member
  exact List.not_mem_nil member

theorem expansions?_of_mem (member : symbol ∈ g.symbols) :
    g.expansions? symbol = some (g.expansions symbol) :=
  Std.ExtTreeMap.getElem?_eq_some_getD (mem_symbols.mp member)

theorem expansions?_of_not_mem (absent : symbol ∉ g.symbols) : g.expansions? symbol = none :=
  Std.ExtTreeMap.getElem?_eq_none (mem_symbols.not.mp absent)

theorem require_eq_ok : g.require symbol = .ok expansions ↔
    symbol ∈ g.symbols ∧ g.expansions symbol = expansions := by
  unfold require
  by_cases member : symbol ∈ g.symbols
  · simp [expansions?_of_mem member, member]
  · simp [expansions?_of_not_mem member, member]

theorem mem_symbols_setRule :
    other ∈ (g.setRule symbol expansions).symbols ↔ other = symbol ∨ other ∈ g.symbols := by
  rw [mem_symbols, mem_symbols, setRule, Std.ExtTreeMap.mem_insert,
    Std.LawfulEqCmp.compare_eq_iff_eq]
  exact or_congr_left eq_comm

theorem expansions_setRule_self : (g.setRule symbol expansions).expansions symbol = expansions :=
  Std.ExtTreeMap.getD_insert_self

theorem expansions_setRule_of_ne (differs : other ≠ symbol) :
    (g.setRule symbol expansions).expansions other = g.expansions other := by
  simp only [Grammar.expansions, setRule, Std.ExtTreeMap.getD_insert,
    Std.LawfulEqCmp.compare_eq_iff_eq, if_neg differs.symm]

theorem ext_expansions? {left right : Grammar}
    (same : ∀ name, left.expansions? name = right.expansions? name) :
    left = right := by
  cases left
  cases right
  exact congrArg Grammar.mk (Std.ExtTreeMap.ext_getElem? fun {name} => same name)

theorem expansions?_setRule :
    (g.setRule symbol expansions).expansions? other =
      if symbol = other then some expansions else g.expansions? other := by
  simp only [expansions?, setRule, Std.ExtTreeMap.getElem?_insert,
    Std.LawfulEqCmp.compare_eq_iff_eq]

theorem setRule_comm {others : List Expansion} (differs : other ≠ symbol) :
    (g.setRule symbol expansions).setRule other others =
      (g.setRule other others).setRule symbol expansions := by
  refine ext_expansions? fun name => ?_
  simp only [expansions?_setRule]
  by_cases first : symbol = name
  · simp only [if_pos first, if_neg (first ▸ differs)]
  · simp only [if_neg first]

theorem setRule_setRule {others : List Expansion} :
    (g.setRule symbol expansions).setRule symbol others = g.setRule symbol others := by
  refine ext_expansions? fun name => ?_
  simp only [expansions?_setRule]
  split <;> rfl

theorem setRule_expansions (member : symbol ∈ g.symbols) :
    g.setRule symbol (g.expansions symbol) = g := by
  refine ext_expansions? fun name => ?_
  rw [expansions?_setRule]
  split
  · rename_i same
    exact same ▸ (expansions?_of_mem member).symm
  · rfl

theorem size_setRule (member : symbol ∈ g.symbols) :
    (g.setRule symbol expansions).size = g.size := by
  rw [Grammar.size, setRule, Std.ExtTreeMap.size_insert]
  exact if_pos (contains_iff.mpr member)

section Valid

variable (valid : g.Valid)
include valid

theorem Valid.closed (member : symbol ∈ g.symbols) : isNonterminal symbol = true :=
  (valid symbol member).1

theorem Valid.expansions_ne_nil (member : symbol ∈ g.symbols) : g.expansions symbol ≠ [] :=
  (valid symbol member).2.1

theorem Valid.references_mem (member : expansion ∈ g.expansions symbol)
    (reference : other ∈ expansion.references) : other ∈ g.symbols :=
  (valid symbol (mem_symbols_of_expansion member)).2.2 other
    (List.mem_flatMap.mpr ⟨expansion, member, reference⟩)

end Valid

/-! Minted names. -/

theorem isNameChar_of_isDigit {c : Char} (digit : c.isDigit = true) : isNameChar c = true := by
  simp only [isNameChar, Bool.and_eq_true, bne_iff_ne]
  refine ⟨⟨?_, ?_⟩, ?_⟩ <;> rintro rfl <;> simp at digit

theorem isNameChar_repr (number : Nat) : (toString number).toList.all isNameChar = true := by
  refine List.all_eq_true.mpr fun c member => isNameChar_of_isDigit ?_
  change c ∈ (Nat.repr number).toList at member
  rw [Nat.repr_eq_ofList_toDigits, String.toList_ofList] at member
  exact Nat.isDigit_of_mem_toDigits (by decide) (by decide) member

theorem isNonterminal_numbered (closed : isNonterminal symbol = true) (number : Nat) :
    isNonterminal (numbered symbol number) = true := by
  obtain ⟨name, spelled, named⟩ := isNonterminal_iff.mp closed
  refine isNonterminal_iff.mpr ⟨name ++ '-' :: (toString number).toList, ?_, ?_⟩
  · have spelled : symbol.toList = ('<' :: name) ++ ['>'] := spelled
    simp only [numbered, spelled, List.getLast?_concat, if_true, List.dropLast_concat]
    simp
  · have hyphen : isNameChar '-' = true := by decide
    rw [List.all_append, List.all_cons, named, hyphen, isNameChar_repr]
    rfl

theorem numbered_injective (symbol : Symbol) {left right : Nat}
    (same : numbered symbol left = numbered symbol right) : left = right := by
  have digits := congrArg String.toList same
  simp only [numbered, String.toList_append, List.append_assoc,
    List.append_cancel_left_eq] at digits
  exact Nat.repr_inj.mp (String.toList_inj.mp (List.append_cancel_right digits))

/-- Of more numbers than there are names, one is in none of them. -/
theorem exists_numbered_not_mem (symbol : Symbol) (names : List Symbol) :
    ∃ number ∈ List.range' 1 (names.length + 1), numbered symbol number ∉ names := by
  by_contra! taken
  have distinct : ((List.range' 1 (names.length + 1)).map (numbered symbol)).Nodup :=
    List.Pairwise.map _ (fun _ _ differ same => differ (numbered_injective symbol same))
      List.nodup_range'
  have inside : (List.range' 1 (names.length + 1)).map (numbered symbol) ⊆ names := by
    intro name member
    obtain ⟨number, listed, rfl⟩ := List.mem_map.mp member
    exact taken number listed
  have bound := distinct.length_le_of_subset inside
  simp only [List.length_map, List.length_range'] at bound
  omega

/-- The search for a free number does not run out. -/
theorem exists_numbered_free (g : Grammar) (symbol : Symbol) :
    ∃ number ∈ List.range' 1 (g.size + 1), numbered symbol number ∉ g.symbols := by
  have keys : g.symbols.length = g.size := Std.ExtTreeMap.length_keys
  exact keys ▸ exists_numbered_not_mem symbol g.symbols

/-- A number that is found is the least one that is free. -/
theorem least_of_find? {count number : Nat}
    (found : (List.range' 1 count).find? (fun number => !g.contains (numbered symbol number)) =
      some number) :
    0 < number ∧ numbered symbol number ∉ g.symbols ∧
      ∀ smaller, 0 < smaller → smaller < number → numbered symbol smaller ∈ g.symbols := by
  obtain ⟨free, listed, least⟩ := List.find?_range'_eq_some.mp found
  simp only [Bool.not_eq_true', contains_eq_false_iff, Bool.not_not, contains_iff] at free least
  exact ⟨(List.mem_range'_1.mp listed).1, free, least⟩

theorem newSymbol_of_not_mem (free : symbol ∉ g.symbols) : g.newSymbol symbol = symbol :=
  if_neg (contains_iff.not.mpr free)

theorem exists_newSymbol_eq (taken : symbol ∈ g.symbols) :
    ∃ number, 0 < number ∧ numbered symbol number ∉ g.symbols ∧
    (∀ smaller, 0 < smaller → smaller < number → numbered symbol smaller ∈ g.symbols) ∧
    g.newSymbol symbol = numbered symbol number := by
  obtain ⟨free, listed, absent⟩ := exists_numbered_free g symbol
  rw [newSymbol, if_pos (contains_iff.mpr taken)]
  split
  · rename_i number found
    obtain ⟨positive, unused, least⟩ := least_of_find? found
    exact ⟨number, positive, unused, least, rfl⟩
  · rename_i exhausted
    have used := List.find?_eq_none.mp exhausted free listed
    simp only [Bool.not_eq_true', contains_eq_false_iff] at used
    exact absurd absent used

theorem newSymbol_cases (g : Grammar) (symbol : Symbol) :
    g.newSymbol symbol ∉ g.symbols ∧
      (g.newSymbol symbol = symbol ∨ ∃ number, g.newSymbol symbol = numbered symbol number) := by
  by_cases taken : symbol ∈ g.symbols
  · obtain ⟨number, _, free, _, same⟩ := exists_newSymbol_eq taken
    exact ⟨same ▸ free, .inr ⟨number, same⟩⟩
  · rw [newSymbol_of_not_mem taken]
    exact ⟨taken, .inl rfl⟩

theorem newSymbol_not_mem (g : Grammar) (symbol : Symbol) : g.newSymbol symbol ∉ g.symbols :=
  (newSymbol_cases g symbol).1

/-- Minting looks at which symbols there are and not at their rules. -/
theorem newSymbol_setRule (member : symbol ∈ g.symbols) (base : Symbol) :
    (g.setRule symbol expansions).newSymbol base = g.newSymbol base := by
  have contains : (g.setRule symbol expansions).contains = g.contains := by
    funext name
    rw [Bool.eq_iff_iff, contains_iff, contains_iff, mem_symbols_setRule]
    exact or_iff_right_of_imp fun same => same ▸ member
  simp only [newSymbol, size_setRule member, contains]

theorem isNonterminal_newSymbol (closed : isNonterminal symbol = true) :
    isNonterminal (g.newSymbol symbol) = true := by
  rcases (newSymbol_cases g symbol).2 with same | ⟨number, same⟩
  · rwa [same]
  · rw [same]
    exact isNonterminal_numbered closed number

end GrammarFuzz.Grammar
