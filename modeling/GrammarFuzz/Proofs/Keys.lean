import GrammarFuzz.Derivation.Key
import GrammarFuzz.Proofs.Parts

/-! Keys taken apart and renamed. The first separator in a key is the one between symbol and
text if the symbol contains no space, whatever the text is, and no nonterminal contains one; hence
a key of a grammar tells its symbol and its expansion, and both can be renamed in it. -/
namespace GrammarFuzz.Key

variable {symbol symbol' : Symbol} {text text' : String}

theorem space_not_mem (closed : isNonterminal symbol = true) : ' ' ∉ symbol.toList := by
  obtain ⟨name, spelled, named⟩ := isNonterminal_iff.mp closed
  rw [spelled]
  intro member
  rcases List.mem_cons.mp member with same | member
  · contradiction
  · rcases List.mem_append.mp member with inside | last
    · have allowed := List.all_eq_true.mp named _ inside
      contradiction
    · simp at last

theorem separator_toList : separator.toList = [' ', '-', '>', ' '] := by decide

theorem cut_append {front : List Char} (spaceless : ' ' ∉ front) (back : List Char) :
    cut (front ++ (separator.toList ++ back)) = (front, some back) := by
  induction front with
  | nil =>
      have length : separator.length = 4 := by decide
      simp [cut, separator_toList, length]
  | cons c front ih =>
      have other : ' ' ≠ c := fun same => spaceless (same ▸ List.mem_cons_self)
      have apart : separator.toList.isPrefixOf (c :: (front ++ (separator.toList ++ back))) =
          false := by
        rw [separator_toList, List.isPrefixOf, beq_false_of_ne other, Bool.false_and]
      rw [List.cons_append, cut, if_neg (by simp [apart]),
        ih fun member => spaceless (List.mem_cons_of_mem c member)]

theorem cut_ofText (spaceless : ' ' ∉ symbol.toList) :
    cut (ofText symbol text).text.toList = (symbol.toList, some text.toList) := by
  have spelled : (ofText symbol text).text.toList =
      symbol.toList ++ (separator.toList ++ text.toList) := by
    simp [ofText]
  rw [spelled, cut_append spaceless]

theorem symbol_ofText (spaceless : ' ' ∉ symbol.toList) : (ofText symbol text).symbol = symbol := by
  rw [Key.symbol, cut_ofText spaceless, String.ofList_toList]

theorem expansion_ofText (spaceless : ' ' ∉ symbol.toList) :
    (ofText symbol text).expansion = text := by
  rw [Key.expansion, cut_ofText spaceless]
  exact String.ofList_toList

theorem ofText_inj (spaceless : ' ' ∉ symbol.toList) (spaceless' : ' ' ∉ symbol'.toList) :
    ofText symbol text = ofText symbol' text' ↔ symbol = symbol' ∧ text = text' := by
  constructor
  · intro same
    have symbols := congrArg Key.symbol same
    have texts := congrArg Key.expansion same
    rw [symbol_ofText spaceless, symbol_ofText spaceless'] at symbols
    rw [expansion_ofText spaceless, expansion_ofText spaceless'] at texts
    exact ⟨symbols, texts⟩
  · rintro ⟨rfl, rfl⟩
    rfl

/-- Replace the symbol of a key and the references in its text by their images. -/
def rename (f : Symbol → Symbol) (key : Key) : Key :=
  ofText (f key.symbol) (Expansion.rename f ⟨key.expansion⟩).text

theorem rename_ofText (f : Symbol → Symbol) (closed : isNonterminal symbol = true)
    (expansion : Expansion) :
    (ofText symbol expansion.text).rename f = ofText (f symbol) (expansion.rename f).text := by
  have spaceless := space_not_mem closed
  rw [rename, symbol_ofText spaceless, expansion_ofText spaceless]

end GrammarFuzz.Key
