import GrammarFuzz.Language.Document
import GrammarFuzz.Proofs.Rules

/-! Which rule sets are accepted. The search for a defect in symbol order finds one exactly if
a condition of validity fails, so building and reading a document accept the valid rule sets
and no others; and validity does not depend on how references are found in a text. -/
namespace GrammarFuzz.Grammar

variable {g : Grammar} {symbol : Symbol} {expansions : List Expansion}

/-- Validity in terms of the texts alone: references are the nonterminals that occur in them. -/
theorem valid_iff_occurring : g.Valid ↔ ∀ symbol ∈ g.symbols,
    isNonterminal symbol = true ∧ g.expansions symbol ≠ [] ∧
      ∀ expansion ∈ g.expansions symbol, ∀ name, isNonterminal name = true →
        name.toList <:+: expansion.text.toList → name ∈ g.symbols := by
  refine forall₂_congr fun symbol _ => and_congr_right fun _ => and_congr_right fun _ => ?_
  constructor
  · intro known expansion member name closed occurs
    exact known name (List.mem_flatMap.mpr ⟨expansion, member,
      mem_references_iff_infix.mpr ⟨closed, occurs⟩⟩)
  · intro known reference member
    obtain ⟨expansion, listed, used⟩ := List.mem_flatMap.mp member
    obtain ⟨closed, occurs⟩ := mem_references_iff_infix.mp used
    exact known expansion listed reference closed occurs

theorem ruleDefect?_eq_none_iff : g.ruleDefect? symbol expansions = none ↔
    isNonterminal symbol = true ∧ expansions ≠ [] ∧
      ∀ reference ∈ expansions.flatMap Expansion.references, reference ∈ g.symbols := by
  unfold ruleDefect?
  by_cases closed : isNonterminal symbol = true
  · by_cases some : expansions = []
    · simp [closed, some]
    · rw [if_neg (by simp [closed]), if_neg (by simp [some]), Option.map_eq_none_iff,
        List.find?_eq_none]
      simp only [closed, some, Bool.not_eq_true', Bool.not_eq_false, contains_iff, ne_eq,
        not_false_eq_true, true_and]
  · simp [closed]

theorem mem_rules_toList : (symbol, expansions) ∈ g.rules.toList ↔
    symbol ∈ g.symbols ∧ g.expansions symbol = expansions := by
  rw [Std.ExtTreeMap.mem_toList_iff_getElem?_eq_some]
  change g.expansions? symbol = some expansions ↔ _
  by_cases member : symbol ∈ g.symbols
  · simp [expansions?_of_mem member, member]
  · simp [expansions?_of_not_mem member, member]

theorem defect?_eq_none_iff : g.defect? = none ↔ g.Valid := by
  rw [defect?, List.findSome?_eq_none_iff]
  constructor
  · intro sound symbol member
    exact ruleDefect?_eq_none_iff.mp
      (sound (symbol, g.expansions symbol) (mem_rules_toList.mpr ⟨member, rfl⟩))
  · rintro valid ⟨symbol, expansions⟩ listed
    obtain ⟨member, rfl⟩ := mem_rules_toList.mp listed
    exact ruleDefect?_eq_none_iff.mpr (valid symbol member)

theorem build_eq_ok {rules : Rules} : build rules = .ok g ↔ g = ⟨rules⟩ ∧ g.Valid := by
  unfold build
  split
  · rename_i defect found
    refine ⟨nofun, ?_⟩
    rintro ⟨rfl, valid⟩
    rw [defect?_eq_none_iff.mpr valid] at found
    contradiction
  · rename_i sound
    rw [Except.ok.injEq, eq_comm]
    refine ⟨?_, And.left⟩
    rintro rfl
    exact ⟨rfl, defect?_eq_none_iff.mp sound⟩

/-- A document is accepted if it reads as entries, with blanks only behind them, whose rules
are valid. -/
theorem ofDocument_eq_ok {text : String} : ofDocument text = .ok g ↔
    ∃ entries, Document.entriesFrom [] .record (Json.tokens text) = .ok (entries, []) ∧
      build (Rules.ofList entries) = .ok g := by
  unfold ofDocument
  split
  · rename_i fault unread
    simp [unread]
  · rename_i entries rest read
    simp only [read, Except.ok.injEq, Prod.mk.injEq]
    split
    · rename_i error refused
      constructor
      · exact nofun
      · rintro ⟨_, ⟨rfl, _⟩, accepted⟩
        rw [refused] at accepted
        contradiction
    · rename_i built accepted
      cases rest with
      | nil => simp [accepted]
      | cons token rest => simp

end GrammarFuzz.Grammar
