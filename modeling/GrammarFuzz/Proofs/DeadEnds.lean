import GrammarFuzz.Proofs.Uncached

/-! Foresight and dead ends. It sees nothing exactly if all that lies at and below the candidates
is covered; otherwise the candidate it chooses covers a new key or leads to one, whatever is
picked and whatever it was used for before. -/
namespace GrammarFuzz

namespace Tracker

variable {t : Tracker} {symbol : Symbol} {children : List Tree} {expansion : Expansion}

/-- The own key of a candidate is not covered, or one of its nonterminals leads to such a key. -/
def LeadsOn (t : Tracker) (symbol : Symbol) (children : List Tree) : Prop :=
  Key.ofChildren symbol children ∉ t.covered ∨
    ∃ child ∈ children, isNonterminal child.symbol = true ∧ t.Leads child.symbol

/-- A dead end is covered, and so is all that can be reached from it. -/
theorem not_leadsOn_iff : ¬t.LeadsOn symbol children ↔ Key.ofChildren symbol children ∈ t.covered ∧
    ∀ child ∈ children, isNonterminal child.symbol = true →
      ∀ below, t.grammar.Reaches child.symbol below →
        ∀ key ∈ t.grammar.keysOf below, key ∈ t.covered := by
  simp only [LeadsOn, Leads, not_or, not_not, not_exists, not_and]

theorem leadsOn_toChildren : t.LeadsOn symbol expansion.toChildren ↔ t.Gains symbol expansion := by
  rw [LeadsOn, Expansion.ofChildren_toChildren]
  apply or_congr_right
  constructor
  · rintro ⟨child, member, closed, leads⟩
    rcases Expansion.toChildren_cases member with ⟨reference, used, _, rfl⟩ | ⟨text, terminal, rfl⟩
    · exact ⟨reference, used, leads⟩
    · rw [Tree.symbol, terminal] at closed
      contradiction
  · rintro ⟨reference, used, leads⟩
    have closed := (lexed_parts expansion.text).closed (mem_references.mp used)
    exact ⟨_, Expansion.pending_mem_toChildren used, closed, leads⟩

end Tracker

namespace Strategy

/-- Whatever its history, a strategy prefers what one without memory prefers. -/
theorem sound_of_history {kind : StrategyKind} {t : Tracker} {s : Strategy}
    (history : Relation.ReflTransGen Operates (withTracker kind t) s) : Sound kind t.grammar s := by
  induction history with
  | refl => exact ⟨rfl, rfl, Lookahead.faithful_empty _⟩
  | tail _ step sound => exact step.sound sound

section Sound

variable {g : Grammar} {s : Strategy} {symbol : Symbol} {expansions : List Expansion}
  (sound : Sound .foresight g s) (valid : s.grammar.Valid)
  (listed : ∀ expansion ∈ expansions, expansion ∈ s.grammar.expansions symbol)
include sound valid listed

theorem Sound.newCoverages_eq_none_iff :
    ((Lookahead.newCoverages s.tracker symbol (expansions.map Expansion.toChildren)).run
      s.memory).1 = none ↔
      ∀ expansion ∈ expansions, ¬s.tracker.Gains symbol expansion := by
  have faithful : Lookahead.Faithful s.grammar s.memory := sound.grammar ▸ sound.faithful
  obtain ⟨result, answers, offered, exhausted⟩ := Lookahead.answers_newCoverages valid listed
  rw [(answers s.memory faithful).1]
  constructor
  · exact exhausted
  · intro none
    cases result with
    | none => rfl
    | some offers =>
        obtain ⟨any, gained⟩ := offered offers rfl
        obtain ⟨offer, inside, filled⟩ := List.any_eq_true.mp any
        obtain ⟨place, bound, rfl⟩ := List.mem_iff_getElem.mp inside
        have bound' : place < expansions.length := by rwa [gained.length_eq]
        exact absurd (gained.get bound' bound (by simpa using filled))
          (none _ (List.getElem_mem bound'))

/-- Where something can be gained, whatever is picked gains something. -/
theorem Sound.choose_gains {γ : Type} [Chance γ]
    (gain : ∃ expansion ∈ expansions, s.tracker.Gains symbol expansion)
    (source : γ) : ∃ position after source',
      s.choose symbol (expansions.map Expansion.toChildren) source =
        some (position, after, source') ∧
        s.tracker.LeadsOn symbol ((expansions.map Expansion.toChildren).get position) := by
  have some : expansions.map Expansion.toChildren ≠ [] := by
    obtain ⟨expansion, member, _⟩ := gain
    exact List.ne_nil_of_mem (List.mem_map_of_mem member)
  obtain ⟨position, preferred, source', chosen⟩ := choose_cases s symbol some source
  refine ⟨position, _, source', chosen, ?_⟩
  have bound : position.val < expansions.length := by simpa using position.isLt
  have prefers : Prefers .foresight s.tracker symbol expansions expansions[position.val] := by
    refine ⟨position, ?_, List.getElem?_eq_getElem bound⟩
    rwa [← sound.preferred.1]
  rw [List.get_eq_getElem, List.getElem_map, Tracker.leadsOn_toChildren]
  exact prefers.gains valid listed gain

end Sound

/-- Foresight never walks into a dead end. With any coverage and after any history, it sees nothing
exactly if every candidate's own key is covered and so are all keys that can be reached from the
candidate's nonterminals. As long as it sees something, the candidate it chooses, whatever is
picked, has a new key of its own or a nonterminal that leads to one. -/
theorem foresight_leads_on (t : Tracker) {s : Strategy}
    (history : Relation.ReflTransGen Operates (withTracker .foresight t) s)
    (valid : s.grammar.Valid) {symbol : Symbol} {expansions : List Expansion}
    (listed : ∀ expansion ∈ expansions, expansion ∈ s.grammar.expansions symbol) :
    (((Lookahead.newCoverages s.tracker symbol (expansions.map Expansion.toChildren)).run
      s.memory).1 = none ↔
      ∀ children ∈ expansions.map Expansion.toChildren,
        Key.ofChildren symbol children ∈ s.tracker.covered ∧
        ∀ child ∈ children, isNonterminal child.symbol = true →
          ∀ below, s.grammar.Reaches child.symbol below →
            ∀ key ∈ s.grammar.keysOf below, key ∈ s.tracker.covered) ∧
    (((Lookahead.newCoverages s.tracker symbol (expansions.map Expansion.toChildren)).run
      s.memory).1 ≠ none →
      ∀ {γ : Type} [Chance γ] (source : γ), ∃ position after source',
        s.choose symbol (expansions.map Expansion.toChildren) source =
          some (position, after, source') ∧
        (Key.ofChildren symbol ((expansions.map Expansion.toChildren).get position) ∉
          s.tracker.covered ∨
          ∃ child ∈ (expansions.map Expansion.toChildren).get position,
            isNonterminal child.symbol = true ∧
            ∃ below, s.grammar.Reaches child.symbol below ∧
              ∃ key ∈ s.grammar.keysOf below, key ∉ s.tracker.covered)) := by
  have sound := sound_of_history history
  have sees := sound.newCoverages_eq_none_iff valid listed
  constructor
  · simp only [sees, List.forall_mem_map, ← Tracker.leadsOn_toChildren, Tracker.not_leadsOn_iff]
  · intro looked γ _ source
    rw [Ne, sees] at looked
    push Not at looked
    exact sound.choose_gains valid listed looked source

/-- All is covered but what the last symbol on the right can be. -/
def forkCovered : Tracker :=
  (["<start>", "<left>", "<right>"].flatMap fork.keysOf).foldl Tracker.cover (.new fork)

theorem forkCovered_leads_on :
    ∃ s, Relation.ReflTransGen Operates (withTracker .foresight forkCovered) s ∧
    s.grammar.Valid ∧ (Lookahead.known? s.memory "<right>" 2).isSome = true ∧
    (s.choose "<start>" forkWays (Script.ofWords [])).map (·.1.val) = some 1 ∧
    ∃ position after source',
      s.choose "<start>" forkWays (Script.ofWords []) = some (position, after, source') ∧
      s.tracker.LeadsOn "<start>" (forkWays.get position) := by
  have looked := Operates.newCoverages (s := withTracker .foresight forkCovered) "<start>" forkWays
  have history := Relation.ReflTransGen.single looked
  have valid : forkCovered.grammar.Valid := by decide +kernel
  have sees : ((Lookahead.newCoverages forkCovered "<start>" forkWays).run
      ((Lookahead.newCoverages forkCovered "<start>" forkWays).run ∅).2).1.isSome = true := by
        decide +kernel
  have ways : [(⟨"<left>"⟩ : Expansion), ⟨"<right>"⟩].map Expansion.toChildren = forkWays := by
    decide +kernel
  have leads := (foresight_leads_on forkCovered history valid
    (by decide +kernel : ∀ way ∈ [(⟨"<left>"⟩ : Expansion), ⟨"<right>"⟩],
      way ∈ fork.expansions "<start>")).2
  rw [ways] at leads
  refine ⟨_, history, valid, by decide +kernel, by decide +kernel, ?_⟩
  exact leads (Option.isSome_iff_ne_none.mp sees) (Script.ofWords [])

end Strategy
end GrammarFuzz
