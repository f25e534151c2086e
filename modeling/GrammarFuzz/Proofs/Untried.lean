import Mathlib.Data.List.Dedup
import Mathlib.Data.List.Perm.Basic
import GrammarFuzz.Proofs.Offers
import GrammarFuzz.Proofs.Preferences
import GrammarFuzz.Random.Script

/-! The texts of a symbol that are still to be tried. Whatever is done to the coverage of a
strategy, there are never more of them; and a strategy that prefers uncovered keys tries one each
time it may choose among all expansions of the symbol. So as many such choices as there are texts
cover them. -/
namespace GrammarFuzz

/-- The texts that a symbol can be expanded to, each once. -/
def Grammar.texts (g : Grammar) (symbol : Symbol) : List String :=
  ((g.expansions symbol).map Expansion.text).dedup

namespace Tracker

variable {t after : Tracker} {symbol : Symbol} {text : String}

/-- The texts of a symbol whose keys are not covered. -/
def untried (t : Tracker) (symbol : Symbol) : List String :=
  (t.grammar.texts symbol).filter fun text => !t.isCovered (Key.ofText symbol text)

theorem mem_untried : text ∈ t.untried symbol ↔
    (∃ expansion ∈ t.grammar.expansions symbol, expansion.text = text) ∧
      Key.ofText symbol text ∉ t.covered := by
  rw [untried, List.mem_filter, isCovered, not_contains_iff, Grammar.texts,
    List.mem_dedup, List.mem_map]

theorem nodup_untried (t : Tracker) (symbol : Symbol) : (t.untried symbol).Nodup :=
  (List.nodup_dedup _).filter _

theorem length_untried_le (t : Tracker) (symbol : Symbol) :
    (t.untried symbol).length ≤ (t.grammar.texts symbol).length := List.length_filter_le _ _

theorem untried_eq_nil_iff : t.untried symbol = [] ↔
    ∀ key ∈ t.grammar.keysOf symbol, key ∈ t.covered := by
  rw [List.eq_nil_iff_forall_not_mem]
  constructor
  · intro none key own
    obtain ⟨expansion, member, rfl⟩ := Grammar.mem_keysOf.mp own
    by_contra uncovered
    exact none _ (mem_untried.mpr ⟨⟨expansion, member, rfl⟩, uncovered⟩)
  · intro covered text listed
    obtain ⟨⟨expansion, member, rfl⟩, uncovered⟩ := mem_untried.mp listed
    exact uncovered (covered _ (Grammar.mem_keysOf.mpr ⟨expansion, member, rfl⟩))

theorem untried_of_empty (fresh : t.covered = ∅) : t.untried symbol = t.grammar.texts symbol := by
  refine List.filter_eq_self.mpr fun text _ => not_contains_iff.mpr ?_
  rw [fresh]
  exact Std.ExtTreeSet.not_mem_empty

/-- Coverage that grows leaves fewer texts to try. -/
theorem untried_subset (same : after.grammar = t.grammar)
    (grows : ∀ key ∈ t.covered, key ∈ after.covered) :
    after.untried symbol ⊆ t.untried symbol := by
  intro text listed
  rw [mem_untried, same] at listed
  exact mem_untried.mpr ⟨listed.1, fun covered => listed.2 (grows _ covered)⟩

/-- Trying a text takes it off the list, and no other. -/
theorem untried_perm_cover (listed : text ∈ t.untried symbol) :
    (t.untried symbol).Perm (text :: (t.cover (Key.ofText symbol text)).untried symbol) := by
  obtain ⟨⟨expansion, member, rfl⟩, _⟩ := mem_untried.mp listed
  have left (other : String) : other ∈ (t.cover (Key.ofText symbol expansion.text)).untried symbol ↔
      other ∈ t.untried symbol ∧ other ≠ expansion.text := by
    have own : Key.ofText symbol other = Key.ofText symbol expansion.text ↔
        other = expansion.text := by
      simp [Key.ofText, String.append_right_inj]
    rw [mem_untried, mem_untried, grammar_cover, mem_covered_cover_of_expansion member, own,
      not_or, and_assoc]
  have distinct :
      (expansion.text :: (t.cover (Key.ofText symbol expansion.text)).untried symbol).Nodup :=
    List.nodup_cons.mpr ⟨fun again => ((left _).mp again).2 rfl, nodup_untried _ symbol⟩
  refine (List.perm_ext_iff_of_nodup (nodup_untried t symbol) distinct).mpr fun other => ?_
  rw [List.mem_cons, left]
  constructor
  · exact fun inside => (eq_or_ne other expansion.text).imp_right fun differs => ⟨inside, differs⟩
  · rintro (rfl | ⟨inside, _⟩)
    · exact listed
    · exact inside

end Tracker

/-- A choice for the symbol among all its expansions, in any order and however often each. -/
def Operation.Presents (g : Grammar) (symbol : Symbol) : Operation → Prop
  | .choose chosen candidates => chosen = symbol ∧
      candidates ⊆ (g.expansions symbol).map Expansion.toChildren ∧
      (g.expansions symbol).map Expansion.toChildren ⊆ candidates
  | _ => False

instance (g : Grammar) (symbol : Symbol) : DecidablePred (Operation.Presents g symbol)
  | .choose chosen _ => inferInstanceAs (Decidable (chosen = symbol ∧ _ ∧ _))
  | .recordText .. | .recordChildren .. | .recordKey .. | .recordTree .. | .reset => isFalse id

section Choose

variable {γ : Type} [Chance γ] {symbol : Symbol} {candidates : List (List Tree)}

/-- A strategy that prefers uncovered keys chooses none that is covered while another is not. -/
theorem Strategy.favours_of_choose {s after : Strategy} {source source' : γ}
    {position : Fin candidates.length} (kind : s.kind = .immediate)
    (chosen : s.choose symbol candidates source = some (position, after, source')) :
    Favours .immediate s.tracker symbol candidates position := by
  have preferred : s.positions symbol candidates =
      choices .immediate s.tracker symbol candidates := by
    rw [positions, Strategy.preferred, kind]
    rfl
  have given : candidates ≠ [] := fun none => by subst none; exact position.elim0
  obtain ⟨place, member, _, same⟩ := s.choose_cases symbol given source
  cases chosen.symm.trans same
  rwa [preferred, mem_choices_immediate] at member

namespace Session

theorem kind_perform (s : Session γ) (operation : Operation) :
    (s.perform operation).strategy.kind = s.strategy.kind := by
  cases operation with
  | choose symbol candidates =>
      simp only [perform, Strategy.choose_eq]
      cases Strategy.pickFrom? (s.strategy.positions symbol candidates) s.source with
      | none => rfl
      | some picked => rfl
  | recordText | recordChildren | recordKey | recordTree | reset => rfl

theorem kind_run (operations : List Operation) : ∀ s : Session γ,
    (s.run operations).strategy.kind = s.strategy.kind := by
  induction operations with
  | nil => exact fun _ => rfl
  | cons operation rest ih => exact fun s =>
      (ih (s.perform operation)).trans (s.kind_perform operation)

variable {s : Session γ}

/-- A choice among all expansions of a symbol tries one that was not tried, if there is one. -/
theorem length_untried_perform_lt (kind : s.strategy.kind = .immediate) {operation : Operation}
    (presents : operation.Presents s.tracker.grammar symbol)
    (left : s.tracker.untried symbol ≠ []) :
    ((s.perform operation).tracker.untried symbol).length < (s.tracker.untried symbol).length := by
  cases operation with
  | choose chosen candidates =>
      obtain ⟨rfl, known, all⟩ := presents
      obtain ⟨_, listed⟩ := List.exists_mem_of_ne_nil _ left
      obtain ⟨⟨other, inside, rfl⟩, uncovered⟩ := Tracker.mem_untried.mp listed
      have offered : other.toChildren ∈ candidates := all (List.mem_map_of_mem inside)
      obtain ⟨position, _, _, picked⟩ :=
        s.strategy.choose_cases chosen (List.ne_nil_of_mem offered) s.source
      obtain ⟨expansion, member, children⟩ :=
        List.mem_map.mp (known (List.get_mem candidates position))
      have own : Key.ofChildren chosen (candidates.get position) =
          Key.ofText chosen expansion.text := by
        rw [← children, Expansion.ofChildren_toChildren]
      -- Were its key covered, then so would be that of the text that is left, which is offered too.
      have fresh : Key.ofText chosen expansion.text ∉ s.tracker.covered := by
        rcases Strategy.favours_of_choose kind picked with fresh | covered
        · rwa [own] at fresh
        · obtain ⟨place, found⟩ := List.mem_iff_get.mp offered
          have tried := covered place
          rw [found, Expansion.ofChildren_toChildren] at tried
          exact absurd tried uncovered
      have tracker : (s.perform (.choose chosen candidates)).tracker =
          s.tracker.cover (Key.ofText chosen expansion.text) := by
        simp only [perform, picked, tracker, Strategy.chose, own]
      have shorter :=
        (Tracker.untried_perm_cover (Tracker.mem_untried.mpr
          ⟨⟨expansion, member, rfl⟩, fresh⟩)).length_eq
      rw [tracker, shorter, List.length_cons]
      exact Nat.lt_succ_self _
  | recordText | recordChildren | recordKey | recordTree | reset => exact presents.elim

/-- Whatever is done but a reset, there are fewer texts to try by one for each choice among all. -/
theorem length_untried_run_le (symbol : Symbol) (operations : List Operation) : ∀ {s : Session γ},
    s.strategy.kind = .immediate → .reset ∉ operations →
    ((s.run operations).tracker.untried symbol).length ≤
      (s.tracker.untried symbol).length - operations.countP
        (Operation.Presents s.tracker.grammar symbol) := by
  induction operations with
  | nil => exact fun _ _ => Nat.le_refl _
  | cons operation rest ih =>
      intro s kind goes
      simp only [List.mem_cons, not_or] at goes
      have once : .reset ∉ [operation] := by simpa using goes.1
      obtain ⟨same, grows⟩ : (s.perform operation).tracker.grammar = s.tracker.grammar ∧
          ∀ key ∈ s.tracker.covered, key ∈ (s.perform operation).tracker.covered := covered_run once
      have fewer := ((s.perform operation).tracker.nodup_untried symbol).length_le_of_subset
        (Tracker.untried_subset same grows)
      have later := ih ((s.kind_perform operation).trans kind) goes.2
      rw [same] at later
      rw [List.countP_cons]
      refine Nat.le_trans later ?_
      by_cases presents : operation.Presents s.tracker.grammar symbol
      · by_cases left : s.tracker.untried symbol = []
        · rw [left, List.length_nil] at fewer
          omega
        · have shorter := length_untried_perform_lt kind presents left
          simp only [presents, decide_true, if_true]
          omega
      · simp only [presents, decide_false, Bool.false_eq_true, if_false]
        omega

/-- A strategy that prefers uncovered keys wastes no choice. Whatever is done with it but a reset,
once it has chosen for a symbol among all its expansions as often as these have different texts, all
keys of the symbol are covered; and it never chooses a candidate whose own key is covered while that
of another candidate is not. -/
theorem immediate_wastes_no_choice (kind : s.strategy.kind = .immediate) :
    (∀ symbol operations, .reset ∉ operations →
      (s.tracker.grammar.texts symbol).length ≤
        operations.countP (Operation.Presents s.tracker.grammar symbol) →
      ∀ key ∈ s.tracker.grammar.keysOf symbol, key ∈ (s.run operations).tracker.covered) ∧
    ∀ operations symbol candidates position after source',
      (s.run operations).strategy.choose symbol candidates (s.run operations).source =
        some (position, after, source') →
      Key.ofChildren symbol (candidates.get position) ∈ (s.run operations).tracker.covered →
      ∀ other ∈ candidates, Key.ofChildren symbol other ∈ (s.run operations).tracker.covered := by
  constructor
  · intro symbol operations goes enough
    have same := (covered_run (s := s) goes).1
    have shorter := length_untried_run_le symbol operations kind goes
    have most := s.tracker.length_untried_le symbol
    rw [← same]
    exact Tracker.untried_eq_nil_iff.mp (List.length_eq_zero_iff.mp (by omega))
  · intro operations symbol candidates position after source' chosen covered other listed
    have favoured := Strategy.favours_of_choose ((s.kind_run operations).trans kind) chosen
    obtain ⟨place, rfl⟩ := List.mem_iff_get.mp listed
    exact favoured.resolve_left (not_not_intro covered) place

/-- A symbol with a text that is listed twice and an empty one. -/
def echoes : Grammar := ⟨Rules.ofList [("<a>", ["x", "", "x"]), ("<b>", ["<a>"])]⟩

/-- Two choices among all expansions of a symbol, with others in between. -/
def echoesOperations : List Operation := [
  .choose "<a>" [[.leaf "x"], [.leaf ""], [.leaf "x"]], .recordText "<b>" "<a>",
  .choose "<a>" [[.leaf "?"]],
  .recordTree (.node "<b>" [.pending "<a>"]), .choose "<a>" [[.leaf ""], [.leaf "x"]]]

theorem echoes_covered : (start .immediate echoes (Script.ofWords [3])).strategy.kind = .immediate ∧
    .reset ∉ echoesOperations ∧ (echoes.texts "<a>").length = 2 ∧
    echoesOperations.countP (Operation.Presents echoes "<a>") = 2 ∧
    ∀ key ∈ echoes.keysOf "<a>",
      key ∈ ((start .immediate echoes (Script.ofWords [3])).run
        echoesOperations).tracker.covered := by
  have kind : (start .immediate echoes (Script.ofWords [3])).strategy.kind = .immediate := rfl
  have goes : .reset ∉ echoesOperations := by decide +kernel
  have texts : (echoes.texts "<a>").length = 2 := by decide +kernel
  have choices : echoesOperations.countP (Operation.Presents echoes "<a>") = 2 := by decide +kernel
  refine ⟨kind, goes, texts, choices, (immediate_wastes_no_choice kind).1 "<a>" _ goes ?_⟩
  exact (texts.trans choices.symm).le

end Session
end Choose
end GrammarFuzz
