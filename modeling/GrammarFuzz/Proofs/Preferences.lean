import Mathlib.Data.List.FinRange
import GrammarFuzz.Proofs.DeadEnds

/-! What a choice may do. Whatever the candidates are, one pick decides which is chosen, and covers
no key but that of the chosen candidate. Which candidates a strategy is after is said for each kind
by what is covered, and the answers to the pick are these candidates, each of them once. -/
namespace GrammarFuzz.Strategy

/-- The candidates that a kind of strategy is after: all of them, those whose own key is not
covered, or those with the largest sets of new keys at the horizon. If there are none of the
latter two, it is after all. -/
def Favours (kind : StrategyKind) (t : Tracker) (symbol : Symbol) (candidates : List (List Tree))
    (position : Fin candidates.length) : Prop :=
  match kind with
  | .tracking => True
  | .immediate => Key.ofChildren symbol (candidates.get position) ∉ t.covered ∨
      ∀ other, Key.ofChildren symbol (candidates.get other) ∈ t.covered
  | .foresight => ∀ depth ∈ Uncached.horizon? t symbol candidates, ∀ other,
      (Uncached.newCoverage t symbol depth (candidates.get other)).size ≤
        (Uncached.newCoverage t symbol depth (candidates.get position)).size

instance (kind : StrategyKind) (t : Tracker) (symbol : Symbol) (candidates : List (List Tree))
    (position : Fin candidates.length) : Decidable (Favours kind t symbol candidates position) :=
  match kind with
  | .tracking => inferInstanceAs (Decidable True)
  | .immediate => inferInstanceAs (Decidable (_ ∨ _))
  | .foresight => inferInstanceAs (Decidable (∀ depth ∈ Uncached.horizon? t symbol candidates, _))

section Favours

variable {kind : StrategyKind} {t : Tracker} {symbol : Symbol} {candidates : List (List Tree)}

theorem mem_choices_immediate {position : Fin candidates.length} :
    position ∈ choices .immediate t symbol candidates ↔
      Favours .immediate t symbol candidates position := by
  have all : choices .immediate t symbol candidates =
      orAll fun position => !t.isCovered (Key.ofChildren symbol candidates[position]) := rfl
  rw [all, mem_orAll]
  refine or_congr not_contains_iff (forall_congr' fun other => ?_)
  rw [Bool.not_eq_false']
  exact Std.ExtTreeSet.contains_iff_mem

theorem mem_largest {depth : Nat} {position : Fin candidates.length} :
    position ∈ Uncached.largest t symbol candidates depth ↔ ∀ other,
      (Uncached.newCoverage t symbol depth (candidates.get other)).size ≤
        (Uncached.newCoverage t symbol depth (candidates.get position)).size := by
  simp [Uncached.largest, List.mem_finRange]

/-- What a strategy chooses from are the candidates it is after. -/
theorem mem_choices_iff {position : Fin candidates.length} :
    position ∈ choices kind t symbol candidates ↔ Favours kind t symbol candidates position := by
  cases kind with
  | tracking => exact iff_true_intro (List.mem_finRange position)
  | immediate => exact mem_choices_immediate
  | foresight =>
      rw [Uncached.choices_eq]
      cases horizon : Uncached.horizon? t symbol candidates with
      | none => simp [Favours, horizon, List.mem_finRange]
      | some depth => simp [Favours, horizon, mem_largest]

theorem nodup_orAll {count : Nat} (test : Fin count → Bool) : (orAll test).Nodup := by
  simp only [orAll]
  split
  · exact List.nodup_finRange count
  · exact (List.nodup_finRange count).filter _

theorem nodup_choices : (choices kind t symbol candidates).Nodup := by
  cases kind with
  | tracking => exact List.nodup_finRange _
  | immediate => exact nodup_orAll _
  | foresight =>
      rw [Uncached.choices_eq]
      cases Uncached.horizon? t symbol candidates with
      | none => exact List.nodup_finRange _
      | some depth => exact (List.nodup_finRange _).filter _

end Favours

/-- One pick decides a choice. After any history of a strategy of any kind, for any node and any
candidates, a choice picks once, whatever the source of choices, from a range that is not empty. The
answer is the position that belongs to the pick; the key of the candidate there is covered if it is
a key of the grammar, and nothing else changes of coverage and grammar. Each candidate that the kind
is after belongs to exactly one pick, and no pick belongs to another candidate. -/
theorem choose_favours (t : Tracker) {kind : StrategyKind} {s : Strategy}
    (history : Relation.ReflTransGen Operates (withTracker kind t) s) (node : Tree)
    {candidates : List (List Tree)} (given : candidates ≠ []) :
    ∃ (count : Nat) (positive : 0 < count) (position : Fin count → Fin candidates.length),
      (∀ {γ : Type} [Chance γ] (source : γ), ∃ after,
        let picked := Chance.pick count positive source
        let own := Key.ofChildren node.symbol (candidates.get (position picked.1))
        s.choose node.symbol candidates source = some (position picked.1, after, picked.2) ∧
          after.tracker.grammar = s.tracker.grammar ∧ after.tracker.maximum = s.tracker.maximum ∧
          ∀ key, key ∈ after.tracker.covered ↔ key ∈ s.tracker.covered ∨ key = own ∧
            own ∈ s.tracker.maximum) ∧
      (∀ candidate, Favours kind s.tracker node.symbol candidates candidate →
        ∃! place, position place = candidate) ∧
      ∀ place, Favours kind s.tracker node.symbol candidates (position place) := by
  have preferred : s.positions node.symbol candidates =
      choices kind s.tracker node.symbol candidates :=
    (sound_of_history history).preferred.1
  -- The pick is a place in the list of what is preferred, in which no candidate comes up twice.
  have distinct : (s.positions node.symbol candidates).Nodup := preferred ▸ nodup_choices
  have favoured (candidate : Fin candidates.length) :
      candidate ∈ s.positions node.symbol candidates ↔
      Favours kind s.tracker node.symbol candidates candidate := by rw [preferred, mem_choices_iff]
  have positive : 0 < (s.positions node.symbol candidates).length :=
    List.length_pos_of_ne_nil (s.preferred_ne_nil node.symbol given s.memory)
  refine ⟨_, positive, (s.positions node.symbol candidates).get, fun source => ?_,
    fun candidate after => ?_, fun place => (favoured _).mp (List.get_mem _ place)⟩
  · refine ⟨_, choose_of_pick rfl, Tracker.grammar_cover _ _, ?_, fun key => ?_⟩
    · simp only [chose, Tracker.maximum_eq, Tracker.grammar_cover]
    · rw [s.tracker.maximum_eq]
      exact Tracker.mem_covered_cover
  · obtain ⟨place, found⟩ := List.mem_iff_get.mp ((favoured candidate).mpr after)
    exact ⟨place, found, fun other same => distinct.injective_get (same.trans found.symm)⟩

/-- A candidate of no use any more, one that is listed twice, and a foreign one. -/
def forkMixture : List (List Tree) :=
  [[.pending "<left>"], [.pending "<right>"], [.leaf "?"], [.pending "<right>"]]

theorem forkMixture_favours :
    ∃ s, Relation.ReflTransGen Operates (withTracker .foresight (.new fork)) s ∧
    forkMixture ≠ [] ∧ ∃ (count : Nat) (position : Fin count → Fin forkMixture.length),
      (∀ candidate, candidate.val ∈ [1, 3] → ∃! place, position place = candidate) ∧
      ∀ place, (position place).val ∈ [1, 3] := by
  have looked := Operates.newCoverages (s := withTracker .foresight (.new fork)) "<start>" forkWays
  have history := (Relation.ReflTransGen.single looked).tail
    (.recordTree (.node "<start>" [.node "<left>" [.leaf "a"]]))
  have given : forkMixture ≠ [] := List.cons_ne_nil _ _
  obtain ⟨count, _, position, _, once, favoured⟩ :=
    choose_favours (.new fork) history (.pending "<start>") given
  refine ⟨_, history, given, count, position, fun candidate listed => once candidate ?_,
    fun place => ?_⟩
  · revert candidate
    decide +kernel
  · have after := favoured place
    generalize position place = candidate at after
    revert candidate
    decide +kernel

end GrammarFuzz.Strategy
