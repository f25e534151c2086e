import GrammarFuzz.Proofs.Lockstep

/-! A reset forgets everything. What a strategy remembers of its lookahead depends on the
grammar alone, so two strategies that differ in memory only answer every call alike; and
nothing but memory outlives a reset. -/
namespace GrammarFuzz

theorem Tracker.reset_eq_new (t : Tracker) : t.reset = .new t.grammar :=
  Tracker.ext_covered rfl fun _ => Iff.rfl

namespace Strategy

variable {kind : StrategyKind} {g : Grammar} {s s' : Strategy}

/-- Strategies that differ only in what they remember of their grammar. -/
structure Twins (kind : StrategyKind) (g : Grammar) (s s' : Strategy) : Prop where
  first : Sound kind g s
  second : Sound kind g s'
  tracker : s'.tracker = s.tracker

theorem Twins.chose (twins : Twins kind g s s') {symbol : Symbol} {candidates : List (List Tree)}
    (position : Fin candidates.length) :
    Twins kind g (s.chose symbol candidates position) (s'.chose symbol candidates position) :=
  ⟨twins.first.chose position, twins.second.chose position,
    by simp only [Strategy.chose, twins.tracker]⟩

theorem Twins.positions (twins : Twins kind g s s') (symbol : Symbol)
    (candidates : List (List Tree)) :
    s'.positions symbol candidates = s.positions symbol candidates := by
  rw [twins.first.preferred.1, twins.second.preferred.1, twins.tracker]

theorem lockstep_twins (kind : StrategyKind) (g : Grammar) : Lockstep (Twins kind g) where
  tracker twins := twins.tracker
  positions twins _ := twins.positions _ _
  chose twins _ position := twins.chose position

theorem Twins.track (twins : Twins kind g s s') {t : Tracker} (same : t.grammar = g) :
    Twins kind g { s with tracker := t } { s' with tracker := t } :=
  ⟨twins.first.track same, twins.second.track same, rfl⟩

/-- Whatever two strategies have covered, a reset makes them twins. -/
theorem twins_reset (first : Sound kind g s) (second : Sound kind g s') :
    Twins kind g s.reset s'.reset := by
  have grammar : s'.tracker.grammar = s.tracker.grammar := second.grammar.trans first.grammar.symm
  have tracker : s'.tracker.reset = s.tracker.reset := by
    rw [Tracker.reset_eq_new, Tracker.reset_eq_new, grammar]
  exact ⟨first.track first.grammar, second.track second.grammar, tracker⟩

end Strategy

namespace Fuzzer

variable {γ : Type} [Chance γ] {kind : StrategyKind} {g : Grammar} {f f' : Fuzzer γ}

open Strategy (Twins)

/-- Fuzzers that differ in what they have covered and remember. -/
abbrev Akin (kind : StrategyKind) (g : Grammar) : Fuzzer γ → Fuzzer γ → Prop :=
  Paired fun s s' => s.Sound kind g ∧ s'.Sound kind g

omit [Chance γ] in
theorem Akin.reset (akin : Akin kind g f f') :
    Paired (Twins kind g) f.resetCoverage f'.resetCoverage :=
  ⟨akin.config, akin.source, Strategy.twins_reset akin.strategy.1 akin.strategy.2⟩

omit [Chance γ] in
theorem Paired.akin (paired : Paired (Twins kind g) f f') : Akin kind g f f' :=
  ⟨paired.config, paired.source, paired.strategy.first, paired.strategy.second⟩

omit [Chance γ] in
theorem Paired.tracker (paired : Paired (Twins kind g) f f') : f'.tracker = f.tracker :=
  paired.strategy.tracker

/-! Campaigns. -/

theorem extend_matches (budget generations : Nat) : ∀ {f f' : Fuzzer γ} (campaign : Campaign),
    Paired (Twins kind g) f f' →
      Matches (Twins kind g) (extend budget generations f campaign)
        (extend budget generations f' campaign) := by
  induction generations with
  | zero =>
      intro f f' campaign paired
      unfold extend
      rw [paired.tracker]
      split <;> exact ⟨rfl, paired⟩
  | succ generations ih =>
      intro f f' campaign paired
      unfold extend
      rw [paired.tracker]
      split
      · exact ⟨rfl, paired⟩
      · obtain ⟨outcome, h, h', first, second, after⟩ :=
          (fuzz_matches (Strategy.lockstep_twins kind g) paired budget).cases
        simp only [first, second]
        cases outcome with
        | done input => exact ih (campaign.add input) after
        | failed error => exact ⟨rfl, after⟩
        | unfinished => exact ⟨rfl, after⟩

/-- Every trial starts with a reset, so it does not matter what is covered before. -/
theorem summedLength_succ_matches {budget trials : Nat}
    (later : ∀ {f f' : Fuzzer γ} (sum : Nat), Paired (Twins kind g) f f' →
      Matches (Twins kind g) (summedLength budget trials f sum)
        (summedLength budget trials f' sum))
    (akin : Akin kind g f f') (sum : Nat) :
    Matches (Twins kind g) (summedLength budget (trials + 1) f sum)
      (summedLength budget (trials + 1) f' sum) := by
  unfold summedLength untilCovered
  rw [akin.config]
  obtain ⟨outcome, h, h', first, second, after⟩ :=
    (extend_matches budget f.config.maxGenerations {} akin.reset).cases
  simp only [first, second]
  cases outcome with
  | done campaign => exact later (sum + campaign.totalLength) after
  | failed error => exact ⟨rfl, after⟩
  | unfinished => exact ⟨rfl, after⟩

theorem summedLength_matches (budget trials : Nat) : ∀ {f f' : Fuzzer γ} (sum : Nat),
    Paired (Twins kind g) f f' →
      Matches (Twins kind g) (summedLength budget trials f sum)
        (summedLength budget trials f' sum) := by
  induction trials with
  | zero => exact fun sum paired => ⟨rfl, paired⟩
  | succ trials ih => exact fun sum paired => summedLength_succ_matches ih paired.akin sum

theorem averageLength_matches {budget trials : Nat} (some : trials ≠ 0)
    (sums : Matches (Twins kind g) (summedLength budget trials f 0)
      (summedLength budget trials f' 0)) :
    Matches (Twins kind g) (f.averageLength budget trials) (f'.averageLength budget trials) := by
  unfold averageLength
  rw [if_neg some, if_neg some]
  obtain ⟨outcome, h, h', first, second, after⟩ := sums.cases
  simp only [first, second]
  cases outcome with
  | done sum => exact ⟨rfl, after⟩
  | failed error => exact ⟨rfl, after⟩
  | unfinished => exact ⟨rfl, after⟩

/-! Calls. -/

omit [Chance γ] in
theorem look_matches {α : Type} {action : StateM ReachMemory α} {value : α}
    (paired : Paired (Twins kind g) f f') (answers : Lookahead.Answers g action value) :
    Matches (Twins kind g) (f.look action) (f'.look action) := by
  obtain ⟨first, second, tracker⟩ := paired.strategy
  obtain ⟨same, faithful⟩ := answers _ first.faithful
  obtain ⟨same', faithful'⟩ := answers _ second.faithful
  exact ⟨same'.trans same.symm, paired.config, paired.source,
    { first with faithful }, { second with faithful := faithful' }, tracker⟩

theorem perform_matches (paired : Paired (Twins kind g) f f') (call : Call) :
    Matches (Twins kind g) (f.perform call) (f'.perform call) := by
  have lockstep := Strategy.lockstep_twins kind g
  have tracker : f'.tracker = f.tracker := paired.tracker
  have grammar : f.tracker.grammar = g := paired.strategy.first.grammar
  cases call with
  | fuzzTree budget => exact (fuzzTree_matches lockstep paired budget).map _
  | fuzz budget => exact (fuzz_matches lockstep paired budget).map _
  | expandOnce tree => exact (expandOnce_matches lockstep paired .anything tree).map _
  | expandTree budget tree => exact (expandTree_matches lockstep paired budget tree).map _
  | campaign budget generations => exact (extend_matches budget generations {} paired).map _
  | summedLength budget trials => exact (summedLength_matches budget trials 0 paired).map _
  | averageLength budget trials =>
      by_cases some : trials = 0
      · simp only [perform, averageLength, if_pos some]
        exact ⟨rfl, paired⟩
      · exact (averageLength_matches some (summedLength_matches budget trials 0 paired)).map _
  | choose symbol candidates =>
      simp only [perform, Strategy.choose_eq, paired.strategy.positions, paired.source]
      cases Strategy.pickFrom? (f.strategy.positions symbol candidates) f.source with
      | none => exact ⟨rfl, paired⟩
      | some picked => exact ⟨rfl, paired.config, rfl, paired.strategy.chose picked.1⟩
  | newCoverage symbol depth children =>
      have answers := Lookahead.answers_newCoverage f.tracker symbol depth children
      rw [grammar] at answers
      simp only [perform, tracker]
      exact (look_matches paired answers).map _
  | newCoverages symbol candidates =>
      have answers := Lookahead.answers_search f.tracker symbol candidates f.grammar.size 1
      rw [grammar] at answers
      simp only [perform, tracker]
      exact (look_matches paired answers).map _
  | record key =>
      simp only [perform, tracker]
      exact ⟨rfl, paired.config, paired.source,
        paired.strategy.track ((Tracker.grammar_cover _ _).trans grammar)⟩
  | recordTree tree =>
      have kept : (f.tracker.recordTree tree).2.grammar = g := by
        rw [Tracker.recordTree_snd, Tracker.grammar_foldl_cover, grammar]
      simp only [perform, tracker]
      exact ⟨rfl, paired.config, paired.source, paired.strategy.track kept⟩
  | reset => exact ⟨rfl, paired.akin.reset⟩
  | configure config => exact ⟨rfl, rfl, paired.source, paired.strategy⟩

theorem run_paired (calls : List Call) : ∀ {f f' : Fuzzer γ}, Paired (Twins kind g) f f' →
    Paired (Twins kind g) (f.run calls) (f'.run calls) := by
  induction calls with
  | nil => exact id
  | cons call rest ih => exact fun paired => ih (perform_matches paired call).2

theorem observe_eq (calls : List Call) : ∀ {f f' : Fuzzer γ}, Paired (Twins kind g) f f' →
    f'.observe calls = f.observe calls := by
  induction calls with
  | nil => exact fun _ => rfl
  | cons call rest ih =>
      intro f f' paired
      have matched := perform_matches paired call
      exact observe_cons_eq (Strategy.lockstep_twins kind g) matched (ih matched.2)

/-- Whatever is called, the kind and the grammar stay, and memory holds what the walk finds. -/
theorem sound_run (kind : StrategyKind) (t : Tracker) (config : Config) (source : γ)
    (history : List Call) :
    (run ⟨config, .withTracker kind t, source⟩ history).strategy.Sound kind t.grammar := by
  have start : (Strategy.withTracker kind t).Sound kind t.grammar :=
    ⟨rfl, rfl, Lookahead.faithful_empty _⟩
  have paired :=
      run_paired (f := ⟨config, .withTracker kind t, source⟩) history ⟨rfl, rfl, start, start, rfl⟩
  exact paired.strategy.first

omit [Chance γ] in
theorem akin_new (sound : f.strategy.Sound kind g) :
    Akin kind g f ⟨f.config, .new kind g, f.source⟩ :=
  ⟨rfl, rfl, sound, rfl, rfl, Lookahead.faithful_empty g⟩

/-- Reset forgets everything. After any calls, a fuzzer that is reset looks like one with a new
strategy of its kind over its grammar, whatever is called then; and the trials of an average
start with a reset, so that an average of at least one of them is the same without it. -/
theorem reset_forgets (kind : StrategyKind) (t : Tracker) (config : Config) (source : γ)
    (history further : List Call) :
    let f := run ⟨config, .withTracker kind t, source⟩ history
    let new : Fuzzer γ := ⟨f.config, .new kind t.grammar, f.source⟩
    f.resetCoverage.observe further = new.observe further ∧
      ∀ budget trials,
        f.observe (.summedLength budget (trials + 1) :: further) =
          new.observe (.summedLength budget (trials + 1) :: further) ∧
        f.observe (.averageLength budget (trials + 1) :: further) =
          new.observe (.averageLength budget (trials + 1) :: further) := by
  intro f new
  have akin : Akin kind t.grammar f new := akin_new (sound_run kind t config source history)
  refine ⟨(observe_eq further akin.reset).symm, fun budget trials => ?_⟩
  have sums := summedLength_succ_matches (summedLength_matches budget trials) akin 0
  have averages := averageLength_matches (Nat.succ_ne_zero trials) sums
  have looks {call : Call} (matched :
      Matches (Twins kind t.grammar) (f.perform call) (new.perform call)) :
      f.observe (call :: further) = new.observe (call :: further) :=
    (observe_cons_eq (Strategy.lockstep_twins kind t.grammar) matched
      (observe_eq further matched.2)).symm
  exact ⟨looks (sums.map Answer.length), looks (averages.map Answer.average)⟩

end Fuzzer
end GrammarFuzz
