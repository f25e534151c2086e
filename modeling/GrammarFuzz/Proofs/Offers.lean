import Mathlib.Data.Set.Insert
import GrammarFuzz.Proofs.Choices
import GrammarFuzz.Proofs.Exposure

/-! Coverage as a function of what was offered. Whoever offers a key, a caller that records it or
a tree that shows it, or the strategy that chooses it, the covered keys are in the end those keys
of the grammar that were offered since the last reset. So numbers of keys tell whether coverage is
complete, and between resets the state only moves forward. -/
namespace GrammarFuzz

/-- How far coverage has come. -/
def CoverageState.rank : CoverageState → Nat
  | none => 0
  | partly => 1
  | full => 2

namespace Tracker

variable {t after : Tracker} {key : Key}

/-- A record that answers yes gains its key, one that answers no gains nothing. -/
def Records (t : Tracker) (key : Key) : Bool × Tracker → Prop
  | (true, after) => key ∉ t.covered ∧ after.covered = t.covered.insert key
  | (false, after) => after = t

theorem records_recordKey (t : Tracker) (key : Key) : t.Records key (t.recordKey key) := by
  cases gained : t.isNew key with
  | true =>
      obtain ⟨uncovered, known⟩ := Bool.and_eq_true_iff.mp gained
      simp only [recordKey, gained, Records]
      refine ⟨not_contains_iff.mp uncovered, ?_⟩
      rw [cover, dif_pos (Std.ExtTreeSet.contains_iff_mem.mp known)]
  | false =>
      simp only [recordKey, gained, Records]
      by_cases covered : key ∈ t.covered
      · exact cover_of_mem covered
      · have unknown : key ∉ t.maximum := fun known => by
          have fresh : t.isNew key = true :=
            Bool.and_eq_true_iff.mpr ⟨not_contains_iff.mpr covered,
              Std.ExtTreeSet.contains_iff_mem.mpr known⟩
          exact Bool.false_ne_true (gained.symm.trans fresh)
        rw [cover, dif_neg unknown]

theorem mem_maximum_iff : key ∈ t.maximum ↔ key ∈ t.covered ∨ key ∈ t.missing := by
  rw [mem_missing, ← t.maximum_eq]
  by_cases covered : key ∈ t.covered
  · simp [covered, t.covered_subset key covered]
  · simp [covered]

theorem state_eq_none_iff : t.state = .none ↔ t.covered = ∅ ∧ t.maximum ≠ ∅ := by
  rw [← Std.ExtTreeSet.isEmpty_iff, ne_eq, ← Std.ExtTreeSet.isEmpty_eq_false_iff]
  unfold state
  cases t.covered.isEmpty <;> cases t.maximum.isEmpty <;> cases t.isComplete <;> simp

theorem state_eq_full_iff : t.state = .full ↔ t.isComplete = true := by
  constructor
  · intro full
    unfold state at full
    split at full
    · contradiction
    · split at full
      · assumption
      · contradiction
  · intro complete
    have started : ¬(t.covered.isEmpty && !t.maximum.isEmpty) = true := by
      simp only [isComplete, beq_iff_eq] at complete
      simp [Std.ExtTreeSet.isEmpty_eq_size_beq_zero, complete]
    rw [state, if_neg started, if_pos complete]

/-- Coverage that only grows moves the state forward. -/
theorem state_mono (same : after.grammar = t.grammar)
    (grows : ∀ key ∈ t.covered, key ∈ after.covered) :
    t.state.rank ≤ after.state.rank := by
  have maximum : after.maximum = t.maximum := by rw [after.maximum_eq, t.maximum_eq, same]
  cases before : t.state with
  | none => exact Nat.zero_le _
  | partly =>
      have started : after.state ≠ .none := by
        intro nothing
        obtain ⟨empty, some⟩ := state_eq_none_iff.mp nothing
        have none : t.state = .none := by
          refine state_eq_none_iff.mpr
            ⟨Std.ExtTreeSet.eq_empty_iff_forall_not_mem.mpr fun key covered => ?_, maximum ▸ some⟩
          exact Std.ExtTreeSet.eq_empty_iff_forall_not_mem.mp empty key (grows key covered)
        rw [before] at none
        contradiction
      cases now : after.state with
      | none => exact absurd now started
      | partly | full => decide
  | full =>
      have complete := isComplete_iff_covered.mp (state_eq_full_iff.mp before)
      have full : after.state = .full := by
        refine state_eq_full_iff.mpr (isComplete_iff_covered.mpr fun key known => ?_)
        exact grows key (complete key (same ▸ known))
      rw [full]

end Tracker

/-- What can be done to the coverage of a strategy. -/
inductive Operation where
  | recordText (symbol : Symbol) (text : String)
  | recordChildren (symbol : Symbol) (children : List Tree)
  | recordKey (key : Key)
  | recordTree (tree : Tree)
  | choose (symbol : Symbol) (candidates : List (List Tree))
  | reset
  deriving DecidableEq

/-- A strategy at work, with its source of choices and all keys that were offered since it was
created or last reset. Nothing reads the offers. -/
structure Session (γ : Type) where
  strategy : Strategy
  source : γ
  offered : Set Key

namespace Session

variable {γ : Type}

def start (kind : StrategyKind) (g : Grammar) (source : γ) : Session γ := ⟨.new kind g, source, ∅⟩

abbrev tracker (s : Session γ) : Tracker := s.strategy.tracker

/-- Go on with the tracker after these keys were offered to it. -/
def offer (s : Session γ) (keys : Set Key) (t : Tracker) : Session γ :=
  { s with strategy := { s.strategy with tracker := t }, offered := s.offered ∪ keys }

variable [Chance γ]

/-- A tree offers the keys that it shows, and a choice that of the chosen candidate; without
candidates there is none. -/
def perform (s : Session γ) : Operation → Session γ
  | .recordText symbol text => s.offer {Key.ofText symbol text} (s.tracker.recordText symbol text).2
  | .recordChildren symbol children =>
      s.offer {Key.ofChildren symbol children} (s.tracker.recordChildren symbol children).2
  | .recordKey key => s.offer {key} (s.tracker.recordKey key).2
  | .recordTree tree => s.offer {key | tree.Shows key} (s.tracker.recordTree tree).2
  | .choose symbol candidates =>
      match s.strategy.choose symbol candidates s.source with
      | some (position, strategy, source) =>
          ⟨strategy, source, s.offered ∪ {Key.ofChildren symbol (candidates.get position)}⟩
      | none => s
  | .reset => { s with strategy := s.strategy.reset, offered := ∅ }

def run (s : Session γ) (operations : List Operation) : Session γ := operations.foldl perform s

/-- All that an operation other than a reset does to the tracker is to offer it some keys. -/
theorem perform_offers (s : Session γ) {operation : Operation} (goes : operation ≠ .reset) :
    ∃ keys : List Key, (s.perform operation).tracker = keys.foldl Tracker.cover s.tracker ∧
      ∀ key, key ∈ (s.perform operation).offered ↔ key ∈ s.offered ∨ key ∈ keys := by
  have one (own key : Key) : key ∈ s.offered ∪ {own} ↔ key ∈ s.offered ∨ key ∈ [own] := by
    rw [List.mem_singleton]
    rfl
  cases operation with
  | recordText symbol text => exact ⟨[Key.ofText symbol text], rfl, one _⟩
  | recordChildren symbol children => exact ⟨[Key.ofChildren symbol children], rfl, one _⟩
  | recordKey key => exact ⟨[key], rfl, one key⟩
  | recordTree tree =>
      refine ⟨tree.usedKeys, s.tracker.recordTree_snd tree, fun key => ?_⟩
      rw [Tree.mem_usedKeys_iff_shows]
      rfl
  | choose symbol candidates =>
      by_cases some : candidates = []
      · subst some
        have nothing : s.perform (.choose symbol []) = s := by
          simp only [perform]
          split
          · rename_i position _ _ _
            exact position.elim0
          · rfl
        exact ⟨[], by rw [nothing]; rfl, by simp [nothing]⟩
      · obtain ⟨position, _, after, chosen⟩ := s.strategy.choose_cases symbol some s.source
        refine ⟨[Key.ofChildren symbol (candidates.get position)], ?_, ?_⟩
        · simp only [perform, chosen]
          rfl
        · simp only [perform, chosen]
          exact one _
  | reset => exact absurd rfl goes

/-- The invariant: what is covered depends on nothing but the offers. -/
def Exact (g : Grammar) (s : Session γ) : Prop :=
  s.tracker.grammar = g ∧
    ∀ key, key ∈ s.tracker.covered ↔ key ∈ g.maximumCoverage ∧ key ∈ s.offered

theorem exact_perform {g : Grammar} {s : Session γ} (exact : s.Exact g) (operation : Operation) :
    (s.perform operation).Exact g := by
  by_cases goes : operation = .reset
  · subst goes
    exact ⟨exact.1, fun key => by simp [perform, Strategy.reset, Tracker.reset, tracker]⟩
  · obtain ⟨keys, covers, offers⟩ := s.perform_offers goes
    obtain ⟨same, before⟩ := exact
    refine ⟨by rw [covers, Tracker.grammar_foldl_cover, same], fun key => ?_⟩
    rw [covers, offers, Tracker.mem_covered_foldl_cover, before, same]
    tauto

theorem exact_run {g : Grammar} {s : Session γ} (exact : s.Exact g) (operations : List Operation) :
    (s.run operations).Exact g := by
  induction operations generalizing s with
  | nil => exact exact
  | cons operation rest ih => exact ih (exact_perform exact operation)

omit [Chance γ] in
theorem exact_start (kind : StrategyKind) (g : Grammar) (source : γ) :
    (start kind g source).Exact g :=
  ⟨rfl, fun key => by simp [start, Strategy.new, Strategy.withTracker, Tracker.new, tracker]⟩

theorem covered_run {s : Session γ} {operations : List Operation} (goes : .reset ∉ operations) :
    (s.run operations).tracker.grammar = s.tracker.grammar ∧
      ∀ key ∈ s.tracker.covered, key ∈ (s.run operations).tracker.covered := by
  induction operations generalizing s with
  | nil => exact ⟨rfl, fun _ => id⟩
  | cons operation rest ih =>
      simp only [List.mem_cons, not_or] at goes
      obtain ⟨same, grows⟩ := ih (s := s.perform operation) goes.2
      obtain ⟨keys, covers, _⟩ := s.perform_offers (Ne.symm goes.1)
      rw [covers, Tracker.grammar_foldl_cover] at same
      refine ⟨same, fun key covered => grows key ?_⟩
      rw [covers, Tracker.mem_covered_foldl_cover]
      exact .inl covered

/-- Whatever was recorded and chosen, in whatever order and how often, the covered keys are
the keys of the grammar among those offered since the last reset. -/
theorem covered_of_offers (kind : StrategyKind) (g : Grammar) (source : γ)
    (operations : List Operation) :
    let s := (start kind g source).run operations
    let t := s.tracker
    (∀ key, key ∈ t.covered ↔ key ∈ g.maximumCoverage ∧ key ∈ s.offered) ∧
    (t.grammar = g ∧ t.maximum = g.maximumCoverage) ∧
    (∀ key, (key ∈ t.maximum ↔ key ∈ t.covered ∨ key ∈ t.missing) ∧
      ¬(key ∈ t.covered ∧ key ∈ t.missing)) ∧
    (t.isComplete = true ↔ t.missing = []) ∧
    (∀ key, t.Records key (t.recordKey key)) ∧
    (∀ symbol text, t.Records (Key.ofText symbol text) (t.recordText symbol text)) ∧
    (∀ symbol children,
      t.Records (Key.ofChildren symbol children) (t.recordChildren symbol children)) ∧
    (∀ symbol candidates, candidates ≠ [] →
      (s.strategy.choose symbol candidates s.source).isSome = true) ∧
    ∀ more, .reset ∉ more → t.state.rank ≤ (s.run more).tracker.state.rank := by
  intro s t
  obtain ⟨same, covered⟩ : s.Exact g := exact_run (exact_start kind g source) operations
  refine ⟨covered, ⟨same, same ▸ t.maximum_eq⟩, fun key => ⟨Tracker.mem_maximum_iff, ?_⟩,
    Tracker.isComplete_iff, t.records_recordKey, fun _ _ => t.records_recordKey _,
    fun _ _ => t.records_recordKey _, fun symbol candidates some => ?_, fun more goes => ?_⟩
  · rintro ⟨inside, missed⟩
    exact (Tracker.mem_missing.mp missed).2 inside
  · obtain ⟨position, _, after, chosen⟩ := s.strategy.choose_cases symbol some s.source
    rw [chosen]
    rfl
  · obtain ⟨same, grows⟩ := covered_run (s := s) goes
    exact Tracker.state_mono same grows

end Session
end GrammarFuzz
