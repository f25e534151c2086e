import GrammarFuzz.Generation.Campaign
import GrammarFuzz.Proofs.Recording
import GrammarFuzz.Proofs.SingleStep

/-! Campaigns as runs. A campaign derives inputs as long as coverage is incomplete and fewer than
the limit are there. Which inputs these are, and how it stops, determines all that a campaign
reports; so a campaign and another one after it are one campaign up to the sum of their limits. -/
namespace GrammarFuzz

namespace Campaign

/-- The report of a campaign with these inputs. -/
def ofInputs (inputs : List String) (complete : Bool) : Campaign where
  inputs := inputs.toArray
  totalLength := (inputs.map String.utf8ByteSize).sum
  complete := complete

theorem foldl_add (inputs : List String) : ∀ campaign : Campaign, inputs.foldl add campaign =
    { campaign with
      inputs := campaign.inputs ++ inputs.toArray
      totalLength := campaign.totalLength + (inputs.map String.utf8ByteSize).sum } := by
  induction inputs with
  | nil => simp
  | cons input rest ih =>
      intro campaign
      rw [List.foldl_cons, ih]
      simp [add, Nat.add_assoc]

end Campaign

namespace Fuzzer

variable {γ : Type} [Chance γ]

/-! Calls that return. -/

theorem expandSymbol_continues (f : Fuzzer γ) (phase : Phase) (symbol : Symbol) :
    Continues f (f.expandSymbol phase symbol).2 := by
  by_cases offered : phase.offered f.grammar symbol = []
  · have none : (phase.offered f.grammar symbol).map Expansion.toChildren = [] := by
      rw [offered, List.map_nil]
    rw [expandSymbol, f.strategy.choose_of_nil symbol none]
    exact .refl f
  · obtain ⟨_, after, expanded, expands⟩ := f.expandSymbol_cases phase offered
    rw [expanded]
    exact expands.continues

/-- Whether or not a step succeeds, it loses no coverage. -/
theorem expandOnce_continues (f : Fuzzer γ) (phase : Phase) (tree : Tree) :
    Continues f (f.expandOnce phase tree).2 := by
  cases pending : tree.hasPending with
  | false =>
      rw [expandOnce_settled f phase pending]
      exact .refl f
  | true =>
      obtain ⟨symbol, source, plug, _, step⟩ := expandOnce_descends phase tree f.source pending
      have step : f.expandOnce phase tree =
          regrow plug (expandSymbol { f with source } phase symbol) :=
        step f.config f.strategy
      have picked : Continues f { f with source } := ⟨rfl, rfl, rfl, id, fun _ => id⟩
      rw [step]
      exact picked.trans (expandSymbol_continues _ phase symbol)

theorem expandWhile_done_of_stop {phase : Phase} {limit : Option Nat} {budget : Nat}
    {f f' : Fuzzer γ}
    {tree after : Tree} (stop : (tree.hasPending && limit.all (tree.pendingCount < ·)) = false)
    (done : expandWhile phase limit budget f tree = (.done after, f')) :
    Continues f f' ∧ ∀ enough, expandWhile phase limit enough f tree = (.done after, f') := by
  cases (expandWhile_stop budget f stop).1.symm.trans done
  exact ⟨.refl f, fun enough => (expandWhile_stop enough f stop).1⟩

/-- A loop that ends does so with every larger budget. -/
theorem expandWhile_done {phase : Phase} {limit : Option Nat} (budget : Nat) :
    ∀ {f f' : Fuzzer γ} {tree after : Tree},
      expandWhile phase limit budget f tree = (.done after, f') →
      Continues f f' ∧ ∀ enough, budget ≤ enough →
        expandWhile phase limit enough f tree = (.done after, f') := by
  induction budget with
  | zero =>
      intro f f' tree after done
      cases goes : tree.hasPending && limit.all (tree.pendingCount < ·) with
      | true => simp [expandWhile, goes] at done
      | false =>
          obtain ⟨continues, stopped⟩ := expandWhile_done_of_stop goes done
          exact ⟨continues, fun enough _ => stopped enough⟩
  | succ budget ih =>
      intro f f' tree after done
      cases goes : tree.hasPending && limit.all (tree.pendingCount < ·) with
      | true =>
          rcases stepped : f.expandOnce phase tree with ⟨error | next, g⟩
          · simp [expandWhile, goes, stepped] at done
          · simp only [expandWhile, goes, if_true, stepped] at done
            obtain ⟨continues, larger⟩ := ih done
            have first : Continues f g := by
              have step := f.expandOnce_continues phase tree
              rwa [stepped] at step
            refine ⟨first.trans continues, fun enough room => ?_⟩
            obtain ⟨rest, rfl⟩ : ∃ rest, enough = rest + 1 := ⟨enough - 1, by omega⟩
            simp only [expandWhile, goes, if_true, stepped]
            exact larger rest (by omega)
      | false =>
          obtain ⟨continues, stopped⟩ := expandWhile_done_of_stop goes done
          exact ⟨continues, fun enough _ => stopped enough⟩

theorem expandTree_eq_done_iff {f f' : Fuzzer γ} {budget : Nat} {tree after : Tree} :
    f.expandTree budget tree = (.done after, f') ↔ ∃ grown g small h,
      expandWhile .costliest (some f.config.minPending) budget f tree = (.done grown, g) ∧
      expandWhile .anything (some g.config.maxPending) budget g grown = (.done small, h) ∧
      expandWhile .cheapest none budget h small = (.done after, f') := by
  unfold expandTree
  rcases first : expandWhile .costliest (some f.config.minPending) budget f tree
    with ⟨grown | error | _, g⟩
  · rcases second : expandWhile .anything (some g.config.maxPending) budget g grown
      with ⟨small | error | _, h⟩
    · simp [second]
    · simp [second]
    · simp [second]
  · simp
  · simp

/-- An input is the text of a tree. -/
theorem fuzz_eq_done_iff {f f' : Fuzzer γ} {budget : Nat} {input : String} :
    f.fuzz budget = (.done input, f') ↔
      ∃ tree, f.fuzzTree budget = (.done tree, f') ∧ tree.text = input := by
  unfold fuzz
  rcases f.fuzzTree budget with ⟨tree | error | _, after⟩
  · simp only [Prod.mk.injEq, Outcome.done.injEq]
    constructor
    · rintro ⟨rfl, rfl⟩
      exact ⟨tree, ⟨rfl, rfl⟩, rfl⟩
    · rintro ⟨_, ⟨rfl, rfl⟩, rfl⟩
      exact ⟨rfl, rfl⟩
  · simp
  · simp

/-- A call that returns does so with every larger budget, and loses no coverage. -/
theorem fuzz_done {f f' : Fuzzer γ} {budget : Nat} {input : String}
    (done : f.fuzz budget = (.done input, f')) :
    Continues f f' ∧ ∀ enough, budget ≤ enough → f.fuzz enough = (.done input, f') := by
  obtain ⟨tree, derived, spelled⟩ := fuzz_eq_done_iff.mp done
  obtain ⟨_, _, _, _, first, second, third⟩ := expandTree_eq_done_iff.mp derived
  obtain ⟨grows, first⟩ := expandWhile_done budget first
  obtain ⟨goes, second⟩ := expandWhile_done budget second
  obtain ⟨closes, third⟩ := expandWhile_done budget third
  refine ⟨(grows.trans goes).trans closes, fun enough room => ?_⟩
  refine fuzz_eq_done_iff.mpr ⟨tree, expandTree_eq_done_iff.mpr ?_, spelled⟩
  exact ⟨_, _, _, _, first enough room, second enough room, third enough room⟩

/-- Inputs derived one after the other, each while coverage was incomplete. -/
inductive Advances (budget : Nat) : Fuzzer γ → List String → Fuzzer γ → Prop
  | stay (f : Fuzzer γ) : Advances budget f [] f
  | next {f middle after : Fuzzer γ} {input : String} {inputs : List String}
      (incomplete : f.tracker.isComplete = false) (done : f.fuzz budget = (.done input, middle)) :
      Advances budget middle inputs after → Advances budget f (input :: inputs) after

namespace Advances

variable {budget : Nat} {f middle after : Fuzzer γ} {inputs more : List String}

theorem append (first : Advances budget f inputs middle)
    (second : Advances budget middle more after) :
    Advances budget f (inputs ++ more) after := by
  induction first with
  | stay => exact second
  | next incomplete done _ ih => exact .next incomplete done (ih second)

theorem enough (advances : Advances budget f inputs after) {enough : Nat} (room : budget ≤ enough) :
    Advances enough f inputs after := by
  induction advances with
  | stay f => exact .stay f
  | next incomplete done _ ih => exact .next incomplete ((fuzz_done done).2 enough room) ih

theorem continues (advances : Advances budget f inputs after) : Continues f after := by
  induction advances with
  | stay f => exact .refl f
  | next _ done _ ih => exact (fuzz_done done).1.trans ih

/-- The inputs are the texts of the trees of as many calls. -/
theorem exists_generates (advances : Advances budget f inputs after) :
    ∃ trees, Generates f trees after ∧ trees.map Tree.text = inputs := by
  induction advances with
  | stay f => exact ⟨[], .none f, rfl⟩
  | next _ done _ ih =>
      obtain ⟨tree, derived, rfl⟩ := fuzz_eq_done_iff.mp done
      obtain ⟨trees, generates, rfl⟩ := ih
      exact ⟨tree :: trees, .next derived generates, rfl⟩

/-- After completion nothing is derived. -/
theorem of_isComplete (advances : Advances budget f inputs after)
    (complete : f.tracker.isComplete = true) :
    inputs = [] ∧ after = f := by
  cases advances with
  | stay => exact ⟨rfl, rfl⟩
  | next incomplete =>
      rw [complete] at incomplete
      contradiction

/-- Before completion something is derived, if the run may not stop. -/
theorem exists_fuzz (advances : Advances budget f inputs after)
    (incomplete : f.tracker.isComplete = false)
    (goes : inputs = [] → after.tracker.isComplete = true) :
    ∃ input rest middle, inputs = input :: rest ∧
      f.fuzz budget = (.done input, middle) ∧ Advances budget middle rest after := by
  cases advances with
  | stay =>
      rw [goes rfl] at incomplete
      contradiction
  | next _ done rest => exact ⟨_, _, _, rfl, done, rest⟩

end Advances

/-- Where all returns that is started before the limit, inputs are derived up to it or to
completion. -/
theorem exists_advances_of_returns {budget : Nat} (limit : Nat) : ∀ {f : Fuzzer γ},
    (∀ inputs start, Advances budget f inputs start → inputs.length < limit →
      start.tracker.isComplete = false → ∃ input next, start.fuzz budget = (.done input, next)) →
    ∃ inputs after, Advances budget f inputs after ∧ inputs.length ≤ limit ∧
      (inputs.length < limit → after.tracker.isComplete = true) := by
  induction limit with
  | zero => exact fun _ =>
      ⟨[], _, .stay _, Nat.le_refl 0, fun short => absurd short (Nat.not_lt_zero _)⟩
  | succ limit ih =>
      intro f returns
      cases complete : f.tracker.isComplete with
      | true => exact ⟨[], f, .stay f, Nat.zero_le _, fun _ => complete⟩
      | false =>
          obtain ⟨input, middle, done⟩ := returns [] f (.stay f) (Nat.succ_pos limit) complete
          obtain ⟨inputs, after, advances, bound, ended⟩ := ih fun inputs start advances short =>
            returns (input :: inputs) start (.next complete done advances) (Nat.succ_lt_succ short)
          exact ⟨input :: inputs, after, .next complete done advances, Nat.succ_le_succ bound,
            fun short => ended (Nat.lt_of_succ_lt_succ short)⟩

theorem extend_stop {f : Fuzzer γ} {generations : Nat}
    (ended : f.tracker.isComplete = true ∨ generations = 0)
    (budget : Nat) (campaign : Campaign) : extend budget generations f campaign =
      (.done { campaign with complete := f.tracker.isComplete }, f) := by
  unfold extend
  cases complete : f.tracker.isComplete with
  | true => rw [if_pos rfl]
  | false =>
      obtain rfl := ended.resolve_left (by simp [complete])
      rfl

/-- While coverage is incomplete, a campaign that may go on derives an input first. -/
theorem extend_succ_eq_done_iff {f f' : Fuzzer γ} {campaign result : Campaign} {budget limit : Nat}
    (incomplete : f.tracker.isComplete = false) :
    extend budget (limit + 1) f campaign = (.done result, f') ↔
      ∃ input middle, f.fuzz budget = (.done input, middle) ∧
        extend budget limit middle (campaign.add input) = (.done result, f') := by
  rw [extend, if_neg (by simp [incomplete])]
  rcases f.fuzz budget with ⟨input | error | _, middle⟩
  · simp
  · simp
  · simp

/-- A campaign ends when it has advanced to its limit or to completion. -/
theorem extend_eq_done_iff {budget : Nat} (limit : Nat) :
    ∀ {f f' : Fuzzer γ} {campaign result : Campaign},
    extend budget limit f campaign = (.done result, f') ↔ ∃ inputs, Advances budget f inputs f' ∧
      inputs.length ≤ limit ∧ (inputs.length < limit → f'.tracker.isComplete = true) ∧
      result = { inputs.foldl Campaign.add campaign with complete := f'.tracker.isComplete } := by
  induction limit with
  | zero =>
      intro f f' campaign result
      rw [extend_stop (.inr rfl)]
      constructor
      · rintro ⟨⟩
        exact ⟨[], .stay f, Nat.le_refl 0, fun short => absurd short (Nat.not_lt_zero _), rfl⟩
      · rintro ⟨inputs, advances, bound, _, rfl⟩
        obtain rfl := List.length_eq_zero_iff.mp (Nat.le_zero.mp bound)
        cases advances
        rfl
  | succ limit ih =>
      intro f f' campaign result
      cases complete : f.tracker.isComplete with
      | true =>
          rw [extend_stop (.inl complete)]
          constructor
          · rintro ⟨⟩
            exact ⟨[], .stay f, Nat.zero_le _, fun _ => complete, rfl⟩
          · rintro ⟨inputs, advances, _, _, rfl⟩
            obtain ⟨rfl, rfl⟩ := advances.of_isComplete complete
            rfl
      | false =>
          rw [extend_succ_eq_done_iff complete]
          constructor
          · rintro ⟨input, middle, done, rest⟩
            obtain ⟨inputs, advances, bound, ended, rfl⟩ := ih.mp rest
            exact ⟨input :: inputs, .next complete done advances, Nat.succ_le_succ bound,
              fun short => ended (Nat.lt_of_succ_lt_succ short), rfl⟩
          · rintro ⟨_, advances, bound, ended, rfl⟩
            obtain ⟨input, inputs, middle, rfl, done, advances⟩ :=
              advances.exists_fuzz complete fun none => ended (none ▸ Nat.succ_pos limit)
            exact ⟨input, middle, done, ih.mpr ⟨inputs, advances, Nat.le_of_succ_le_succ bound,
              fun short => ended (Nat.succ_lt_succ short), rfl⟩⟩

theorem untilCovered_eq_done_iff {f f' : Fuzzer γ} {budget limit : Nat} {campaign : Campaign} :
    f.untilCovered budget limit = (.done campaign, f') ↔ ∃ inputs, Advances budget f inputs f' ∧
      inputs.length ≤ limit ∧ (inputs.length < limit → f'.tracker.isComplete = true) ∧
      campaign = .ofInputs inputs f'.tracker.isComplete := by
  rw [untilCovered, extend_eq_done_iff]
  simp only [Campaign.foldl_add, Campaign.ofInputs, Array.empty_append, Nat.zero_add]

/-- Campaigns compose. If a campaign and another one after it return, then so does one with the sum
of their limits, and it leaves the fuzzer as they do, with their inputs and lengths put together and
the verdict of the second. And of any campaign that returns: it has as many inputs as its limit at
most, and fewer only if it is complete; each was derived while coverage was incomplete; its length
is that of its inputs in bytes; and what was covered stays covered. -/
theorem campaigns_compose (f : Fuzzer γ) :
    (∀ {budget budget' limit limit' : Nat} {first second : Campaign} {middle after : Fuzzer γ},
      f.untilCovered budget limit = (.done first, middle) →
      middle.untilCovered budget' limit' = (.done second, after) →
      ∀ enough, budget ≤ enough → budget' ≤ enough → f.untilCovered enough (limit + limit') =
        (.done { inputs := first.inputs ++ second.inputs
                 totalLength := first.totalLength + second.totalLength
                 complete := second.complete }, after)) ∧
    ∀ {budget limit : Nat} {campaign : Campaign} {after : Fuzzer γ},
      f.untilCovered budget limit = (.done campaign, after) →
      campaign.generations ≤ limit ∧ (campaign.generations < limit → campaign.complete = true) ∧
        Advances budget f campaign.inputs.toList after ∧
        campaign.complete = after.tracker.isComplete ∧
        campaign.totalLength = (campaign.inputs.toList.map String.utf8ByteSize).sum ∧
        ∀ key ∈ f.tracker.covered, key ∈ after.tracker.covered := by
  constructor
  · intro budget budget' limit limit' first second middle after early late enough room room'
    obtain ⟨inputs, advances, bound, ended, rfl⟩ := untilCovered_eq_done_iff.mp early
    obtain ⟨more, advances', bound', ended', rfl⟩ := untilCovered_eq_done_iff.mp late
    refine untilCovered_eq_done_iff.mpr ⟨inputs ++ more,
      (advances.enough room).append (advances'.enough room'), ?_⟩
    rw [List.length_append]
    refine ⟨Nat.add_le_add bound bound', fun short => ?_, by simp [Campaign.ofInputs]⟩
    -- If the second campaign is as long as it may be, the first fell short, so the second is empty.
    by_cases full : more.length < limit'
    · exact ended' full
    · have complete := ended (by omega)
      rwa [(advances'.of_isComplete complete).2]
  · intro budget limit campaign after done
    obtain ⟨inputs, advances, bound, ended, rfl⟩ := untilCovered_eq_done_iff.mp done
    exact ⟨bound, ended, advances, rfl, rfl, advances.continues.covered⟩

/-- Letters of one, two and three bytes. -/
def letters : Grammar := ⟨Rules.ofList [("<start>", ["é", "日", "x"])]⟩

def lettersFuzzer : Fuzzer Script :=
  ⟨{}, .new .immediate letters, .ofWords [9223372036854775809, 3]⟩

theorem lettersFuzzer_compose : ∃ middle after,
    lettersFuzzer.untilCovered 1 2 = (.done ⟨#["日", "é"], 5, false⟩, middle) ∧
    middle.untilCovered 2 5 = (.done ⟨#["x"], 1, true⟩, after) ∧
    lettersFuzzer.untilCovered 2 7 = (.done ⟨#["日", "é", "x"], 6, true⟩, after) := by
  have early : (lettersFuzzer.untilCovered 1 2).1 = .done ⟨#["日", "é"], 5, false⟩ := by
    decide +kernel
  have late : ((lettersFuzzer.untilCovered 1 2).2.untilCovered 2 5).1 =
      .done ⟨#["x"], 1, true⟩ := by decide +kernel
  obtain ⟨⟨outcome, middle⟩, first⟩ : ∃ ran, lettersFuzzer.untilCovered 1 2 = ran := ⟨_, rfl⟩
  rw [first] at early late
  obtain rfl := early
  obtain ⟨⟨outcome, after⟩, second⟩ : ∃ ran, middle.untilCovered 2 5 = ran := ⟨_, rfl⟩
  rw [second] at late
  obtain rfl := late
  exact ⟨middle, after, first, second,
    (campaigns_compose lettersFuzzer).1 first second 2 (by decide) (by decide)⟩

end Fuzzer
end GrammarFuzz
