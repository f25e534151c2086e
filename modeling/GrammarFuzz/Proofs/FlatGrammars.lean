import GrammarFuzz.Proofs.Admission
import GrammarFuzz.Proofs.Campaigns
import GrammarFuzz.Proofs.Lockstep
import GrammarFuzz.Proofs.Untried

/-! Grammars of one rule without references. All expansions cost the same, so no phase narrows them,
and one step ends a tree in whatever phase it is made. A strategy that is after new keys then tries
one more text with each input, and when all are tried coverage is complete. -/
namespace GrammarFuzz

namespace Grammar

variable {g : Grammar} {start : Symbol}

/-- There is one rule, and its expansions refer to no symbol. -/
structure Flat (g : Grammar) (start : Symbol) : Prop where
  valid : g.Valid
  alone : g.symbols = [start]
  plain : ∀ expansion ∈ g.expansions start, expansion.references = []

theorem expansionCost_of_plain {expansion : Expansion} (plain : expansion.references = [])
    (seen : SymbolSet) :
    g.expansionCost expansion seen = 1 := by
  simp [expansionCost, stepCost, plain]

namespace Flat

theorem member (flat : g.Flat start) : start ∈ g.symbols := by simp [flat.alone]

theorem expansions_ne_nil (flat : g.Flat start) : g.expansions start ≠ [] :=
  flat.valid.expansions_ne_nil flat.member

theorem finishes (flat : g.Flat start) : g.Finishes start := by
  obtain ⟨expansion, listed⟩ := List.exists_mem_of_ne_nil _ flat.expansions_ne_nil
  have settled : g.formCost expansion.parts = 0 :=
    congrArg (fun references => (references.map (g.symbolCost · ∅)).sum)
      (flat.plain expansion listed)
  have cheap := symbolCost_le_step flat.valid listed
  rw [settled] at cheap
  exact (symbolCost_lt_iff flat.valid flat.member).mp (Nat.lt_of_le_of_lt cheap (by decide))

theorem unproductive?_eq_none (flat : g.Flat start) : g.unproductive? start = none := by
  refine (unproductive?_eq_none_iff flat.valid flat.member).mpr fun symbol reaches => ?_
  have known := Reaches.mem_symbols flat.valid flat.member reaches
  rw [flat.alone, List.mem_singleton] at known
  exact known ▸ flat.finishes

end Flat
end Grammar

namespace Phase

variable {g : Grammar} {symbol : Symbol} {cost : Cost}

section Same

variable (same : ∀ expansion ∈ g.expansions symbol, g.expansionCost expansion {symbol} = cost)
include same

theorem ofCost_of_same {select : List Cost → Cost} (some : ofCost g symbol select ≠ []) :
    ofCost g symbol select = g.expansions symbol := by
  obtain ⟨chosen, offered⟩ := List.exists_mem_of_ne_nil _ some
  obtain ⟨listed, selected⟩ := mem_ofCost.mp offered
  rw [ofCost_eq_filter, ← selected, same chosen listed]
  exact List.filter_eq_self.mpr fun expansion listed => beq_iff_eq.mpr (same expansion listed)

/-- Where all expansions cost the same, no phase narrows them. -/
theorem offered_of_same (some : g.expansions symbol ≠ []) (phase : Phase) :
    phase.offered g symbol = g.expansions symbol := by
  cases phase with
  | anything => rfl
  | costliest => exact ofCost_of_same same (offered_ne_nil .costliest some)
  | cheapest => exact ofCost_of_same same (offered_ne_nil .cheapest some)

end Same

theorem offered_of_flat (flat : g.Flat symbol) (phase : Phase) :
    phase.offered g symbol = g.expansions symbol :=
  phase.offered_of_same (fun expansion listed =>
    Grammar.expansionCost_of_plain (flat.plain expansion listed) _)
    flat.expansions_ne_nil

end Phase

namespace Tracker

variable {t : Tracker} {symbol : Symbol}

/-- With one rule, coverage is complete when all its texts are tried. -/
theorem isComplete_iff_of_flat (flat : t.grammar.Flat symbol) :
    t.isComplete = true ↔ t.untried symbol = [] := by
  rw [isComplete_iff, untried_eq_nil_iff, List.eq_nil_iff_forall_not_mem]
  simp [mem_missing, Grammar.mem_maximumCoverage, flat.alone]

end Tracker

namespace Fuzzer

variable {γ : Type} {f f' after : Fuzzer γ}

/-- A fuzzer over a flat grammar, with a strategy that is after new keys. -/
structure Guided (f : Fuzzer γ) : Prop where
  flat : f.grammar.Flat f.config.start
  built : f.strategy.Built
  kind : f.strategy.kind = .immediate ∨ f.strategy.kind = .foresight

theorem Guided.continues (guided : f.Guided) (continues : Continues f after) : after.Guided where
  flat := by
    rw [continues.grammar, continues.config]
    exact guided.flat
  built := continues.built guided.built
  kind := continues.kind ▸ guided.kind

/-- Expanding the start symbol tries a text that was not tried, if there is one. -/
theorem Guided.tries (guided : f.Guided) {phase : Phase} {expansion : Expansion}
    (expands : f.Expands phase f.config.start expansion after)
    (left : f.tracker.untried f.config.start ≠ []) :
    expansion.text ∈ f.tracker.untried f.config.start := by
  obtain ⟨_, listed⟩ := List.exists_mem_of_ne_nil _ left
  obtain ⟨⟨other, inside, rfl⟩, uncovered⟩ := Tracker.mem_untried.mp listed
  refine Tracker.mem_untried.mpr ⟨⟨expansion, expands.member, rfl⟩, ?_⟩
  have prefers := expands.prefers guided.built
  rw [Phase.offered_of_flat guided.flat] at prefers
  -- A strategy that looks ahead finds nothing below an expansion, so it is after the own keys as
  -- well.
  rcases guided.kind with kind | kind <;> rw [kind] at prefers
  · exact (Strategy.prefers_immediate.mp prefers).2.resolve_right fun covered =>
      uncovered (covered other inside)
  · rcases prefers.gains guided.flat.valid (fun _ => id) ⟨other, inside, .inl uncovered⟩
      with fresh | ⟨reference, used, _⟩
    · exact fresh
    · rw [guided.flat.plain expansion expands.member] at used
      contradiction

variable [Chance γ]

/-- Phases that offer the same expand alike. -/
theorem expandSymbol_of_same {phase other : Phase} {symbol : Symbol}
    (same : phase.offered f.grammar symbol = other.offered f.grammar symbol) :
    f.expandSymbol phase symbol = f.expandSymbol other symbol := by
  have candidates := congrArg (List.map Expansion.toChildren) same
  rw [f.expandSymbol_eq phase symbol candidates, f.expandSymbol_eq other symbol rfl]

section Settled

variable {tree : Tree} (settled : tree.hasPending = false)
include settled

/-- Where one step ends the tree, a loop makes it if its limit allows for a pending node. -/
theorem expandWhile_of_step {phase : Phase}
    (stepped : f.expandOnce phase f.initialTree = (.ok tree, after))
    (limit : Option Nat) (budget : Nat) : expandWhile phase limit (budget + 1) f f.initialTree =
      if limit.all (1 < ·) then (.done tree, after) else (.done f.initialTree, f) := by
  have goes : (f.initialTree.hasPending && limit.all (f.initialTree.pendingCount < ·)) =
      limit.all (1 < ·) := rfl
  cases allowed : limit.all (1 < ·) with
  | false => exact (expandWhile_stop _ f (goes.trans allowed)).1
  | true =>
      rw [expandWhile, if_pos (goes.trans allowed)]
      simp only [stepped]
      exact expandWhile_settled settled phase limit budget after

/-- Whichever phase makes the step, the others have nothing to do. -/
theorem fuzzTree_of_step (stepped : ∀ phase, f.expandOnce phase f.initialTree = (.ok tree, after))
    (budget : Nat) :
    f.fuzzTree (budget + 1) = (.done tree, after) := by
  have loop (phase : Phase) := expandWhile_of_step settled (stepped phase)
  have stops (phase : Phase) (limit : Option Nat) :=
    expandWhile_settled settled phase limit (budget + 1) after
  refine expandTree_eq_done_iff.mpr ?_
  -- The step falls to the first phase whose limit is above one; the last phase has none.
  by_cases grows : 1 < f.config.minPending
  · exact ⟨tree, after, tree, after, by simp [loop, grows], stops _ _, stops _ _⟩
  · by_cases goes : 1 < f.config.maxPending
    · exact ⟨f.initialTree, f, tree, after, by simp [loop, grows], by simp [loop, goes], stops _ _⟩
    · exact ⟨f.initialTree, f, f.initialTree,
        f, by simp [loop, grows], by simp [loop, goes], by simp [loop]⟩

end Settled

/-- While coverage is incomplete, an input is a text that was not tried, and it is tried then. -/
theorem Guided.fuzz (guided : f.Guided) (left : f.tracker.untried f.config.start ≠ [])
    (budget : Nat) :
    ∃ input ∈ f.tracker.untried f.config.start, ∃ after,
      f.fuzz (budget + 1) = (.done input, after) ∧
      Continues f after ∧ after.tracker = f.tracker.cover (Key.ofText f.config.start input) := by
  have offered (phase : Phase) := Phase.offered_of_flat guided.flat phase
  have some : Phase.cheapest.offered f.grammar f.config.start ≠ [] := by
    rw [offered]
    exact guided.flat.expansions_ne_nil
  obtain ⟨expansion, after, expanded, expands⟩ := f.expandSymbol_cases .cheapest some
  have settled :=
    Expansion.hasPending_toTree (guided.flat.plain expansion expands.member) f.config.start
  have stepped (phase : Phase) : f.expandOnce phase f.initialTree =
      (.ok (expansion.toTree f.config.start), after) := by
    have same : phase.offered f.grammar f.config.start =
        Phase.cheapest.offered f.grammar f.config.start := by
      rw [offered, offered]
    rw [initialTree, expandOnce_pending, expandSymbol_of_same same, expanded]
    rfl
  refine ⟨expansion.text, guided.tries expands left, after, ?_, expands.continues, expands.tracker⟩
  simp only [Fuzzer.fuzz, fuzzTree_of_step settled stepped, expansion.text_toTree]

/-- A run that tries each text once completes coverage. -/
theorem exists_advances (budget count : Nat) : ∀ {f : Fuzzer γ}, f.Guided →
    (f.tracker.untried f.config.start).length = count →
    ∃ inputs after, Advances (budget + 1) f inputs after ∧
      inputs.Perm (f.tracker.untried f.config.start) ∧ after.tracker.isComplete = true := by
  -- By induction on how many texts are left: each input takes its own off the list, and no other.
  induction count with
  | zero =>
      intro f guided tried
      have none := List.length_eq_zero_iff.mp tried
      exact ⟨[], f, .stay f, none ▸ .refl [], (Tracker.isComplete_iff_of_flat guided.flat).mpr none⟩
  | succ count ih =>
      intro f guided left
      have some : f.tracker.untried f.config.start ≠ [] := List.ne_nil_of_length_eq_add_one left
      have incomplete : f.tracker.isComplete = false := by
        rwa [← Bool.not_eq_true, Tracker.isComplete_iff_of_flat guided.flat]
      obtain ⟨input, listed, middle, done, continues, covers⟩ := guided.fuzz some budget
      have shorter := Tracker.untried_perm_cover listed
      rw [← covers] at shorter
      rw [shorter.length_eq, List.length_cons, Nat.add_right_cancel_iff] at left
      obtain ⟨inputs, after, advances, order, complete⟩ :=
        ih (guided.continues continues) (continues.config ▸ left)
      rw [continues.config] at order
      exact ⟨input :: inputs, after, .next incomplete done advances,
        (order.cons input).trans shorter.symm, complete⟩

/-- Campaigns over flat grammars waste no input. From no coverage, a strategy that prefers uncovered
keys and one that looks ahead for them complete coverage with as many inputs as the rule has
different texts, each of them once, whatever the picks and the numbers of pending nodes asked for;
one step is enough for an input, and a limit of that many inputs for the campaign. -/
theorem flat_campaign_perm (guided : f.Guided) (fresh : f.tracker.covered = ∅) :
    f.Accepted ∧ ∀ budget limit, 0 < budget → (f.grammar.texts f.config.start).length ≤ limit →
      ∃ campaign after, f.untilCovered budget limit = (.done campaign, after) ∧
        campaign.complete = true ∧
        campaign.generations = (f.grammar.texts f.config.start).length ∧
        campaign.inputs.toList.Perm (f.grammar.texts f.config.start) := by
  refine ⟨accepted_iff.mpr ⟨guided.flat.member, guided.flat.unproductive?_eq_none⟩,
    fun budget limit positive room => ?_⟩
  obtain ⟨budget, rfl⟩ := Nat.exists_eq_add_one.mpr positive
  obtain ⟨inputs, after, advances, order, complete⟩ := exists_advances budget _ guided rfl
  rw [Tracker.untried_of_empty fresh] at order
  have ended :=
    untilCovered_eq_done_iff.mpr ⟨inputs, advances, order.length_eq.trans_le room,
      fun _ => complete, rfl⟩
  exact ⟨_, after, ended, complete, order.length_eq, order⟩

/-- Texts with brackets that are no references, one that is listed twice, and an empty one. -/
def scraps : Grammar := ⟨Rules.ofList [("<start>", ["", "<", "a>", "<", "< b>"])]⟩

def scrapsFuzzer : Fuzzer Script where
  config := { minPending := 2, maxPending := 3 }
  strategy := .new .foresight scraps
  source := .ofWords [3, 18446744073709551615, 9223372036854775809]

theorem scrapsFuzzer_campaign : scrapsFuzzer.Guided ∧ scrapsFuzzer.tracker.covered = ∅ ∧
    scraps.texts "<start>" = ["", "a>", "<", "< b>"] ∧
    ∃ campaign after, scrapsFuzzer.untilCovered 1 4 = (.done campaign, after) ∧
      campaign.complete = true ∧
      campaign.generations = 4 ∧ campaign.inputs.toList.Perm ["", "a>", "<", "< b>"] := by
  have flat : scraps.Flat "<start>" := ⟨by decide +kernel, by decide +kernel, by decide +kernel⟩
  have guided : scrapsFuzzer.Guided := ⟨flat, .start .foresight _, .inr rfl⟩
  have texts : scraps.texts "<start>" = ["", "a>", "<", "< b>"] := by decide +kernel
  obtain ⟨_, exact⟩ := flat_campaign_perm guided rfl
  refine ⟨guided, rfl, texts, ?_⟩
  obtain ⟨campaign, after, ended, complete, count, order⟩ :=
    exact 1 4 (by decide) (by decide +kernel)
  exact ⟨campaign, after, ended, complete, count.trans (congrArg List.length texts), texts ▸ order⟩

end Fuzzer
end GrammarFuzz
