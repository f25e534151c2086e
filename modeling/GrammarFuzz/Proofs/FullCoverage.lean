import GrammarFuzz.Proofs.Reset
import GrammarFuzz.Random.Script

/-! At full coverage the strategies are indistinguishable. Every key at or below a candidate is
covered, so the one that prefers uncovered keys and the one that looks ahead for them find
none, and all three choose among all candidates; and choosing leaves coverage as it is. -/
namespace GrammarFuzz

namespace Tracker

variable {t : Tracker} {symbol : Symbol} {expansion : Expansion}

theorem mem_covered_of_isComplete (complete : t.isComplete = true) {key : Key}
    (known : key ∈ t.grammar.maximumCoverage) : key ∈ t.covered := by
  by_contra uncovered
  have listed : key ∈ t.missing := mem_missing.mpr ⟨known, uncovered⟩
  rw [isComplete_iff.mp complete] at listed
  exact List.not_mem_nil listed

theorem mem_covered_of_expansion (complete : t.isComplete = true)
    (member : expansion ∈ t.grammar.expansions symbol) :
    Key.ofText symbol expansion.text ∈ t.covered :=
  mem_covered_of_isComplete complete (Grammar.mem_maximumCoverage.mpr
    ⟨symbol, Grammar.mem_symbols_of_expansion member,
      Grammar.mem_keysOf.mpr ⟨expansion, member, rfl⟩⟩)

/-- Complete trackers of one grammar are equal. -/
theorem eq_of_isComplete {t' : Tracker} (same : t'.grammar = t.grammar)
    (complete : t.isComplete = true) (complete' : t'.isComplete = true) : t' = t := by
  refine ext_covered same fun key => ⟨fun covered => ?_, fun covered => ?_⟩
  · refine mem_covered_of_isComplete complete ?_
    rw [← same, ← t'.maximum_eq]
    exact t'.covered_subset key covered
  · refine mem_covered_of_isComplete complete' ?_
    rw [same, ← t.maximum_eq]
    exact t.covered_subset key covered

/-- Where all is covered nothing is to be gained. -/
theorem not_gains (complete : t.isComplete = true)
    (member : expansion ∈ t.grammar.expansions symbol) :
    ¬t.Gains symbol expansion := by
  rintro (fresh | ⟨reference, _, below, _, key, own, fresh⟩)
  · exact fresh (mem_covered_of_expansion complete member)
  · obtain ⟨found, listed, rfl⟩ := Grammar.mem_keysOf.mp own
    exact fresh (mem_covered_of_expansion complete listed)

end Tracker

namespace Strategy

variable {kind kind' : StrategyKind} {g : Grammar} {s s' : Strategy} {symbol : Symbol}
  {expansions : List Expansion}

/-- All three kinds of strategies choose among all candidates. -/
theorem positions_of_isComplete (sound : Sound kind g s) (valid : g.Valid)
    (complete : s.tracker.isComplete = true)
    (listed : ∀ expansion ∈ expansions, expansion ∈ g.expansions symbol) :
    s.positions symbol (expansions.map Expansion.toChildren) = List.finRange _ := by
  have grammar : s.tracker.grammar = g := sound.grammar
  subst grammar
  rw [sound.preferred.1]
  cases kind with
  | tracking => rfl
  | immediate =>
      refine orAll_of_none fun position => ?_
      have inside : position.val < expansions.length := by simpa using position.isLt
      have covered := Tracker.mem_covered_of_expansion complete (listed _ (List.getElem_mem inside))
      rw [Fin.getElem_fin, List.getElem_map, Expansion.ofChildren_toChildren, Bool.not_eq_false']
      exact Std.ExtTreeSet.contains_iff_mem.mpr covered
  | foresight =>
      exact choices_foresight_of_none valid listed fun other inside =>
        Tracker.not_gains complete (listed other inside)

/-- Strategies of any two kinds with all of one grammar covered. -/
structure Saturated (kind kind' : StrategyKind) (g : Grammar) (s s' : Strategy) : Prop where
  first : Sound kind g s
  second : Sound kind' g s'
  complete : s.tracker.isComplete = true
  complete' : s'.tracker.isComplete = true

theorem Saturated.tracker (saturated : Saturated kind kind' g s s') : s'.tracker = s.tracker :=
  Tracker.eq_of_isComplete (saturated.second.grammar.trans saturated.first.grammar.symm)
    saturated.complete saturated.complete'

/-- A choice among expansions of the grammar finds their keys covered. -/
theorem tracker_chose (sound : Sound kind g s) (complete : s.tracker.isComplete = true)
    (listed : ∀ expansion ∈ expansions, expansion ∈ g.expansions symbol)
    (position : Fin (expansions.map Expansion.toChildren).length) :
    (s.chose symbol (expansions.map Expansion.toChildren) position).tracker = s.tracker := by
  have inside : position.val < expansions.length := by simpa using position.isLt
  have grammar : s.tracker.grammar = g := sound.grammar
  have covered := Tracker.mem_covered_of_expansion complete
    (grammar.symm ▸ listed _ (List.getElem_mem inside))
  simp only [chose, List.get_eq_getElem, List.getElem_map, Expansion.ofChildren_toChildren]
  exact Tracker.cover_of_mem covered

theorem lockstep_saturated (kind kind' : StrategyKind) {g : Grammar} (valid : g.Valid) :
    Lockstep (Saturated kind kind' g) where
  tracker saturated := saturated.tracker
  positions saturated listed := by
    obtain ⟨first, second, complete, complete'⟩ := saturated
    rw [first.grammar] at listed
    rw [positions_of_isComplete first valid complete listed,
      positions_of_isComplete second valid complete' listed]
  chose saturated listed position := by
    obtain ⟨first, second, complete, complete'⟩ := saturated
    rw [first.grammar] at listed
    refine ⟨first.chose position, second.chose position, ?_, ?_⟩
    · rwa [tracker_chose first complete listed]
    · rwa [tracker_chose second complete' listed]

end Strategy

namespace Fuzzer

variable {γ : Type} [Chance γ] {kind kind' : StrategyKind} {g : Grammar}

theorem fuzzTrees_agree (valid : g.Valid) (budgets : List Nat) : ∀ {f f' : Fuzzer γ},
    Paired (Strategy.Saturated kind kind' g) f f' →
      f'.observe (budgets.map .fuzzTree) = f.observe (budgets.map .fuzzTree) ∧
        ∀ seen ∈ f.observe (budgets.map .fuzzTree), seen.tracker.isComplete = true := by
  have lockstep := Strategy.lockstep_saturated kind kind' valid
  induction budgets with
  | nil => exact fun _ => ⟨rfl, fun seen listed => nomatch listed⟩
  | cons budget rest ih =>
      intro f f' paired
      have matched : Matches _ (f.perform (.fuzzTree budget)) (f'.perform (.fuzzTree budget)) :=
        (fuzzTree_matches lockstep paired budget).map Answer.tree
      obtain ⟨same, stays⟩ := ih matched.2
      refine ⟨observe_cons_eq lockstep matched same, fun seen listed => ?_⟩
      rcases List.mem_cons.mp listed with rfl | later
      · exact matched.2.strategy.complete
      · exact stays seen later

/-- A fuzzer of this kind over this grammar, after whatever calls. -/
def Arises (kind : StrategyKind) (g : Grammar) (f : Fuzzer γ) : Prop :=
  ∃ t config source history, t.grammar = g ∧ f = run ⟨config, .withTracker kind t, source⟩ history

theorem Arises.sound {f : Fuzzer γ} (arises : f.Arises kind g) : f.strategy.Sound kind g := by
  obtain ⟨t, config, source, history, rfl, rfl⟩ := arises
  exact sound_run kind t config source history

/-- At full coverage the kinds are indistinguishable. Two fuzzers of any kinds and histories that
have covered all of a grammar and go on from the same choices with the same settings derive the
same trees, draw the same choices and stay complete, as often as they are called. -/
theorem indistinguishable_of_isComplete (valid : g.Valid) {f f' : Fuzzer γ}
    (arises : f.Arises kind g)
    (arises' : f'.Arises kind' g) (complete : f.tracker.isComplete = true)
    (complete' : f'.tracker.isComplete = true) (config : f'.config = f.config)
    (source : f'.source = f.source) (budgets : List Nat) :
    f'.observe (budgets.map .fuzzTree) = f.observe (budgets.map .fuzzTree) ∧
      ∀ seen ∈ f.observe (budgets.map .fuzzTree), seen.tracker.isComplete = true :=
  fuzzTrees_agree valid budgets ⟨config, source, arises.sound, arises'.sound, complete, complete'⟩

def signed : Grammar := ⟨Rules.ofList [("<start>", ["<sign><start>", ""]), ("<sign>", ["+", "-"])]⟩

/-- A fuzzer that covers by deriving trees. -/
def signedExplorer : Fuzzer Script :=
  run ⟨{ minPending := 1, maxPending := 3 }, .new .foresight signed,
    .ofWords [3, 9223372036854775809]⟩
    [.campaign 20 10, .fuzzTree 20]

/-- A fuzzer that is told what is covered. -/
def signedRecorder (config : Config) (source : Script) : Fuzzer Script :=
  run ⟨config, .new .tracking signed, source⟩
    [.record (Key.ofText "<sign>" "+"),
      .recordTree (.node "<start>" [.node "<sign>" [.leaf "-"], .node "<start>" [.leaf ""]])]

theorem signed_indistinguishable : signed.Valid ∧
    let f := signedExplorer
    let f' := signedRecorder f.config f.source
    f.Arises .foresight signed ∧ f'.Arises .tracking signed ∧
      f.tracker.isComplete = true ∧ f'.tracker.isComplete = true ∧
      ∀ budgets : List Nat, f'.observe (budgets.map .fuzzTree) = f.observe (budgets.map .fuzzTree) ∧
        ∀ seen ∈ f.observe (budgets.map .fuzzTree), seen.tracker.isComplete = true := by
  have valid : signed.Valid := by decide +kernel
  have explorer : signedExplorer.Arises .foresight signed := ⟨.new signed, _, _, _, rfl, rfl⟩
  have recorder (config source) : (signedRecorder config source).Arises .tracking signed :=
    ⟨.new signed, _, _, _, rfl, rfl⟩
  have kept (config source) : (signedRecorder config source).config = config ∧
      (signedRecorder config source).source = source := ⟨rfl, rfl⟩
  have explored : signedExplorer.tracker.isComplete = true := by decide +kernel
  have recorded : (signedRecorder signedExplorer.config signedExplorer.source).tracker.isComplete =
      true := by
    decide +kernel
  refine ⟨valid, explorer, recorder _ _, explored, recorded, ?_⟩
  exact indistinguishable_of_isComplete valid explorer (recorder _ _) explored recorded
    (kept _ _).1 (kept _ _).2

end Fuzzer
end GrammarFuzz
