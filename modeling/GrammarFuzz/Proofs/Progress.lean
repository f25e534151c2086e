import GrammarFuzz.Proofs.Campaigns

/-! Foresight makes progress. While it expands at random, either a new key has been recorded
or some pending node still leads to an uncovered key; so a tree without pending nodes has
recorded one. A campaign of such generations is complete when the missing keys are used up. -/
namespace GrammarFuzz.Fuzzer

variable {γ : Type} [Chance γ]

/-- Some key has been recorded since, or a pending node leads to a key that could be. -/
def Hopeful (origin f : Fuzzer γ) (tree : Tree) : Prop :=
  (∃ key ∈ f.tracker.covered, key ∉ origin.tracker.covered) ∨
    ∃ symbol ∈ tree.pendingSymbols, f.tracker.Leads symbol

omit [Chance γ] in
/-- A chosen gain whose own key is covered leaves a reference that leads on. -/
theorem Hopeful.step {origin f f' : Fuzzer γ} {tree after : Tree} {symbol : Symbol}
    {expansion : Expansion}
    (valid : f.grammar.Valid) (continues : Continues origin f) (built : f.strategy.Built)
    (kind : f.strategy.kind = .foresight) (hopeful : Hopeful origin f tree)
    (expands : f.Expands .anything symbol expansion f')
    (replaces : Tree.Replaces symbol (expansion.toTree symbol) tree after) :
    Hopeful origin f' after := by
  rcases hopeful with ⟨key, recorded, fresh⟩ | ⟨leader, pending, leads⟩
  · exact .inl ⟨key, expands.continues.covered key recorded, fresh⟩
  · by_cases own : Key.ofText symbol expansion.text ∈ f.tracker.covered
    · have unchanged : ∀ key ∈ f'.tracker.covered, key ∈ f.tracker.covered := by
        intro key recorded
        rw [expands.tracker, Tracker.mem_covered_cover_of_expansion expands.member] at recorded
        rcases recorded with before | rfl
        · exact before
        · exact own
      have keeps {other : Symbol} (leads : f.tracker.Leads other) : f'.tracker.Leads other :=
        leads.of_covered expands.continues.grammar unchanged
      rcases replaces.mem_of_before pending with rfl | still
      · have prefers := expands.prefers built
        rw [kind] at prefers
        have gains := prefers.gains valid (fun _ => id) (Tracker.leads_iff.mp leads)
        obtain ⟨reference, used, leads⟩ := gains.resolve_left (not_not_intro own)
        rw [← expansion.pendingSymbols_toTree] at used
        exact .inr ⟨reference, replaces.mem_of_subtree used, keeps leads⟩
      · exact .inr ⟨leader, still, keeps leads⟩
    · refine .inl ⟨Key.ofText symbol expansion.text, ?_,
        fun before => own (continues.covered _ before)⟩
      rw [expands.tracker]
      exact (Tracker.mem_covered_cover_of_expansion expands.member).mpr (.inr rfl)

/-- The number of pending nodes never reaches the limit. -/
def StaysBelow (f : Fuzzer γ) (budget : Nat) : Prop :=
  ∀ passed ∈ f.treesPassed budget, passed.pendingCount < f.config.maxPending

/-- A fuzzer that chooses by foresight, from a start symbol that leads to every key, and does
not insist on a number of pending nodes. -/
structure Foresees (f : Fuzzer γ) : Prop where
  valid : f.grammar.Valid
  accepted : f.Accepted
  built : f.strategy.Built
  kind : f.strategy.kind = .foresight
  reachable : ∀ key ∈ f.grammar.maximumCoverage, ∃ symbol,
    f.grammar.Reaches f.config.start symbol ∧ key ∈ f.grammar.keysOf symbol
  few : f.config.minPending ≤ 1

omit [Chance γ] in
theorem Foresees.continues {f f' : Fuzzer γ} (foresees : f.Foresees) (continues : Continues f f') :
    f'.Foresees where
  valid := continues.grammar ▸ foresees.valid
  accepted := foresees.accepted.continues continues
  built := continues.built foresees.built
  kind := continues.kind.trans foresees.kind
  reachable := by
    rw [continues.grammar, continues.config]
    exact foresees.reachable
  few := continues.config ▸ foresees.few

omit [Chance γ] in
/-- While coverage is incomplete, the start symbol leads to a missing key. -/
theorem Foresees.hopeful {f : Fuzzer γ} (foresees : f.Foresees)
    (incomplete : f.tracker.isComplete = false) :
    Hopeful f f f.initialTree := by
  have missed : f.tracker.missing ≠ [] := by
    intro empty
    rw [Tracker.isComplete_iff.mpr empty] at incomplete
    contradiction
  obtain ⟨key, listed⟩ := List.exists_mem_of_ne_nil _ missed
  obtain ⟨known, uncovered⟩ := Tracker.mem_missing.mp listed
  obtain ⟨symbol, reaches, own⟩ := foresees.reachable key known
  exact .inr ⟨f.config.start, List.mem_singleton_self _, symbol, reaches, key, own, uncovered⟩

/-- The phase of random choices. -/
theorem expandWhile_hopeful {f : Fuzzer γ} (foresees : f.Foresees) (budget : Nat)
    (start : Hopeful f f f.initialTree) :
    (∃ g, expandWhile .anything (some f.config.maxPending) budget f f.initialTree =
      (.unfinished, g)) ∨
      ∃ after g, expandWhile .anything (some f.config.maxPending) budget f f.initialTree =
        (.done after, g) ∧
        Hopeful f g after ∧
        after ∈ treesWhile .anything (some f.config.maxPending) budget f f.initialTree ∧
        (after.hasPending && (some f.config.maxPending).all (after.pendingCount < ·)) = false := by
  have step : ∀ g tree, Derives f g tree ∧ Hopeful f g tree → tree.hasPending = true →
      (some f.config.maxPending).all (tree.pendingCount < ·) = true →
      ∃ after g', g.expandOnce .anything tree = (.ok after, g') ∧ Derives f g' after ∧
        Hopeful f g' after := by
    rintro g tree ⟨derives, hopeful⟩ pending _
    obtain ⟨symbol, expansion, after, g', stepped, expands, replaces, kept⟩ :=
      derives.step foresees.valid .anything pending
    have now := foresees.continues derives.continues
    refine ⟨after, g', stepped, kept, ?_⟩
    exact hopeful.step now.valid derives.continues now.built now.kind expands replaces
  rcases (expandWhile_invariant step budget f f.initialTree
    ⟨.start foresees.accepted, start⟩).2 with
    unfinished | ⟨after, g, done, ⟨_, hopeful⟩, passed, ended⟩
  · exact .inl unfinished
  · exact .inr ⟨after, g, done, hopeful, passed, ended⟩

theorem fuzzTree_gains {f f' : Fuzzer γ} (foresees : f.Foresees)
    (incomplete : f.tracker.isComplete = false)
    {budget : Nat} (below : f.StaysBelow budget) {tree : Tree}
    (done : f.fuzzTree budget = (.done tree, f')) :
    ∃ key ∈ f'.tracker.covered, key ∉ f.tracker.covered := by
  have first : expandWhile .costliest (some f.config.minPending) budget f f.initialTree =
      (.done f.initialTree, f) := by
    refine (expandWhile_stop budget f ?_).1
    simpa [initialTree, Tree.pendingCount] using fun _ => foresees.few
  simp only [fuzzTree, expandTree, first] at done
  simp only [StaysBelow, treesPassed, first] at below
  rcases expandWhile_hopeful foresees budget (foresees.hopeful incomplete) with
    ⟨g, unfinished⟩ | ⟨after, g, second, hopeful, passed, ended⟩
  · rw [unfinished] at done
    cases done
  · have room : after.pendingCount < f.config.maxPending := by
      apply below after
      simp only [List.mem_append]
      exact .inr (.inl passed)
    have settled : after.hasPending = false := by simpa [room] using ended
    have third := expandWhile_settled settled .cheapest none budget g
    simp only [second, third, Prod.mk.injEq, Outcome.done.injEq] at done
    obtain ⟨rfl, rfl⟩ := done
    apply hopeful.resolve_right
    rintro ⟨symbol, pending, _⟩
    exact Tree.not_mem_pendingSymbols settled symbol pending

/-- The fuzzers with which the generations of a campaign start. -/
def generationStarts (budget : Nat) : Nat → Fuzzer γ → List (Fuzzer γ)
  | generations, f =>
      if f.tracker.isComplete then []
      else
        match generations with
        | 0 => []
        | generations + 1 =>
            f :: match f.fuzz budget with
              | (.done _, after) => generationStarts budget generations after
              | _ => []

/-- The generation returns, and passes no tree with as many pending nodes as the limit. -/
def Settles (f : Fuzzer γ) (budget : Nat) : Prop :=
  (∃ tree f', f.fuzzTree budget = (.done tree, f')) ∧ f.StaysBelow budget

instance (f : Fuzzer γ) (budget : Nat) : Decidable (f.StaysBelow budget) :=
  inferInstanceAs (Decidable (∀ passed ∈ f.treesPassed budget,
    passed.pendingCount < f.config.maxPending))

instance (f : Fuzzer γ) (budget : Nat) :
    Decidable (∃ tree f', f.fuzzTree budget = (.done tree, f')) :=
  match f.fuzzTree budget with
  | (.done tree, f') => isTrue ⟨tree, f', rfl⟩
  | (.failed _, _) => isFalse fun ⟨_, _, same⟩ => by cases same
  | (.unfinished, _) => isFalse fun ⟨_, _, same⟩ => by cases same

instance (f : Fuzzer γ) (budget : Nat) : Decidable (f.Settles budget) :=
  inferInstanceAs (Decidable (_ ∧ _))

theorem mem_generationStarts_self {f : Fuzzer γ} (incomplete : f.tracker.isComplete = false)
    (budget generations : Nat) : f ∈ generationStarts budget (generations + 1) f := by
  rw [generationStarts, if_neg (by simp [incomplete])]
  exact List.mem_cons_self

theorem mem_generationStarts_of_fuzz {f middle start : Fuzzer γ} {budget generations : Nat}
    {input : String} (incomplete : f.tracker.isComplete = false)
    (done : f.fuzz budget = (.done input, middle))
    (later : start ∈ generationStarts budget generations middle) :
    start ∈ generationStarts budget (generations + 1) f := by
  rw [generationStarts, if_neg (by simp [incomplete])]
  simp only [done]
  exact List.mem_cons_of_mem f later

namespace Advances

variable {budget : Nat} {f after : Fuzzer γ} {inputs : List String}

/-- A fuzzer whose coverage is incomplete starts a generation, if the limit allows for one. -/
theorem mem_generationStarts (advances : Advances budget f inputs after)
    (incomplete : after.tracker.isComplete = false) : ∀ {generations}, inputs.length < generations →
    after ∈ generationStarts budget generations f := by
  induction advances with
  | stay f =>
      intro generations room
      obtain ⟨generations, rfl⟩ := Nat.exists_eq_add_one.mpr room
      exact mem_generationStarts_self incomplete budget generations
  | next started done _ ih =>
      intro generations room
      obtain ⟨generations, rfl⟩ := Nat.exists_eq_add_one.mpr (Nat.zero_lt_of_lt room)
      exact mem_generationStarts_of_fuzz started done
        (ih incomplete (Nat.lt_of_succ_lt_succ room))

/-- Each generation records a missing key, so the missing keys bound the generations. -/
theorem length_add_missing_le (advances : Advances budget f inputs after) (foresees : f.Foresees) :
    ∀ {generations}, inputs.length ≤ generations →
      (∀ start ∈ generationStarts budget generations f, start.Settles budget) →
      inputs.length + after.tracker.missing.length ≤ f.tracker.missing.length := by
  induction advances with
  | stay f => exact fun _ _ => (Nat.zero_add _).le
  | @next f middle after input inputs incomplete done _ ih =>
      intro generations room settles
      obtain ⟨generations, rfl⟩ := Nat.exists_eq_add_one.mpr (Nat.zero_lt_of_lt room)
      obtain ⟨tree, derived, _⟩ := fuzz_eq_done_iff.mp done
      obtain ⟨_, below⟩ := settles f (mem_generationStarts_self incomplete budget generations)
      have continues := (fuzz_done done).1
      have fewer : middle.tracker.missing.length < f.tracker.missing.length :=
        Tracker.missing_length_lt continues.grammar continues.covered
          (fuzzTree_gains foresees incomplete below derived)
      have rest := ih (foresees.continues continues) (Nat.le_of_succ_le_succ room)
        fun start later => settles start (mem_generationStarts_of_fuzz incomplete done later)
      rw [List.length_cons]
      omega

end Advances

/-- Where every generation settles and the limit is at least the number of the missing keys, a
campaign comes to completion. -/
theorem exists_complete_campaign {f : Fuzzer γ} (foresees : f.Foresees) {budget generations : Nat}
    (enough : f.tracker.missing.length ≤ generations)
    (settles : ∀ start ∈ generationStarts budget generations f, start.Settles budget) :
    ∃ inputs after, Advances budget f inputs after ∧ inputs.length ≤ f.tracker.missing.length ∧
      after.tracker.isComplete = true := by
  have returns (inputs : List String) (start : Fuzzer γ) (advances : Advances budget f inputs start)
      (room : inputs.length < generations) (incomplete : start.tracker.isComplete = false) :
      ∃ input next, start.fuzz budget = (.done input, next) := by
    obtain ⟨⟨tree, next, done⟩, _⟩ := settles start (advances.mem_generationStarts incomplete room)
    exact ⟨tree.text, next, fuzz_eq_done_iff.mpr ⟨tree, done, rfl⟩⟩
  obtain ⟨inputs, after, advances, bound, ended⟩ := exists_advances_of_returns generations returns
  have fewer := advances.length_add_missing_le foresees bound settles
  refine ⟨inputs, after, advances, by omega, ?_⟩
  by_cases room : inputs.length < generations
  · exact ended room
  · exact Tracker.isComplete_iff.mpr (List.length_eq_zero_iff.mp (by omega))

/-- Foresight makes progress in every generation that stays below the limit. A campaign of such
generations is complete after as many inputs as keys were missing, at most: its inputs are the
texts of the trees that were derived, and each key that was not covered at first is used in one of
these trees and covered in the end. -/
theorem foresight_progress {f : Fuzzer γ} (foresees : f.Foresees) (budget : Nat) :
    (f.tracker.isComplete = false → f.StaysBelow budget →
      ∀ tree f', f.fuzzTree budget = (.done tree, f') →
        ∃ key ∈ f'.tracker.covered, key ∉ f.tracker.covered) ∧
    ∀ generations, f.tracker.missing.length ≤ generations →
      (∀ start ∈ generationStarts budget generations f, start.Settles budget) →
      ∃ campaign f', f.untilCovered budget generations = (.done campaign, f') ∧
        campaign.complete = true ∧ campaign.generations ≤ f.tracker.missing.length ∧
        f'.tracker.isComplete = true ∧
        Advances budget f campaign.inputs.toList f' ∧
        ∃ trees, Generates f trees f' ∧ trees.map Tree.text = campaign.inputs.toList ∧
          ∀ key ∈ f.grammar.maximumCoverage, key ∈ f'.tracker.covered ∧
            (key ∉ f.tracker.covered → ∃ tree ∈ trees, tree.Uses key) := by
  refine ⟨fun incomplete below tree f' done => fuzzTree_gains foresees incomplete below done, ?_⟩
  intro generations enough settles
  obtain ⟨inputs, f', advances, bound, complete⟩ :=
    exists_complete_campaign foresees enough settles
  obtain ⟨trees, generates, spelled⟩ := advances.exists_generates
  refine ⟨.ofInputs inputs f'.tracker.isComplete, f', untilCovered_eq_done_iff.mpr ?_, complete,
    bound, complete, advances, trees, generates, spelled, fun key known => ?_⟩
  · exact ⟨inputs, advances, bound.trans enough, fun _ => complete, rfl⟩
  · have same : f'.tracker.grammar = f.grammar := advances.continues.grammar
    have covered := Tracker.isComplete_iff_covered.mp complete key (same ▸ known)
    refine ⟨covered, fun fresh => ?_⟩
    exact ((generates.covered foresees.valid foresees.accepted key).mp covered).resolve_left fresh

/-- Ternary numbers, of which a single digit is covered. -/
def ternary : Grammar :=
  ⟨Rules.ofList [("<start>", ["<digit><start>", "<digit>"]), ("<digit>", ["0", "1", "2"])]⟩

def ternaryFuzzer : Fuzzer Script where
  config := { minPending := 1, maxPending := 4 }
  strategy := .withTracker .foresight ((Tracker.new ternary).cover (Key.ofText "<start>" "<digit>"))
  source := .ofWords [9223372036854775809, 9223372036854775809, 3]

theorem ternaryFuzzer_foresees : ternaryFuzzer.Foresees := by
  have valid : ternary.Valid := by decide +kernel
  have accepted : ternaryFuzzer.Accepted := accepted_iff.mpr (by decide +kernel)
  have walked : ternary.maximumCoverage.toList.all
      (ternary.keysWithin (some ternary.size) "<start>").contains = true := by decide +kernel
  refine ⟨valid, accepted, .start .foresight _, rfl, fun key known => ?_, Nat.le_refl 1⟩
  have listed := List.all_eq_true.mp walked key (Std.ExtTreeSet.mem_toList.mpr known)
  have member := (accepted_iff.mp accepted).1
  exact (Grammar.mem_keysWithin_of_reaches valid member (Nat.le_refl _)).mp
    (Std.ExtTreeSet.contains_iff_mem.mp listed)

theorem ternaryFuzzer_untilCovered : ternaryFuzzer.Foresees ∧
    ternaryFuzzer.tracker.missing.length = 4 ∧ ternaryFuzzer.StaysBelow 20 ∧
    (∃ tree f', ternaryFuzzer.fuzzTree 20 = (.done tree, f') ∧
      ∃ key ∈ f'.tracker.covered, key ∉ ternaryFuzzer.tracker.covered) ∧
    ∃ f' trees, ternaryFuzzer.untilCovered 20 4 = (.done ⟨#["12", "0"], 3, true⟩, f') ∧
      f'.tracker.isComplete = true ∧ Advances 20 ternaryFuzzer ["12", "0"] f' ∧
      Generates ternaryFuzzer trees f' ∧ trees.map Tree.text = ["12", "0"] ∧
      ∀ key ∈ ternary.maximumCoverage, key ∈ f'.tracker.covered ∧
        (key ∉ ternaryFuzzer.tracker.covered → ∃ tree ∈ trees, tree.Uses key) := by
  have missing : ternaryFuzzer.tracker.missing.length = 4 := by decide +kernel
  have incomplete : ternaryFuzzer.tracker.isComplete = false := by decide +kernel
  have settles : ∀ start ∈ generationStarts 20 4 ternaryFuzzer, start.Settles 20 := by
    decide +kernel
  have derived : (ternaryFuzzer.untilCovered 20 4).1 = .done ⟨#["12", "0"], 3, true⟩ := by
    decide +kernel
  obtain ⟨gains, completes⟩ := foresight_progress ternaryFuzzer_foresees 20
  obtain ⟨⟨tree, next, first⟩, below⟩ :=
    settles ternaryFuzzer (mem_generationStarts_self incomplete 20 3)
  obtain ⟨campaign, f', done, _, _, complete, advances, trees, generates, spelled, covers⟩ :=
    completes 4 missing.le settles
  rw [done] at derived
  obtain rfl := Outcome.done.inj derived
  exact ⟨ternaryFuzzer_foresees, missing, below,
    ⟨tree, next, first, gains incomplete below _ _ first⟩, f', trees, done, complete, advances,
    generates, spelled, covers⟩

end GrammarFuzz.Fuzzer
