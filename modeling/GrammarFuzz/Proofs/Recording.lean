import GrammarFuzz.Proofs.Coverage
import GrammarFuzz.Proofs.Generation
import GrammarFuzz.Proofs.Uses

/-! Coverage is honest: what a generation records while it chooses is what can be read off the
tree it returns. The invariant of the construction compares the coverage with the keys used in
the tree so far, of which each step adds one to both. -/
namespace GrammarFuzz.Fuzzer

variable {γ : Type} [Chance γ]

/-- The covered keys are those covered at first and those used in the tree. -/
structure Recorded (origin f : Fuzzer γ) (tree : Tree) : Prop extends Derives origin f tree where
  covered (key : Key) : key ∈ f.tracker.covered ↔ key ∈ origin.tracker.covered ∨ key ∈ tree.usedKeys

section Recorded

variable {origin : Fuzzer γ} (valid : origin.grammar.Valid)
include valid

theorem Recorded.step {f : Fuzzer γ} {tree : Tree} (recorded : Recorded origin f tree)
    (phase : Phase) (pending : tree.hasPending = true) : ∃ after f',
      f.expandOnce phase tree = (.ok after, f') ∧ Recorded origin f' after := by
  obtain ⟨symbol, expansion, after, f', stepped, expands, replaces, derives⟩ :=
    recorded.toDerives.step valid phase pending
  refine ⟨after, f', stepped, derives, fun key => ?_⟩
  rw [expands.tracker, Tracker.mem_covered_cover_of_expansion expands.member, recorded.covered,
    replaces.mem_usedKeys valid recorded.conforms, or_assoc]

omit valid [Chance γ] in
theorem Recorded.start (accepted : origin.Accepted) : Recorded origin origin origin.initialTree :=
  ⟨.start accepted, fun key => by simp [initialTree, Tree.usedKeys]⟩

/-- A call does not fail: it goes on beyond its budget or returns a tree that shows what was
recorded. -/
theorem fuzzTree_recorded (accepted : origin.Accepted) (budget : Nat) :
    (∃ f, origin.fuzzTree budget = (.unfinished, f)) ∨
      ∃ tree f, origin.fuzzTree budget = (.done tree, f) ∧ Recorded origin f tree := by
  have step : ∀ (phase : Phase) f tree, Recorded origin f tree → tree.hasPending = true →
      ∃ after f', f.expandOnce phase tree = (.ok after, f') ∧ Recorded origin f' after :=
    fun phase f tree recorded pending => recorded.step valid phase pending
  rcases (fuzzTree_invariant step (.start accepted) budget).2 with
    unfinished | ⟨tree, f, done, recorded, _⟩
  · exact .inl unfinished
  · exact .inr ⟨tree, f, done, recorded⟩

end Recorded

/-- Calls made one after the other, each within some budget, and the trees they return. -/
inductive Generates : Fuzzer γ → List Tree → Fuzzer γ → Prop
  | none (f : Fuzzer γ) : Generates f [] f
  | next {f middle after : Fuzzer γ} {budget : Nat} {tree : Tree} {trees : List Tree}
      (done : f.fuzzTree budget = (.done tree, middle)) :
      Generates middle trees after → Generates f (tree :: trees) after

theorem Generates.covered {f after : Fuzzer γ} {trees : List Tree}
    (generates : Generates f trees after)
    (valid : f.grammar.Valid) (accepted : f.Accepted) (key : Key) :
    key ∈ after.tracker.covered ↔ key ∈ f.tracker.covered ∨ ∃ tree ∈ trees, tree.Uses key := by
  induction generates with
  | none => simp
  | @next f middle after budget tree trees done _ ih =>
      rcases fuzzTree_recorded valid accepted budget with ⟨_, unfinished⟩ | ⟨_, _, same, recorded⟩
      · rw [unfinished] at done
        cases done
      · cases same.symm.trans done
        have continues := recorded.continues
        rw [ih (continues.grammar ▸ valid) (accepted.continues continues), recorded.covered,
          recorded.conforms.mem_usedKeys, or_assoc, List.exists_mem_cons_iff]

omit [Chance γ] in
/-- The recorded keys belong to the grammar, so recording the tree ignores none of them. -/
theorem Recorded.tracker_eq {origin f : Fuzzer γ} {tree : Tree}
    (recorded : Recorded origin f tree) :
    f.tracker = (origin.tracker.recordTree tree).2 := by
  have same : f.tracker.grammar = origin.tracker.grammar := recorded.continues.grammar
  rw [Tracker.recordTree_snd]
  refine Tracker.ext_covered (by rw [Tracker.grammar_foldl_cover, same]) fun key => ?_
  have known : key ∈ tree.usedKeys → key ∈ origin.grammar.maximumCoverage := by
    intro used
    have inside := f.tracker.covered_subset key ((recorded.covered key).mpr (.inr used))
    rwa [f.tracker.maximum_eq, same] at inside
  rw [Tracker.mem_covered_foldl_cover, recorded.covered]
  exact or_congr_right (iff_self_and.mpr known)

/-- Coverage is honest. A call covers what was covered before and what recording the returned
tree finds in it, so that after any number of calls since a reset the covered keys are those of
the expansions used in the returned trees. -/
theorem fuzzTree_covers_uses {f : Fuzzer γ} (valid : f.grammar.Valid) (accepted : f.Accepted) :
    (∀ budget, (∃ f', f.fuzzTree budget = (.unfinished, f')) ∨
      ∃ tree f', f.fuzzTree budget = (.done tree, f') ∧
        f'.tracker = (f.tracker.recordTree tree).2 ∧
        ∀ key, key ∈ f'.tracker.covered ↔ key ∈ f.tracker.covered ∨ tree.Uses key) ∧
    (∀ trees f', Generates f trees f' → ∀ key,
      key ∈ f'.tracker.covered ↔ key ∈ f.tracker.covered ∨ ∃ tree ∈ trees, tree.Uses key) ∧
    ∀ trees f', Generates f.resetCoverage trees f' → ∀ key,
      key ∈ f'.tracker.covered ↔ ∃ tree ∈ trees, tree.Uses key := by
  refine ⟨fun budget => ?_, fun trees f' generates => generates.covered valid accepted,
    fun trees f' generates key => ?_⟩
  · rcases fuzzTree_recorded valid accepted budget with unfinished | ⟨tree, f', done, recorded⟩
    · exact .inl unfinished
    · refine .inr ⟨tree, f', done, recorded.tracker_eq, fun key => ?_⟩
      rw [recorded.covered, recorded.conforms.mem_usedKeys]
  · have known := accepted_iff.mp accepted
    have reset : f.resetCoverage.Accepted := accepted_iff.mpr known
    rw [generates.covered valid reset]
    simp [resetCoverage, Strategy.reset, Tracker.reset, tracker]

/-- The tree that `bracketedFuzzer` derives first. -/
def bracketedTree : Tree := .node "<start>" [.node "<item>" [.leaf "x"], .leaf "< item>",
  .node "<start>" [.node "<item>" [.leaf "x"], .leaf "< item>", .node "<start>" [.leaf ""]]]

theorem bracketedFuzzer_covers : bracketed.Valid ∧ bracketedFuzzer.Accepted ∧
    ∃ f', bracketedFuzzer.fuzzTree 40 = (.done bracketedTree, f') ∧ f'.tracker.covered.size = 3 ∧
      ∀ key, key ∈ f'.tracker.covered ↔ bracketedTree.Uses key := by
  have valid : bracketed.Valid := by decide +kernel
  have accepted : bracketedFuzzer.Accepted := accepted_iff.mpr (by decide +kernel)
  have returned : (bracketedFuzzer.fuzzTree 40).1 = .done bracketedTree := by decide +kernel
  have size : (bracketedFuzzer.fuzzTree 40).2.tracker.covered.size = 3 := by decide +kernel
  have nothing : bracketedFuzzer.tracker.covered = ∅ := rfl
  obtain ⟨⟨outcome, f'⟩, ended⟩ : ∃ call, bracketedFuzzer.fuzzTree 40 = call := ⟨_, rfl⟩
  rw [ended] at returned size
  obtain rfl : outcome = .done bracketedTree := returned
  refine ⟨valid, accepted, f', ended, size, fun key => ?_⟩
  have covers := (fuzzTree_covers_uses valid accepted).2.1 _ _ (.next ended (.none f')) key
  simpa [nothing] using covers

end GrammarFuzz.Fuzzer
