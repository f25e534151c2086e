import GrammarFuzz.Random.Script
import GrammarFuzz.Proofs.Steps

/-! Every tree that is generated is a derivation tree of the grammar, and its text is derived
from the start symbol. The frontier of a tree under construction is a sentential form, which
each step rewrites, so the invariant does not depend on how candidates are narrowed or
chosen. -/
namespace GrammarFuzz.Fuzzer

variable {γ : Type} [Chance γ]

/-- The invariant of the construction: a derivation tree of the start symbol whose frontier is
derived from it, under way since `origin`. -/
structure Derives (origin f : Fuzzer γ) (tree : Tree) : Prop where
  continues : Continues origin f
  conforms : tree.Conforms origin.grammar
  root : tree.symbol = origin.config.start
  rewritten : origin.grammar.RewritesTo [.nonterminal origin.config.start] tree.frontier

section Derives

variable {origin : Fuzzer γ} (valid : origin.grammar.Valid)
include valid

omit [Chance γ] in
theorem Derives.offered {f : Fuzzer γ} {tree : Tree} (derives : Derives origin f tree)
    (phase : Phase) {symbol : Symbol} (pending : symbol ∈ tree.pendingSymbols) :
    phase.offered f.grammar symbol ≠ [] := by
  apply Phase.offered_ne_nil
  rw [derives.continues.grammar]
  exact valid.expansions_ne_nil (derives.conforms.pending_mem pending)

theorem Derives.step {f : Fuzzer γ} {tree : Tree} (derives : Derives origin f tree) (phase : Phase)
    (pending : tree.hasPending = true) : ∃ symbol expansion after f',
      f.expandOnce phase tree = (.ok after, f') ∧ f.Expands phase symbol expansion f' ∧
        Tree.Replaces symbol (expansion.toTree symbol) tree after ∧ Derives origin f' after := by
  obtain ⟨symbol, expansion, after, f', stepped, expands, replaces⟩ :=
    expandOnce_cases f phase pending fun symbol => derives.offered valid phase
  have member : expansion ∈ origin.grammar.expansions symbol :=
    derives.continues.grammar ▸ expands.member
  refine ⟨symbol, expansion, after, f', stepped, expands, replaces, ?_, ?_, ?_, ?_⟩
  · exact derives.continues.trans expands.continues
  · exact derives.conforms.replaces replaces rfl (.toTree valid member)
  · exact (replaces.symbol_eq rfl).trans derives.root
  · obtain ⟨front, back, before, replaced⟩ := replaces.frontier
    have form := derives.rewritten
    rw [before] at form
    rw [replaced, expansion.frontier_toTree]
    exact form.tail (.at front back member)

omit valid [Chance γ] in
theorem Derives.start (accepted : origin.Accepted) : Derives origin origin origin.initialTree :=
  ⟨.refl origin, .pending (accepted_iff.mp accepted).1, rfl, .refl⟩

theorem fuzzTree_derives (accepted : origin.Accepted) (budget : Nat) :
    (∀ passed ∈ origin.treesPassed budget, ∃ f, Derives origin f passed) ∧
      ((∃ f, origin.fuzzTree budget = (.unfinished, f)) ∨
        ∃ tree f, origin.fuzzTree budget = (.done tree, f) ∧ Derives origin f tree ∧
          tree.hasPending = false) := by
  refine fuzzTree_invariant (fun phase f tree derives pending => ?_) (.start accepted) budget
  obtain ⟨_, _, after, f', stepped, _, _, kept⟩ := derives.step valid phase pending
  exact ⟨after, f', stepped, kept⟩

end Derives

theorem fuzzTree_done {f f' : Fuzzer γ} (valid : f.grammar.Valid) (accepted : f.Accepted)
    {budget : Nat} {tree : Tree} (done : f.fuzzTree budget = (.done tree, f')) :
    Derives f f' tree ∧ tree.hasPending = false := by
  rcases (fuzzTree_derives valid accepted budget).2 with ⟨_, unfinished⟩ | ⟨_, _, done', derives⟩
  · rw [unfinished] at done
    cases done
  · rw [done'] at done
    cases done
    exact derives

/-- Generation is sound: it asks for no choice among nothing and does not fail, and a tree it
returns is a complete derivation tree whose text is derived from the start symbol. -/
theorem fuzzTree_sound {f : Fuzzer γ} (valid : f.grammar.Valid) (accepted : f.Accepted)
    (budget : Nat) :
    (∀ passed ∈ f.treesPassed budget, ∀ symbol ∈ passed.pendingSymbols, ∀ phase : Phase,
      phase.offered f.grammar symbol ≠ []) ∧
    (∀ error, (f.fuzzTree budget).1 ≠ .failed error) ∧
    ∀ tree f', f.fuzzTree budget = (.done tree, f') →
      tree.symbol = f.config.start ∧ tree.hasPending = false ∧ tree.Complete f.grammar ∧
        f.fuzz budget = (.done tree.text, f') ∧ f.grammar.Derives f.config.start tree.text := by
  obtain ⟨heads, ends⟩ := fuzzTree_derives valid accepted budget
  refine ⟨?_, ?_, ?_⟩
  · intro passed member symbol pending phase
    obtain ⟨f', derives⟩ := heads passed member
    rw [← derives.continues.grammar]
    exact derives.offered valid phase pending
  · intro error failed
    rcases ends with ⟨f', unfinished⟩ | ⟨tree, f', done, _⟩
    · simp [unfinished] at failed
    · simp [done] at failed
  · intro tree f' done
    obtain ⟨derives, settled⟩ := fuzzTree_done valid accepted done
    have none := List.eq_nil_iff_forall_not_mem.mpr (Tree.not_mem_pendingSymbols settled)
    refine ⟨derives.root, settled, derives.conforms.complete none, ?_, ?_⟩
    · simp only [fuzz, done]
    · exact ⟨tree.frontier, derives.rewritten, Tree.not_mem_frontier settled, tree.join_frontier⟩

/-- Brackets that are no references, and an empty expansion. -/
def bracketed : Grammar := ⟨Rules.ofList [
  ("<start>", ["<item>< item><start>", ""]), ("<item>", ["<<item>>", "<>", "x"]),
  ("<>", ["<", ">"])]⟩

def bracketedFuzzer : Fuzzer Script where
  config := { minPending := 2, maxPending := 3 }
  strategy := .new .foresight bracketed
  source := .ofWords [3, 18446744073709551615, 9223372036854775809]

theorem bracketedFuzzer_derives : bracketed.Valid ∧ bracketedFuzzer.Accepted ∧
    (bracketedFuzzer.fuzz 40).1 = .done "x< item>x< item>" ∧
    bracketed.Derives "<start>" "x< item>x< item>" := by
  have valid : bracketed.Valid := by decide +kernel
  have accepted : bracketedFuzzer.Accepted := accepted_iff.mpr (by decide +kernel)
  have spelled : (bracketedFuzzer.fuzz 40).1 = .done "x< item>x< item>" := by decide +kernel
  refine ⟨valid, accepted, spelled, ?_⟩
  obtain ⟨_, _, sound⟩ := fuzzTree_sound valid accepted 40
  rcases ended : bracketedFuzzer.fuzzTree 40 with ⟨tree | error | _, f'⟩
  · obtain ⟨_, _, _, text, derives⟩ := sound tree f' ended
    rw [text] at spelled
    rw [← Outcome.done.inj spelled]
    exact derives
  · simp [fuzz, ended] at spelled
  · simp [fuzz, ended] at spelled

end GrammarFuzz.Fuzzer
