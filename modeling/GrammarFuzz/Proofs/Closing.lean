import GrammarFuzz.Random.Script
import GrammarFuzz.Proofs.LeastCost
import GrammarFuzz.Proofs.Steps

/-! The cheapest expansions close a tree, and nothing closes it sooner. What the pending nodes
cost together falls by one with each of them, whichever the strategy takes among those of one
cost, and by no more with any other expansion. -/
namespace GrammarFuzz

namespace Grammar

variable {g : Grammar} {symbol : Symbol} {expansion : Expansion}

/-- A cheapest expansion costs what its symbol costs. -/
theorem expansionCost_of_cheapest (valid : g.Valid)
    (offered : expansion ∈ Phase.cheapest.offered g symbol) :
    g.expansionCost expansion {symbol} = g.symbolCost symbol ∅ := by
  have listed := Phase.mem_expansions_of_mem_offered offered
  rw [symbolCost_eq_foldl valid (mem_symbols_of_expansion listed), (Phase.mem_ofCost.mp offered).2,
    List.foldl_map]
  rfl

/-- The symbols on the path never have to come up again: what a cheapest expansion leaves costs
one less than its symbol although its references may then use all symbols. -/
theorem formCost_of_cheapest (valid : g.Valid)
    (offered : expansion ∈ Phase.cheapest.offered g symbol)
    (finite : g.symbolCost symbol ∅ < Cost.infinite) :
    g.formCost expansion.parts + 1 = g.symbolCost symbol ∅ := by
  have priced := expansionCost_of_cheapest valid offered
  have listed := Phase.mem_expansions_of_mem_offered offered
  have total :=
    stepCost_of_finite (priced ▸ finite : g.expansionCost expansion {symbol} < Cost.infinite)
  have looser : g.formCost expansion.parts ≤
      (expansion.references.map (g.symbolCost · {symbol})).sum :=
    List.sum_le_sum fun reference _ => symbolCost_empty_le (Nat.le_refl _) _ reference
  refine Nat.le_antisymm ?_ ?_
  · rw [← priced, expansionCost, total, Nat.add_comm 1]
    exact Nat.succ_le_succ looser
  · rw [Nat.add_comm]
    exact symbolCost_le_step valid listed

end Grammar

namespace Tree

variable {g : Grammar} {before after tree : Tree} {symbol : Symbol} {expansion : Expansion}

/-- What the pending nodes cost together. -/
def pendingCost (g : Grammar) (tree : Tree) : Nat :=
  (tree.pendingSymbols.map (g.symbolCost · ∅)).sum

theorem pendingCost_eq (g : Grammar) (tree : Tree) :
    tree.pendingCost g = g.formCost tree.frontier := rfl

theorem pendingCost_settled (settled : tree.hasPending = false) : tree.pendingCost g = 0 :=
  Grammar.formCost_eq_zero (not_mem_frontier settled)

/-- An expansion trades the cost of its symbol for that of its references. -/
theorem Replaces.pendingCost (replaces : Replaces symbol (expansion.toTree symbol) before after) :
    after.pendingCost g + g.symbolCost symbol ∅ =
      before.pendingCost g + g.formCost expansion.parts := by
  obtain ⟨front, back, same, replaced⟩ := replaces.frontier
  rw [pendingCost_eq, pendingCost_eq, same, replaced, expansion.frontier_toTree]
  simp only [Grammar.formCost_append, Grammar.formCost_cons]
  omega

/-- No expansions close a tree in fewer steps than its pending nodes cost. -/
theorem pendingCost_le {count : Nat} (valid : g.Valid) (steps : Steps (Grows g) count tree after)
    (settled : after.hasPending = false) : tree.pendingCost g ≤ count := by
  have rewritten : Steps g.Rewrites count tree.frontier after.frontier :=
    steps.lift frontier fun _ _ grows => grows.rewrites
  exact Grammar.formCost_le valid rewritten (not_mem_frontier settled)

end Tree

namespace Fuzzer

variable {γ : Type}

/-- A tree whose pending nodes the fuzzer could have come to. -/
structure Closable (f : Fuzzer γ) (tree : Tree) : Prop where
  valid : f.grammar.Valid
  accepted : f.Accepted
  reached : ∀ symbol ∈ tree.pendingSymbols, f.grammar.Reaches f.config.start symbol

section Closable

variable {f : Fuzzer γ} {tree : Tree} {symbol : Symbol}

theorem Closable.member (closable : f.Closable tree) (pending : symbol ∈ tree.pendingSymbols) :
    symbol ∈ f.grammar.symbols :=
  (closable.reached symbol pending).mem_symbols closable.valid (accepted_iff.mp closable.accepted).1

theorem Closable.finite (closable : f.Closable tree) (pending : symbol ∈ tree.pendingSymbols) :
    f.grammar.symbolCost symbol ∅ < Cost.infinite := by
  obtain ⟨start, productive⟩ := accepted_iff.mp closable.accepted
  exact Grammar.symbolCost_lt closable.valid start productive (closable.reached symbol pending)

variable [Chance γ]

/-- A step of the cheapest expansions lowers the cost of the pending nodes by one. -/
theorem Closable.step (closable : f.Closable tree) (pending : tree.hasPending = true) : ∃ after f',
    f.expandOnce .cheapest tree = (.ok after, f') ∧ f'.grammar = f.grammar ∧ f'.Closable after ∧
      tree.Grows f.grammar after ∧ after.pendingCost f.grammar + 1 =
        tree.pendingCost f.grammar := by
  obtain ⟨symbol, expansion, after, f', stepped, expands, replaces⟩ :=
    expandOnce_cases f .cheapest pending fun symbol waiting =>
      Phase.offered_ne_nil _ (closable.valid.expansions_ne_nil (closable.member waiting))
  have continues := expands.continues
  have traded := replaces.pendingCost (g := f.grammar)
  have less :=
    Grammar.formCost_of_cheapest closable.valid expands.offered
      (closable.finite replaces.mem_pendingSymbols)
  refine ⟨after, f', stepped, continues.grammar, ⟨?_, ?_, fun other inside => ?_⟩,
    ⟨symbol, expansion, expands.member, replaces⟩, by omega⟩
  · exact continues.grammar ▸ closable.valid
  · exact closable.accepted.continues continues
  · rw [continues.grammar, continues.config]
    rcases replaces.mem_after inside with used | before
    · rw [expansion.pendingSymbols_toTree] at used
      exact (closable.reached symbol replaces.mem_pendingSymbols).tail
        (Grammar.mem_references_of_expansion expands.member used)
    · exact closable.reached other before

/-- A tree is settled when its pending nodes cost nothing, since each costs a step. -/
theorem Closable.hasPending_iff (closable : f.Closable tree) :
    tree.hasPending = true ↔ 0 < tree.pendingCost f.grammar := by
  constructor
  · intro pending
    obtain ⟨after, _, _, _, _, _, less⟩ := closable.step pending
    omega
  · intro positive
    by_contra settled
    rw [Tree.pendingCost_settled (Bool.not_eq_true _ ▸ settled)] at positive
    contradiction

/-- With too small a budget the loop is stopped. -/
theorem Closable.expandWhile_short (budget : Nat) :
    ∀ {f : Fuzzer γ} {tree : Tree}, f.Closable tree →
    budget < tree.pendingCost f.grammar →
      (expandWhile .cheapest none budget f tree).1 = .unfinished := by
  induction budget with
  | zero =>
      intro f tree closable short
      have pending := closable.hasPending_iff.mpr short
      rw [expandWhile, if_pos (by rw [pending]; rfl)]
  | succ budget ih =>
      intro f tree closable short
      have pending := closable.hasPending_iff.mpr (by omega)
      obtain ⟨after, f', stepped, same, again, _, less⟩ := closable.step pending
      rw [expandWhile, if_pos (by rw [pending]; rfl), stepped]
      exact ih again (by rw [same]; omega)

/-- With enough budget the loop counts the cost of the pending nodes down to nothing. -/
theorem Closable.expandWhile_enough (count : Nat) :
    ∀ {f : Fuzzer γ} {tree : Tree} {budget : Nat}, f.Closable tree →
    tree.pendingCost f.grammar = count → count ≤ budget → ∃ last f',
      expandWhile .cheapest none budget f tree = (.done last, f') ∧ last.hasPending = false ∧
      Steps (Tree.Grows f.grammar) count tree last ∧
      (treesWhile .cheapest none budget f tree).map (Tree.pendingCost f.grammar) =
        (List.range (count + 1)).reverse := by
  induction count with
  | zero =>
      intro f tree budget closable nothing _
      have settled : tree.hasPending = false := by
        rw [← Bool.not_eq_true, closable.hasPending_iff, nothing]
        exact Nat.lt_irrefl 0
      have ended : (tree.hasPending && (none : Option Nat).all (tree.pendingCount < ·)) =
          false := by
        rw [settled, Bool.false_and]
      refine ⟨tree, f, (expandWhile_stop budget f ended).1, settled, .none tree, ?_⟩
      rw [(expandWhile_stop budget f ended).2, List.map_singleton, nothing]
      rfl
  | succ count ih =>
      intro f tree budget closable cost enough
      have pending := closable.hasPending_iff.mpr (by omega)
      obtain ⟨after, f', stepped, same, again, grows, less⟩ := closable.step pending
      obtain ⟨budget, rfl⟩ : ∃ less, budget = less + 1 := ⟨budget - 1, by omega⟩
      obtain ⟨last, f'', ended, settled, steps, heads⟩ :=
        ih again (by rw [same]; omega) (Nat.le_of_succ_le_succ enough)
      rw [same] at steps heads
      refine ⟨last, f'', ?_, settled, .next grows steps, ?_⟩
      · rw [expandWhile, if_pos (by rw [pending]; rfl), stepped]
        exact ended
      · rw [treesWhile, if_pos (by rw [pending]; rfl)]
        simp only [stepped]
        rw [List.map_cons, heads, cost, List.range_succ (n := count + 1), List.reverse_concat]

/-- The phase of the cheapest expansions ends and is optimal, for every strategy and every source
of choices. Each of its steps lowers the cost of the pending nodes by one, it stops after as many
steps as they cost with no node pending, and no expansions close the tree in fewer. -/
theorem cheapest_closes {f : Fuzzer γ} {tree : Tree} (valid : f.grammar.Valid)
    (accepted : f.Accepted)
    (reached : ∀ symbol ∈ tree.pendingSymbols, f.grammar.Reaches f.config.start symbol) :
    (tree.hasPending = true → ∃ after f', f.expandOnce .cheapest tree = (.ok after, f') ∧
      after.pendingCost f.grammar + 1 = tree.pendingCost f.grammar) ∧
    (∀ budget < tree.pendingCost f.grammar,
      (expandWhile .cheapest none budget f tree).1 = .unfinished) ∧
    (∀ budget, tree.pendingCost f.grammar ≤ budget → ∃ last f',
      expandWhile .cheapest none budget f tree = (.done last, f') ∧ last.hasPending = false ∧
      Steps (Tree.Grows f.grammar) (tree.pendingCost f.grammar) tree last ∧
      (treesWhile .cheapest none budget f tree).map (Tree.pendingCost f.grammar) =
        (List.range (tree.pendingCost f.grammar + 1)).reverse) ∧
    ∀ count last, Steps (Tree.Grows f.grammar) count tree last → last.hasPending = false →
      tree.pendingCost f.grammar ≤ count := by
  have closable : f.Closable tree := ⟨valid, accepted, reached⟩
  refine ⟨fun pending => ?_, fun budget short => closable.expandWhile_short budget short,
    fun budget enough => closable.expandWhile_enough _ rfl enough,
    fun count last steps settled => Tree.pendingCost_le valid steps settled⟩
  obtain ⟨after, f', stepped, _, _, _, less⟩ := closable.step pending
  exact ⟨after, f', stepped, less⟩

end Closable

def sumsFuzzer : Fuzzer Script where
  config := {}
  strategy := .new .foresight Grammar.sums
  source := .ofWords [7, 9223372036854775809]

/-- A sum with two summands to come. -/
def openSum : Tree := .node "<sum>" [.pending "<sum>", .leaf "+", .pending "<term>"]

theorem openSum_closes : Grammar.sums.Valid ∧ sumsFuzzer.Accepted ∧
    (∀ symbol ∈ openSum.pendingSymbols, Grammar.sums.Reaches "<start>" symbol) ∧
    openSum.pendingCost Grammar.sums = 3 ∧
    (expandWhile .cheapest none 2 sumsFuzzer openSum).1 = .unfinished ∧
    (∃ last f', expandWhile .cheapest none 3 sumsFuzzer openSum = (.done last, f') ∧
      last.hasPending = false) ∧
    ∀ count last, Steps (Tree.Grows Grammar.sums) count openSum last → last.hasPending = false →
      3 ≤ count := by
  have valid : Grammar.sums.Valid := by decide +kernel
  have accepted : sumsFuzzer.Accepted := accepted_iff.mpr (by decide +kernel)
  have reached : ∀ symbol ∈ openSum.pendingSymbols, Grammar.sums.Reaches "<start>" symbol := by
    have entered : ∀ symbol ∈ openSum.pendingSymbols,
        symbol ∈ Grammar.sums.reached none "<start>" := by decide +kernel
    exact fun symbol pending => Grammar.reaches_of_mem_reached (entered symbol pending)
  have cost : openSum.pendingCost Grammar.sums = 3 := by decide +kernel
  obtain ⟨_, short, enough, least⟩ := cheapest_closes (f := sumsFuzzer) valid accepted reached
  obtain ⟨last, f', ended, settled, _⟩ := enough 3 (Nat.le_of_eq cost)
  have unpaid : 2 < openSum.pendingCost sumsFuzzer.grammar :=
    Nat.lt_of_lt_of_eq (by decide) cost.symm
  refine ⟨valid, accepted, reached, cost, short 2 unpaid, ⟨last, f', ended, settled⟩,
    fun count last steps settled => ?_⟩
  rw [← cost]
  exact least count last steps settled

end Fuzzer
end GrammarFuzz
