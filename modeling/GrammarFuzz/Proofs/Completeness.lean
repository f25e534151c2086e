import GrammarFuzz.Proofs.Growth
import GrammarFuzz.Proofs.Plays

/-! Generation is complete: every complete derivation tree is returned for some picks. The tree
grows from its root by one expansion after the other, and a strategy that prefers nothing can be
made to take each of these steps, as long as the limit lets the phase of random choices go on. -/
namespace GrammarFuzz

namespace Tree

theorem Replaces.exists_gap {symbol : Symbol} {subtree before after : Tree}
    (replaces : Replaces symbol subtree before after) :
    ∃ plug, Gap symbol before plug ∧ plug subtree = after := by
  induction replaces with
  | here => exact ⟨id, .here, rfl⟩
  | @within before after parent front back _ ih =>
      obtain ⟨plug, gap, rfl⟩ := ih
      have bound : front.length < (front ++ before :: back).length := by simp
      have there : (front ++ before :: back).get ⟨front.length, bound⟩ = before := by simp
      refine ⟨_, @Gap.within _ parent _ ⟨front.length, bound⟩ plug (by rwa [there]), ?_⟩
      simp

end Tree

/-- Tracking prefers nothing, so it may choose any candidate. -/
theorem Strategy.mem_positions_of_tracking {s : Strategy} (kind : s.kind = .tracking)
    {symbol : Symbol} {candidates : List (List Tree)} (position : Fin candidates.length) :
    position ∈ s.positions symbol candidates := by
  have all : s.positions symbol candidates = List.finRange candidates.length := by
    rw [positions, preferred, kind]
    rfl
  rw [all]
  exact List.mem_finRange position

namespace Fuzzer

variable {g : Grammar} {tree target : Tree}

/-- Some picks make a step of tracking expand any pending node by anything that the phase offers. -/
theorem expandOnce_offered {phase : Phase} (config : Config) {s : Strategy}
    (kind : s.kind = .tracking)
    {symbol : Symbol} {expansion : Expansion} (offered : expansion ∈ phase.offered s.grammar symbol)
    {plug : Tree → Tree} (gap : tree.Gap symbol plug) : ∃ answers after, after.kind = .tracking ∧
      after.grammar = s.grammar ∧ ∀ rest,
        expandOnce ⟨config, s, Picks.mk (answers ++ rest)⟩ phase tree =
        (.ok (plug (expansion.toTree symbol)), ⟨config, after, ⟨rest⟩⟩) := by
  obtain ⟨answers, descends⟩ := expandOnce_picks phase gap
  obtain ⟨place, bound, found⟩ := List.mem_iff_getElem.mp offered
  have inside : place < ((phase.offered s.grammar symbol).map Expansion.toChildren).length := by
    simpa using bound
  obtain ⟨answer, after, expands⟩ := expandSymbol_picks_of_mem phase config
    (List.getElem?_eq_some_iff.mpr ⟨bound, found⟩)
      (Strategy.mem_positions_of_tracking kind ⟨place, inside⟩)
  have kept := (expands []).2
  refine ⟨answers ++ [answer], after, kept.kind.trans kind, kept.continues.grammar, fun rest => ?_⟩
  rw [List.append_assoc, List.singleton_append, descends, (expands rest).1]
  rfl

/-- Some picks make a step of tracking grow a tree in any way that the grammar allows. -/
theorem expandOnce_grows (config : Config) {s : Strategy} (kind : s.kind = .tracking)
    (grows : tree.Grows s.grammar target) : ∃ answers after, after.kind = .tracking ∧
      after.grammar = s.grammar ∧ ∀ rest,
        expandOnce ⟨config, s, Picks.mk (answers ++ rest)⟩ .anything tree =
        (.ok target, ⟨config, after, ⟨rest⟩⟩) := by
  obtain ⟨symbol, expansion, member, replaces⟩ := grows
  obtain ⟨plug, gap, rfl⟩ := replaces.exists_gap
  exact expandOnce_offered config kind member gap

/-- Under a limit that all the trees on the way stay below, some picks make the loop of tracking
grow a tree to the end. -/
theorem expandWhile_grows (grows : tree.GrowsTo g target) (settled : target.hasPending = false) :
    ∃ bound, ∀ limit, bound ≤ limit → ∀ config (s : Strategy), s.kind = .tracking → s.grammar = g →
      ∃ answers budget after, ∀ rest,
        expandWhile .anything (some limit) budget ⟨config, s, Picks.mk (answers ++ rest)⟩ tree =
          (.done target, ⟨config, after, ⟨rest⟩⟩) := by
  induction grows using Relation.ReflTransGen.head_induction_on with
  | refl =>
      refine ⟨0, fun limit _ config s _ _ => ⟨[], 0, s, fun rest => ?_⟩⟩
      exact expandWhile_settled settled _ _ 0 _
  | @head tree next grows _ ih =>
      obtain ⟨bound, later⟩ := ih
      refine ⟨max (tree.pendingCount + 1) bound, fun limit enough config s kind same => ?_⟩
      subst same
      obtain ⟨answers, s', kind', same', step⟩ := expandOnce_grows config kind grows
      obtain ⟨answers', budget, after, ended⟩ := later limit (by omega) config s' kind' same'
      have pending : tree.hasPending = true := by
        obtain ⟨symbol, _, _, replaces⟩ := grows
        exact Tree.hasPending_iff.mpr ⟨symbol, replaces.mem_pendingSymbols⟩
      have below : tree.pendingCount < limit := by omega
      refine ⟨answers ++ answers', budget + 1, after, fun rest => ?_⟩
      rw [expandWhile, if_pos (by simp [pending, below]), List.append_assoc, step]
      exact ended rest

/-- Generation is complete. Tracking that does not ask for many pending nodes at first returns
every complete derivation tree of its start symbol for some picks, of which it uses all and no
more, whatever it has covered, if its limit of pending nodes is large enough for the tree. -/
theorem fuzzTree_complete (complete : tree.Complete g) (root : isNonterminal tree.symbol = true) :
    ∃ bound, ∀ (config : Config) (s : Strategy), s.kind = .tracking → s.grammar = g →
      config.start = tree.symbol → config.minPending ≤ 1 → bound ≤ config.maxPending →
      ∃ answers budget after, ∀ rest, fuzzTree ⟨config, s, Picks.mk (answers ++ rest)⟩ budget =
        (.done tree, ⟨config, after, ⟨rest⟩⟩) := by
  obtain ⟨bound, grows⟩ := expandWhile_grows (complete.growsTo root) complete.settled
  refine ⟨bound, fun config s kind same start few enough => ?_⟩
  obtain ⟨answers, budget, after, grown⟩ := grows config.maxPending enough config s kind same
  refine ⟨answers, budget, after, fun rest => ?_⟩
  have starts : ((Tree.pending config.start).hasPending &&
      (some config.minPending).all ((Tree.pending config.start).pendingCount < ·)) = false := by
    have reached : ¬1 < config.minPending := by omega
    exact decide_eq_false reached
  have ends : (tree.hasPending && (none : Option Nat).all (tree.pendingCount < ·)) = false := by
    rw [complete.settled, Bool.false_and]
  rw [fuzzTree, expandTree, initialTree, (expandWhile_stop budget _ starts).1]
  simp only [start, grown rest]
  exact (expandWhile_stop budget _ ends).1

def nested : Grammar := ⟨Rules.ofList [("<start>", ["(<start>)<start>", ""])]⟩

/-- Two pairs of parentheses in a third. -/
def nestedTree : Tree :=
  let nothing : Tree := .node "<start>" [.leaf ""]
  let pair (inner after : Tree) : Tree := .node "<start>" [.leaf "(", inner, .leaf ")", after]
  pair (pair nothing (pair nothing nothing)) nothing

theorem nestedTree_complete : nestedTree.Complete nested := by
  have leaf (text : String) (terminal : isNonterminal text = false) :
      (Tree.leaf text).Complete nested := .leaf terminal
  have nothing : (Tree.node "<start>" [.leaf ""]).Complete nested := by
    have written : (Expansion.mk "").toChildren = [.leaf ""] := by decide +kernel
    refine @Tree.Complete.node nested _ ⟨""⟩ _ (by decide) (by decide +kernel) ?_ ?_
    · rw [written]
      exact .cons (.leaf "") .nil
    · simpa using leaf "" (by decide)
  have pair {inner after : Tree} (first : inner.Complete nested) (second : after.Complete nested)
      (same : inner.symbol = "<start>") (same' : after.symbol = "<start>") :
      (Tree.node "<start>" [.leaf "(", inner, .leaf ")", after]).Complete nested := by
    have written : (Expansion.mk "(<start>)<start>").toChildren =
        [.leaf "(", .pending "<start>", .leaf ")", .pending "<start>"] := by decide +kernel
    refine @Tree.Complete.node nested _ ⟨"(<start>)<start>"⟩ _ (by decide) (by decide +kernel) ?_ ?_
    · rw [written]
      exact .cons (.leaf "(") (.cons (.pending same)
        (.cons (.leaf ")") (.cons (.pending same') .nil)))
    · simpa using ⟨leaf "(" (by decide), first, leaf ")" (by decide), second⟩
  exact pair (pair nothing (pair nothing nothing rfl rfl) rfl rfl) nothing rfl rfl

theorem nestedTree_attained : nested.Valid ∧ nestedTree.Complete nested ∧
    nestedTree.text = "(()())" ∧
    ∃ bound, ∀ maxPending, bound ≤ maxPending → ∃ answers budget after, ∀ rest,
      fuzzTree ⟨{ minPending := 1, maxPending }, .new .tracking nested,
        Picks.mk (answers ++ rest)⟩ budget =
        (.done nestedTree, ⟨{ minPending := 1, maxPending }, after, ⟨rest⟩⟩) := by
  refine ⟨by decide +kernel, nestedTree_complete, by decide +kernel, ?_⟩
  obtain ⟨bound, attains⟩ := fuzzTree_complete nestedTree_complete (by decide)
  exact ⟨bound, fun maxPending enough =>
    attains { minPending := 1, maxPending } _ rfl rfl rfl (Nat.le_refl 1) enough⟩

end Fuzzer
end GrammarFuzz
