import GrammarFuzz.Proofs.Moves
import GrammarFuzz.Proofs.Steps

/-! The phase of random choices as a game on the covered keys and the pending symbols. A play
that stops is what some finite list of picks makes the loop do, and a loop that ends, with any
source of choices, has made such a play. -/
namespace GrammarFuzz

/-- A source that answers as listed, within the range asked for, and zero after the list. -/
structure Picks where
  answers : List Nat

namespace Picks

instance : Chance Picks where
  pick count positive picks :=
    match picks.answers with
    | [] => (⟨0, positive⟩, picks)
    | answer :: rest => (⟨answer % count, Nat.mod_lt answer positive⟩, ⟨rest⟩)

theorem pick_cons {count : Nat} (positive : 0 < count) (place : Fin count) (rest : List Nat) :
    Chance.pick count positive (Picks.mk (place.val :: rest)) = (place, ⟨rest⟩) := by
  have same : (⟨place.val % count, Nat.mod_lt place.val positive⟩ : Fin count) = place :=
    Fin.ext (Nat.mod_eq_of_lt place.isLt)
  exact Prod.ext same rfl

end Picks

/-- Every preferred position is chosen for some pick. -/
theorem Strategy.choose_picks {s : Strategy} {symbol : Symbol} {candidates : List (List Tree)}
    {position : Fin candidates.length} (member : position ∈ s.positions symbol candidates) :
    ∃ answer, ∀ rest, s.choose symbol candidates (Picks.mk (answer :: rest)) =
      some (position, s.chose symbol candidates position, ⟨rest⟩) := by
  obtain ⟨place, bound, rfl⟩ := List.mem_iff_getElem.mp member
  have positive : 0 < (s.positions symbol candidates).length := List.length_pos_of_mem member
  exact ⟨place, fun rest => choose_of_pick (Picks.pick_cons positive ⟨place, bound⟩ rest)⟩

namespace Fuzzer

/-- The expansion at every preferred position is chosen for some pick. -/
theorem expandSymbol_picks_of_mem (phase : Phase) (config : Config) {s : Strategy} {symbol : Symbol}
    {position : Fin ((phase.offered s.grammar symbol).map Expansion.toChildren).length}
    {expansion : Expansion}
    (found : (phase.offered s.grammar symbol)[position.val]? = some expansion)
    (listed : position ∈ s.positions symbol _) : ∃ answer after, ∀ rest,
      expandSymbol ⟨config, s, Picks.mk (answer :: rest)⟩ phase symbol =
        (.ok (expansion.toTree symbol), ⟨config, after, ⟨rest⟩⟩) ∧
      Expands ⟨config, s, Picks.mk (answer :: rest)⟩ phase symbol expansion
        ⟨config, after, ⟨rest⟩⟩ := by
  obtain ⟨answer, chosen⟩ := Strategy.choose_picks listed
  refine ⟨answer, s.chose symbol _ position, fun rest => ?_⟩
  exact @expands_of_chose _ _ ⟨config, s, Picks.mk (answer :: rest)⟩ phase symbol position
    ⟨rest⟩ expansion
    found listed (chosen rest)

/-- Every preferred expansion is chosen for some pick. -/
theorem expandSymbol_picks (config : Config) {s : Strategy} (built : s.Built) {symbol : Symbol}
    {expansion : Expansion}
    (prefers : Strategy.Prefers s.kind s.tracker symbol (s.grammar.expansions symbol) expansion) :
    ∃ answer after, ∀ rest,
      expandSymbol ⟨config, s, Picks.mk (answer :: rest)⟩ .anything symbol =
        (.ok (expansion.toTree symbol), ⟨config, after, ⟨rest⟩⟩) ∧
      Expands ⟨config, s, Picks.mk (answer :: rest)⟩ .anything symbol expansion
        ⟨config, after, ⟨rest⟩⟩ := by
  obtain ⟨position, member, found⟩ := prefers
  apply expandSymbol_picks_of_mem .anything config found
  rwa [Strategy.positions, (Strategy.answers_preferred _ built.faithful).1]

/-- Some picks lead to each pending node. -/
theorem expandOnce_picks (phase : Phase) {tree : Tree} {symbol : Symbol} {plug : Tree → Tree}
    (gap : tree.Gap symbol plug) : ∃ answers, ∀ config s rest,
      expandOnce ⟨config, s, Picks.mk (answers ++ rest)⟩ phase tree =
        regrow plug (expandSymbol ⟨config, s, ⟨rest⟩⟩ phase symbol) := by
  induction gap with
  | here => exact ⟨[], fun config s rest => expandOnce_pending _ phase symbol⟩
  | @within parent children position plug gap ih =>
      obtain ⟨answers, step⟩ := ih
      have opened : position ∈ openPositions children :=
        mem_openPositions.mpr (Tree.hasPending_iff.mpr
          ⟨symbol, (gap.replaces (.pending symbol)).mem_pendingSymbols⟩)
      obtain ⟨place, inside, found⟩ := List.mem_iff_getElem.mp opened
      have positive : 0 < (openPositions children).length := List.length_pos_of_mem opened
      refine ⟨place :: answers, fun config s rest => ?_⟩
      have picked := Picks.pick_cons positive ⟨place, inside⟩ (answers ++ rest)
      have node := @expandOnce_node _ _ ⟨config, s, Picks.mk (place :: (answers ++ rest))⟩ _ _ _ _ _
        picked found phase parent
      rw [List.cons_append, node, step, regrow_regrow]
      rfl

end Fuzzer

/-- Some play stops: it leaves nothing pending, or as many nodes as the limit. A move expands
any pending symbol by any expansion that the strategy prefers, and covers its key. -/
inductive Stops (kind : StrategyKind) (limit : Nat) : Tracker → Multiset Symbol → Prop
  | ended {t : Tracker} {pending : Multiset Symbol}
      (ended : pending.card = 0 ∨ limit ≤ pending.card) :
      Stops kind limit t pending
  | move {t : Tracker} {symbol : Symbol} {expansion : Expansion} {others : Multiset Symbol}
      (prefers : Strategy.Prefers kind t symbol (t.grammar.expansions symbol) expansion) :
      Stops kind limit (t.cover (Key.ofText symbol expansion.text))
        (expansion.references + others) →
      Stops kind limit t (symbol ::ₘ others)

namespace Fuzzer

variable {γ : Type} [Chance γ]

theorem goes_on_iff {tree : Tree} {limit : Nat} :
    (tree.hasPending && (some limit).all (tree.pendingCount < ·)) = true ↔
      0 < tree.pendingSymbols.length ∧ tree.pendingSymbols.length < limit := by
  rw [Bool.and_eq_true, Tree.hasPending_iff, Tree.pendingCount_eq, List.length_pos_iff_exists_mem]
  simp

/-- Some finite list of picks makes the phase of random choices end, started at this tree. -/
def CanStop (config : Config) (s : Strategy) (tree : Tree) : Prop :=
  ∃ answers budget after f, expandWhile .anything (some config.maxPending) budget
    ⟨config, s, Picks.mk answers⟩ tree = (.done after, f)

theorem canStop_of_stops {config : Config} {kind : StrategyKind} {t : Tracker}
    {pending : Multiset Symbol}
    (stops : Stops kind config.maxPending t pending) : ∀ (s : Strategy) (tree : Tree), s.Built →
    s.kind = kind → s.tracker = t → (tree.pendingSymbols : Multiset Symbol) = pending →
    CanStop config s tree := by
  have stopped (s : Strategy) {tree : Tree}
      (still : ¬(0 < tree.pendingSymbols.length ∧ tree.pendingSymbols.length < config.maxPending)) :
      CanStop config s tree := by
    rw [← goes_on_iff, Bool.not_eq_true] at still
    exact ⟨[], 0, tree, _, (expandWhile_stop 0 _ still).1⟩
  induction stops with
  | ended ended =>
      intro s tree _ _ _ same
      apply stopped s
      rw [← same, Multiset.coe_card] at ended
      omega
  | @move t symbol expansion others prefers _ ih =>
      intro s tree built kind tracker same
      by_cases goes : 0 < tree.pendingSymbols.length ∧
        tree.pendingSymbols.length < config.maxPending
      · subst kind tracker
        have member : symbol ∈ tree.pendingSymbols := by
          rw [← Multiset.mem_coe, same]
          exact Multiset.mem_cons_self symbol others
        obtain ⟨plug, gap⟩ := tree.exists_gap member
        obtain ⟨answers, step⟩ := expandOnce_picks .anything gap
        obtain ⟨answer, s', chosen⟩ := expandSymbol_picks config built prefers
        have expands := (chosen []).2
        obtain ⟨others', before, after⟩ := (gap.replaces (expansion.toTree symbol)).split
        rw [same, Multiset.cons_inj_right] at before
        rw [← before, Expansion.pendingSymbols_toTree] at after
        obtain ⟨later, budget, tree', f', ended⟩ :=
          ih s' (plug (expansion.toTree symbol)) (expands.built built) expands.kind
            expands.tracker after
        refine ⟨answers ++ answer :: later, budget + 1, tree', f', ?_⟩
        rw [expandWhile, if_pos (goes_on_iff.mpr goes), step, (chosen later).1]
        exact ended
      · exact stopped s goes

theorem stops_of_ended {kind : StrategyKind} {limit : Nat} {t : Tracker} {tree : Tree}
    (ended : (tree.hasPending && (some limit).all (tree.pendingCount < ·)) = false) :
    Stops kind limit t tree.pendingSymbols := by
  rw [← Bool.not_eq_true, goes_on_iff] at ended
  apply Stops.ended
  rw [Multiset.coe_card]
  omega

/-- A loop that ends has made a play that stops: where no play stops, the loop goes on. -/
theorem stops_of_done {f f' : Fuzzer γ} (valid : f.grammar.Valid) (built : f.strategy.Built)
    {tree after : Tree}
    (known : ∀ symbol ∈ tree.pendingSymbols, symbol ∈ f.grammar.symbols) {limit budget : Nat}
    (done : expandWhile .anything (some limit) budget f tree = (.done after, f')) :
    Stops f.strategy.kind limit f.tracker tree.pendingSymbols := by
  by_contra stuck
  have step : ∀ g tree, Continues f g ∧
      (∀ symbol ∈ tree.pendingSymbols, symbol ∈ f.grammar.symbols) ∧
        ¬Stops f.strategy.kind limit g.tracker tree.pendingSymbols →
      tree.hasPending = true → (some limit).all (tree.pendingCount < ·) = true →
      ∃ after g', g.expandOnce .anything tree = (.ok after, g') ∧ Continues f g' ∧
        (∀ symbol ∈ after.pendingSymbols, symbol ∈ f.grammar.symbols) ∧
        ¬Stops f.strategy.kind limit g'.tracker after.pendingSymbols := by
    rintro g tree ⟨continues, known, stuck⟩ pending _
    have offered : ∀ symbol ∈ tree.pendingSymbols,
        Phase.anything.offered g.grammar symbol ≠ [] := by
      rw [continues.grammar]
      exact fun symbol pending => valid.expansions_ne_nil (known symbol pending)
    obtain ⟨symbol, expansion, after, g', stepped, expands, replaces⟩ :=
      expandOnce_cases g .anything pending offered
    obtain ⟨others, before, now⟩ := replaces.split
    rw [Expansion.pendingSymbols_toTree] at now
    refine ⟨after, g', stepped, continues.trans expands.continues, ?_, ?_⟩
    · have listed : ∀ other ∈ (tree.pendingSymbols : Multiset Symbol),
          other ∈ f.grammar.symbols := known
      rw [before] at listed
      intro other member
      rw [← Multiset.mem_coe, now] at member
      refine forall_after listed (fun _ reference used => ?_) other member
      exact valid.references_mem (continues.grammar ▸ expands.member) used
    · intro stops
      apply stuck
      rw [now, expands.tracker] at stops
      have prefers := expands.prefers (continues.built built)
      rw [continues.kind] at prefers
      rw [before]
      exact .move prefers stops
  rcases (expandWhile_invariant step budget f tree ⟨.refl f, known, stuck⟩).2 with
    ⟨g, unfinished⟩ | ⟨last, g, _, ⟨_, _, stuck⟩, _, ended⟩
  · rw [unfinished] at done
    cases done
  · exact stuck (stops_of_ended ended)

/-- The phase of random choices can end exactly if some play stops. -/
theorem canStop_iff {config : Config} {s : Strategy} (valid : s.grammar.Valid)
    (built : s.Built) {tree : Tree}
    (known : ∀ symbol ∈ tree.pendingSymbols, symbol ∈ s.grammar.symbols) :
    CanStop config s tree ↔ Stops s.kind config.maxPending s.tracker tree.pendingSymbols := by
  constructor
  · rintro ⟨answers, budget, after, f', done⟩
    exact @stops_of_done _ _ ⟨config, s, Picks.mk answers⟩ f' valid built tree after known _ _ done
  · exact fun stops => canStop_of_stops stops s tree built rfl rfl rfl

end Fuzzer
end GrammarFuzz
