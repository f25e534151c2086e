import GrammarFuzz.Generation.Expand
import GrammarFuzz.Proofs.Choices
import GrammarFuzz.Proofs.Productivity

/-! One step and one loop of the expansion. A step replaces one pending node by an expansion
that its phase offers and the strategy prefers, and records its key; a loop keeps whatever
its steps keep. All this holds for every source of choices. -/
namespace GrammarFuzz

namespace Phase

variable {g : Grammar} {symbol : Symbol} {expansion : Expansion}

theorem ofCost_eq_filter (g : Grammar) (symbol : Symbol) (select : List Cost → Cost) :
    ofCost g symbol select = (g.expansions symbol).filter fun expansion =>
      g.expansionCost expansion {symbol} ==
          select ((g.expansions symbol).map (g.expansionCost · {symbol})) := by
  simp only [ofCost, List.filter_map, List.map_map]
  exact List.map_id _

theorem mem_ofCost {select : List Cost → Cost} : expansion ∈ ofCost g symbol select ↔
    expansion ∈ g.expansions symbol ∧
      g.expansionCost expansion {symbol} =
        select ((g.expansions symbol).map (g.expansionCost · {symbol})) := by
  rw [ofCost_eq_filter, List.mem_filter, beq_iff_eq]

theorem mem_expansions_of_mem_offered {phase : Phase}
    (member : expansion ∈ phase.offered g symbol) :
    expansion ∈ g.expansions symbol := by
  cases phase with
  | anything => exact member
  | costliest => exact (mem_ofCost.mp member).1
  | cheapest => exact (mem_ofCost.mp member).1

theorem ofCost_ne_nil {select : List Cost → Cost} (nonempty : g.expansions symbol ≠ [])
    (attains : ∀ costs : List Cost, costs ≠ [] → (∀ cost ∈ costs, cost ≤ Cost.infinite) →
      select costs ∈ costs) : ofCost g symbol select ≠ [] := by
  have listed :=
    attains ((g.expansions symbol).map (g.expansionCost · {symbol})) (by simpa using nonempty) (by
      rintro _ listed
      obtain ⟨expansion, _, rfl⟩ := List.mem_map.mp listed
      exact Grammar.stepCost_le _ _ expansion)
  obtain ⟨expansion, member, same⟩ := List.mem_map.mp listed
  exact List.ne_nil_of_mem (mem_ofCost.mpr ⟨member, same⟩)

theorem foldl_max_mem {costs : List Cost} (nonempty : costs ≠ []) : costs.foldl max 0 ∈ costs := by
  cases costs with
  | nil => contradiction
  | cons cost rest =>
      rw [List.foldl_cons, Nat.zero_max]
      exact List.max?_mem rfl

theorem foldl_min_mem {costs : List Cost} {top : Cost} (nonempty : costs ≠ [])
    (capped : ∀ cost ∈ costs, cost ≤ top) : costs.foldl min top ∈ costs := by
  cases costs with
  | nil => contradiction
  | cons cost rest =>
      rw [List.foldl_cons, Nat.min_eq_right (capped cost List.mem_cons_self)]
      exact List.min?_mem rfl

/-- No phase leaves a pending node without candidates. -/
theorem offered_ne_nil (phase : Phase) (nonempty : g.expansions symbol ≠ []) :
    phase.offered g symbol ≠ [] := by
  cases phase with
  | anything => exact nonempty
  | costliest => exact ofCost_ne_nil nonempty fun _ some _ => foldl_max_mem some
  | cheapest => exact ofCost_ne_nil nonempty fun _ some capped => foldl_min_mem some capped

end Phase

namespace Fuzzer

variable {γ : Type}

/-- What every run keeps: all but the source of choices, the coverage it adds to, and memory. -/
structure Continues (before after : Fuzzer γ) : Prop where
  grammar : after.grammar = before.grammar
  config : after.config = before.config
  kind : after.strategy.kind = before.strategy.kind
  built : before.strategy.Built → after.strategy.Built
  covered : ∀ key ∈ before.tracker.covered, key ∈ after.tracker.covered

theorem Continues.refl (f : Fuzzer γ) : Continues f f := ⟨rfl, rfl, rfl, id, fun _ => id⟩

theorem Continues.trans {first second third : Fuzzer γ} (left : Continues first second)
    (right : Continues second third) : Continues first third where
  grammar := right.grammar.trans left.grammar
  config := right.config.trans left.config
  kind := right.kind.trans left.kind
  built := right.built ∘ left.built
  covered key member := right.covered key (left.covered key member)

/-- What expanding a pending node leaves behind: an offered expansion was chosen by
preference, its key is recorded, and nothing else has changed. -/
structure Expands (f : Fuzzer γ) (phase : Phase) (symbol : Symbol) (expansion : Expansion)
    (after : Fuzzer γ) : Prop where
  offered : expansion ∈ phase.offered f.grammar symbol
  prefers : f.strategy.Built → Strategy.Prefers f.strategy.kind f.tracker symbol
    (phase.offered f.grammar symbol) expansion
  tracker : after.tracker = f.tracker.cover (Key.ofText symbol expansion.text)
  kind : after.strategy.kind = f.strategy.kind
  built : f.strategy.Built → after.strategy.Built
  config : after.config = f.config

theorem Expands.member {f after : Fuzzer γ} {phase : Phase} {symbol : Symbol}
    {expansion : Expansion}
    (expands : f.Expands phase symbol expansion after) : expansion ∈ f.grammar.expansions symbol :=
  Phase.mem_expansions_of_mem_offered expands.offered

theorem Expands.continues {f after : Fuzzer γ} {phase : Phase} {symbol : Symbol}
    {expansion : Expansion}
    (expands : f.Expands phase symbol expansion after) : Continues f after where
  grammar := (congrArg Tracker.grammar expands.tracker).trans (Tracker.grammar_cover _ _)
  config := expands.config
  kind := expands.kind
  built := expands.built
  covered key member := by
    rw [expands.tracker]
    exact Tracker.mem_covered_cover.mpr (.inl member)

/-- The fuzzer could have been made as it is. -/
def Accepted (f : Fuzzer γ) : Prop := ofSource f.source f.strategy f.config = .ok f

theorem accepted_iff {f : Fuzzer γ} : f.Accepted ↔ f.config.start ∈ f.grammar.symbols ∧
    f.grammar.unproductive? f.config.start = none := by
  unfold Accepted ofSource
  by_cases member : f.config.start ∈ f.grammar.symbols
  · rw [Grammar.require_eq_ok.mpr ⟨member, rfl⟩]
    cases found : f.grammar.unproductive? f.config.start <;> simp [member]
  · cases required : f.grammar.require f.config.start with
    | error error => simp [member]
    | ok expansions => exact absurd (Grammar.require_eq_ok.mp required).1 member

theorem Accepted.continues {f after : Fuzzer γ} (accepted : f.Accepted)
    (continues : Continues f after) :
    after.Accepted := by
  rw [accepted_iff] at *
  rwa [continues.grammar, continues.config]

variable [Chance γ]

/-- Choosing a position of the candidates expands by the offered expansion there. -/
theorem expands_of_chose {f : Fuzzer γ} {phase : Phase} {symbol : Symbol}
    {position : Fin ((phase.offered f.grammar symbol).map Expansion.toChildren).length} {after : γ}
    {expansion : Expansion}
    (found : (phase.offered f.grammar symbol)[position.val]? = some expansion)
    (member : position ∈ f.strategy.positions symbol _)
    (chosen : f.strategy.choose symbol _ f.source =
      some (position, f.strategy.chose symbol _ position, after)) :
    f.expandSymbol phase symbol = (.ok (expansion.toTree symbol),
      { f with strategy := f.strategy.chose symbol _ position, source := after }) ∧
      f.Expands phase symbol expansion
        { f with strategy := f.strategy.chose symbol _ position, source := after } := by
  obtain ⟨bound, rfl⟩ := List.getElem?_eq_some_iff.mp found
  refine ⟨?_, List.getElem_mem bound, fun built => ?_, ?_, rfl,
    fun built => .choose built chosen, rfl⟩
  · simp only [expandSymbol, chosen, Fin.getElem_fin, List.getElem_map]
    rfl
  · rw [Strategy.positions, (Strategy.answers_preferred _ built.faithful).1] at member
    exact ⟨position, member, found⟩
  · simp only [tracker, Strategy.chose, List.get_eq_getElem, List.getElem_map,
      Expansion.ofChildren_toChildren]

theorem expandSymbol_cases (f : Fuzzer γ) (phase : Phase) {symbol : Symbol}
    (offered : phase.offered f.grammar symbol ≠ []) : ∃ expansion after,
    f.expandSymbol phase symbol = (.ok (expansion.toTree symbol), after) ∧
      f.Expands phase symbol expansion after := by
  have candidates : (phase.offered f.grammar symbol).map Expansion.toChildren ≠ [] := by
    simpa using offered
  obtain ⟨position, member, source, chosen⟩ := f.strategy.choose_cases symbol candidates f.source
  have bound : position.val < (phase.offered f.grammar symbol).length := by
    simpa using position.isLt
  exact ⟨_, _, expands_of_chose (List.getElem?_eq_getElem bound) member chosen⟩

/-- Put what a step did below a node back into its place. -/
def regrow (plug : Tree → Tree) (step : Except GrammarError Tree × Fuzzer γ) :
    Except GrammarError Tree × Fuzzer γ :=
  (step.1.map plug, step.2)

omit [Chance γ] in
theorem regrow_regrow (outer inner : Tree → Tree) (step : Except GrammarError Tree × Fuzzer γ) :
    regrow outer (regrow inner step) = regrow (outer ∘ inner) step := by
  obtain ⟨_ | _, _⟩ := step <;> rfl

theorem expandOnce_pending (f : Fuzzer γ) (phase : Phase) (symbol : Symbol) :
    f.expandOnce phase (.pending symbol) = regrow id (f.expandSymbol phase symbol) := by
  rw [expandOnce, regrow]
  generalize f.expandSymbol phase symbol = step
  obtain ⟨_ | _, _⟩ := step <;> rfl

theorem expandAt_eq (f : Fuzzer γ) (phase : Phase) (children : List Tree)
    (position : Fin children.length) :
    f.expandAt phase children position.val =
      ((f.expandOnce phase (children.get position)).1.map (children.set position.val),
        (f.expandOnce phase (children.get position)).2) := by
  induction children with
  | nil => exact position.elim0
  | cons child rest ih =>
      obtain ⟨place, bound⟩ := position
      cases place with
      | zero =>
          simp only [expandAt, List.get_eq_getElem, List.getElem_cons_zero]
          generalize f.expandOnce phase child = step
          obtain ⟨_ | _, _⟩ := step <;> rfl
      | succ place =>
          have inside : place < rest.length := by simpa using bound
          have below := ih ⟨place, inside⟩
          simp only [expandAt, List.get_cons_succ, below]
          generalize f.expandOnce phase (rest.get ⟨place, inside⟩) = step
          obtain ⟨_ | _, _⟩ := step <;> rfl

/-- Below a node, a step picks a child with pending nodes and expands one of them. -/
theorem expandOnce_node {f : Fuzzer γ} {children : List Tree}
    {some : 0 < (openPositions children).length}
    {place : Fin (openPositions children).length} {source : γ} {position : Fin children.length}
    (picked : Chance.pick (openPositions children).length some f.source = (place, source))
    (found : (openPositions children).get place = position) (phase : Phase) (parent : Symbol) :
    f.expandOnce phase (.node parent children) =
      regrow (fun child => .node parent (children.set position child))
        (expandOnce { f with source } phase (children.get position)) := by
  subst found
  rw [expandOnce]
  simp only [dif_pos some, picked, expandAt_eq, regrow]
  generalize expandOnce { f with source } phase
    (children.get ((openPositions children).get place)) = step
  obtain ⟨_ | _, _⟩ := step <;> rfl

theorem mem_openPositions {children : List Tree} {position : Fin children.length} :
    position ∈ openPositions children ↔ (children.get position).hasPending = true := by
  simp [openPositions, List.mem_finRange]

theorem openPositions_pos {symbol : Symbol} {children : List Tree}
    (pending : (Tree.node symbol children).hasPending = true) :
    0 < (openPositions children).length := by
  rw [Tree.hasPending, Tree.forestHasPending_iff] at pending
  obtain ⟨child, member, opened⟩ := pending
  obtain ⟨place, bound, rfl⟩ := List.mem_iff_getElem.mp member
  have listed : (⟨place, bound⟩ : Fin children.length) ∈ openPositions children :=
    mem_openPositions.mpr opened
  exact List.length_pos_of_mem listed

/-- A step expands some pending node. Which one depends on the picks alone. -/
theorem expandOnce_descends (phase : Phase) (tree : Tree) : ∀ source : γ, tree.hasPending = true →
    ∃ symbol after plug, tree.Gap symbol plug ∧ ∀ config s,
      expandOnce ⟨config, s, source⟩ phase tree =
        regrow plug (expandSymbol ⟨config, s, after⟩ phase symbol) := by
  induction tree using Tree.induct with
  | pending symbol =>
      intro source _
      exact ⟨symbol, source, id, .here, fun config s =>
        expandOnce_pending ⟨config, s, source⟩ phase symbol⟩
  | node parent children ih =>
      intro source pending
      have some := openPositions_pos pending
      obtain ⟨⟨place, below⟩, picked⟩ :
          ∃ pair, Chance.pick (openPositions children).length some source = pair :=
        ⟨_, rfl⟩
      obtain ⟨position, found⟩ : ∃ position, (openPositions children).get place = position :=
        ⟨_, rfl⟩
      have opened := mem_openPositions.mp (found ▸ List.get_mem _ place)
      have member : children.get position ∈ children := List.get_mem children position
      obtain ⟨symbol, after, plug, gap, step⟩ := ih _ member below opened
      refine ⟨symbol, after, _, gap.within parent, fun config s => ?_⟩
      rw [@expandOnce_node _ _ ⟨config, s, source⟩ _ _ _ _ _ picked found, step, regrow_regrow]
      rfl

/-- A tree without pending nodes stays as it is. -/
theorem expandOnce_settled (f : Fuzzer γ) (phase : Phase) {tree : Tree}
    (settled : tree.hasPending = false) :
    f.expandOnce phase tree = (.ok tree, f) := by
  cases tree with
  | pending symbol => simp [Tree.hasPending] at settled
  | node parent children =>
      have none : ¬0 < (openPositions children).length := by
        intro some
        have opened := mem_openPositions.mp (List.getElem_mem some)
        have pending : (Tree.node parent children).hasPending = true := by
          rw [Tree.hasPending, Tree.forestHasPending_iff]
          exact ⟨_, List.get_mem children _, opened⟩
        rw [settled] at pending
        contradiction
      rw [expandOnce]
      exact dif_neg none

/-- Where every pending symbol is offered something, a step succeeds. -/
theorem expandOnce_cases (f : Fuzzer γ) (phase : Phase) {tree : Tree}
    (pending : tree.hasPending = true)
    (offered : ∀ symbol ∈ tree.pendingSymbols, phase.offered f.grammar symbol ≠ []) :
    ∃ symbol expansion after f', f.expandOnce phase tree = (.ok after, f') ∧
      f.Expands phase symbol expansion f' ∧
      Tree.Replaces symbol (expansion.toTree symbol) tree after := by
  obtain ⟨symbol, source, plug, gap, step⟩ := expandOnce_descends phase tree f.source pending
  have step : f.expandOnce phase tree = regrow plug (expandSymbol { f with source } phase symbol) :=
    step f.config f.strategy
  obtain ⟨expansion, f', result, expands⟩ := expandSymbol_cases { f with source } phase
    (offered symbol (gap.replaces (.pending symbol)).mem_pendingSymbols)
  refine ⟨symbol, expansion, plug (expansion.toTree symbol), f', ?_, ?_, gap.replaces _⟩
  · rw [step, result]
    rfl
  · exact ⟨expands.offered, expands.prefers, expands.tracker, expands.kind, expands.built,
      expands.config⟩

/-! Loops. -/

/-- The trees at the heads of a loop, the one it ends with included. -/
def treesWhile (phase : Phase) (limit : Option Nat) : Nat → Fuzzer γ → Tree → List Tree
  | budget, f, tree =>
      if tree.hasPending && limit.all (tree.pendingCount < ·) then
        match budget with
        | 0 => [tree]
        | budget + 1 =>
            match f.expandOnce phase tree with
            | (.ok next, f) => tree :: treesWhile phase limit budget f next
            | (.error _, _) => [tree]
      else [tree]

theorem expandWhile_stop {phase : Phase} {limit : Option Nat} {tree : Tree} (budget : Nat)
    (f : Fuzzer γ) (ended : (tree.hasPending && limit.all (tree.pendingCount < ·)) = false) :
    expandWhile phase limit budget f tree = (.done tree, f) ∧
    treesWhile phase limit budget f tree = [tree] := by
  unfold expandWhile treesWhile
  rw [if_neg (by simp [ended]), if_neg (by simp [ended])]
  exact ⟨rfl, rfl⟩

theorem expandWhile_settled {tree : Tree} (settled : tree.hasPending = false) (phase : Phase)
    (limit : Option Nat)
    (budget : Nat) (f : Fuzzer γ) : expandWhile phase limit budget f tree = (.done tree, f) :=
  (expandWhile_stop budget f (by rw [settled, Bool.false_and])).1

/-- What holds at the start and survives each step holds at every head of the loop and in
the end; the loop fails at no step. -/
theorem expandWhile_invariant {phase : Phase} {limit : Option Nat} {motive : Fuzzer γ → Tree → Prop}
    (step : ∀ f tree, motive f tree → tree.hasPending = true →
      limit.all (tree.pendingCount < ·) = true →
      ∃ after f', f.expandOnce phase tree = (.ok after, f') ∧ motive f' after)
    (budget : Nat) : ∀ (f : Fuzzer γ) (tree : Tree), motive f tree →
      (∀ passed ∈ treesWhile phase limit budget f tree, ∃ f', motive f' passed) ∧
      ((∃ f', expandWhile phase limit budget f tree = (.unfinished, f')) ∨
        ∃ after f', expandWhile phase limit budget f tree = (.done after, f') ∧ motive f' after ∧
          after ∈ treesWhile phase limit budget f tree ∧
          (after.hasPending && limit.all (after.pendingCount < ·)) = false) := by
  induction budget with
  | zero =>
      intro f tree holds
      unfold treesWhile expandWhile
      split
      · exact ⟨by simpa using ⟨f, holds⟩, .inl ⟨f, rfl⟩⟩
      · rename_i ended
        exact ⟨by simpa using ⟨f, holds⟩, .inr ⟨tree, f, rfl, holds, by simp, by simpa using ended⟩⟩
  | succ budget ih =>
      intro f tree holds
      unfold treesWhile expandWhile
      by_cases goes : (tree.hasPending && limit.all (tree.pendingCount < ·)) = true
      · obtain ⟨pending, below⟩ := Bool.and_eq_true_iff.mp goes
        obtain ⟨next, f', stepped, kept⟩ := step f tree holds pending below
        obtain ⟨heads, ends⟩ := ih f' next kept
        simp only [goes, if_true, stepped]
        constructor
        · intro passed member
          rcases List.mem_cons.mp member with rfl | later
          · exact ⟨f, holds⟩
          · exact heads passed later
        · rcases ends with unfinished | ⟨after, g, done, last, listed, ended⟩
          · exact .inl unfinished
          · exact .inr ⟨after, g, done, last, List.mem_cons_of_mem tree listed, ended⟩
      · simp only [goes]
        exact ⟨by simpa using ⟨f, holds⟩, .inr ⟨tree, f, rfl, holds, by simp, by simpa using goes⟩⟩

/-- The trees that deriving one tree passes, phase after phase. -/
def treesPassed (f : Fuzzer γ) (budget : Nat) : List Tree :=
  treesWhile .costliest (some f.config.minPending) budget f f.initialTree ++
    match expandWhile .costliest (some f.config.minPending) budget f f.initialTree with
    | (.done tree, f) =>
        treesWhile .anything (some f.config.maxPending) budget f tree ++
          match expandWhile .anything (some f.config.maxPending) budget f tree with
          | (.done tree, f) => treesWhile .cheapest none budget f tree
          | _ => []
    | _ => []

theorem fuzzTree_invariant {motive : Fuzzer γ → Tree → Prop}
    (step : ∀ (phase : Phase) f tree, motive f tree → tree.hasPending = true →
      ∃ after f', f.expandOnce phase tree = (.ok after, f') ∧ motive f' after)
    {f : Fuzzer γ} (start : motive f f.initialTree) (budget : Nat) :
    (∀ passed ∈ f.treesPassed budget, ∃ f', motive f' passed) ∧
      ((∃ f', f.fuzzTree budget = (.unfinished, f')) ∨
        ∃ after f', f.fuzzTree budget = (.done after, f') ∧ motive f' after ∧
          after.hasPending = false) := by
  have loop (phase : Phase) (limit : Option Nat) := @expandWhile_invariant γ _ phase limit motive
    (fun f tree holds pending _ => step phase f tree holds pending) budget
  obtain ⟨first, ends⟩ := loop .costliest (some f.config.minPending) f f.initialTree start
  unfold treesPassed fuzzTree expandTree
  simp only [List.mem_append]
  rcases ends with ⟨f', stopped⟩ | ⟨tree, f', done, holds, _, _⟩
  · simp only [stopped]
    exact ⟨by simpa using first, .inl ⟨f', rfl⟩⟩
  · obtain ⟨second, ends⟩ := loop .anything (some f'.config.maxPending) f' tree holds
    simp only [done, List.mem_append]
    rcases ends with ⟨f'', stopped⟩ | ⟨tree, f'', done, holds, _, _⟩
    · simp only [stopped]
      refine ⟨fun passed member => ?_, .inl ⟨f'', rfl⟩⟩
      rcases member with early | later
      · exact first passed early
      · exact second passed (by simpa using later)
    · obtain ⟨third, ends⟩ := loop .cheapest none f'' tree holds
      simp only [done]
      refine ⟨fun passed member => ?_, ?_⟩
      · rcases member with early | middle | late
        · exact first passed early
        · exact second passed middle
        · exact third passed late
      · rcases ends with unfinished | ⟨after, g, done, holds, _, ended⟩
        · exact .inl unfinished
        · exact .inr ⟨after, g, done, holds, by simpa using ended⟩

end Fuzzer
end GrammarFuzz
