import GrammarFuzz.Random.Script
import GrammarFuzz.Proofs.Exposure
import GrammarFuzz.Proofs.LeastCost
import GrammarFuzz.Proofs.Steps

/-! One step touches one pending node. A step goes down to a pending node through nodes with pending
nodes below them, and either the node has no rule and nothing is touched, or its expansion takes
its place and the node at every path that does not lead through it is what it was. The tree may
have any shape. -/
namespace GrammarFuzz

namespace Tree

/-- What stands at a node itself: its symbol, and the number of its children unless it is
pending. -/
def label : Tree → Symbol × Option Nat
  | pending symbol => (symbol, none)
  | node symbol children => (symbol, some children.length)

variable {symbol : Symbol} {tree subtree : Tree} {plug : Tree → Tree} {path : List Nat}

/-- A path to a pending node, with what is there when another tree takes the place of the node. -/
structure Spot (symbol : Symbol) (tree : Tree) (plug : Tree → Tree) (path : List Nat) : Prop where
  pending : tree.at? path = some (.pending symbol)
  /-- Every node on the way has a pending node at or below it. -/
  leads {way : List Nat} : way <+: path → ∃ node, tree.at? way = some node ∧ node.hasPending = true
  plugged (subtree : Tree) : (plug subtree).at? path = some subtree
  apart (subtree : Tree) {other : List Nat} : ¬path <+: other →
    ((plug subtree).at? other).map label = (tree.at? other).map label

theorem Spot.here (symbol : Symbol) : Spot symbol (.pending symbol) id [] where
  pending := rfl
  leads within := by
    obtain rfl := List.prefix_nil.mp within
    exact ⟨_, rfl, rfl⟩
  plugged _ := rfl
  apart _ _ apart := absurd List.nil_prefix apart

theorem Spot.within {children : List Tree} {position : Fin children.length}
    (spot : Spot symbol (children.get position) plug path) (parent : Symbol) :
    Spot symbol (.node parent children)
      (fun subtree => .node parent (children.set position (plug subtree)))
      (position.val :: path) where
  pending := (at?_cons parent position path).trans spot.pending
  leads {way} within := by
    cases way with
    | nil =>
        obtain ⟨child, found, opened⟩ := spot.leads List.nil_prefix
        obtain rfl : children.get position = child := Option.some.inj found
        exact ⟨_, rfl, (forestHasPending_iff children).mpr
          ⟨_, List.get_mem children position, opened⟩⟩
    | cons first way =>
        obtain ⟨rfl, inner⟩ := List.cons_prefix_cons.mp within
        rw [at?_cons]
        exact spot.leads inner
  plugged subtree := by
    rw [at?, Tree.children, List.getElem?_set_self position.isLt]
    exact spot.plugged subtree
  apart subtree {other} apart := by
    cases other with
    | nil => simp only [at?, Option.map_some, label, List.length_set]
    | cons first other =>
        by_cases same : position.val = first
        · subst same
          have inner : ¬path <+: other :=
            fun within => apart (List.cons_prefix_cons.mpr ⟨rfl, within⟩)
          rw [at?, Tree.children, List.getElem?_set_self position.isLt, at?_cons]
          exact spot.apart subtree inner
        · simp only [at?, Tree.children, List.getElem?_set_ne same]

theorem Gap.exists_spot (gap : Gap symbol tree plug) : ∃ path, Spot symbol tree plug path := by
  induction gap with
  | here => exact ⟨[], .here symbol⟩
  | within parent _ ih =>
      obtain ⟨path, spot⟩ := ih
      exact ⟨_, spot.within parent⟩

/-- Replacing a pending node changes the number of pending nodes by those of the new tree. -/
theorem Replaces.pendingCount {before after : Tree}
    (replaces : Replaces symbol subtree before after) :
    after.pendingCount + 1 = before.pendingCount + subtree.pendingCount := by
  obtain ⟨others, was, now⟩ := replaces.split
  have was := congrArg Multiset.card was
  have now := congrArg Multiset.card now
  rw [Multiset.card_cons, Multiset.coe_card] at was
  rw [Multiset.card_add, Multiset.coe_card, Multiset.coe_card] at now
  rw [pendingCount_eq, pendingCount_eq, pendingCount_eq]
  omega

/-- The pending node at a path was expanded, and nothing else in the tree has changed. -/
structure ExpandsAt (path : List Nat) (symbol : Symbol) (expansion : Expansion)
    (before after : Tree) : Prop where
  expanded : after.at? path = some (.node symbol expansion.toChildren)
  apart {other : List Nat} : ¬path <+: other →
    (after.at? other).map label = (before.at? other).map label
  count : after.pendingCount + 1 = before.pendingCount + expansion.references.length

theorem Spot.expandsAt (spot : Spot symbol tree plug path) (gap : Gap symbol tree plug)
    (expansion : Expansion) :
    ExpandsAt path symbol expansion tree (plug (expansion.toTree symbol)) where
  expanded := spot.plugged _
  apart := spot.apart _
  count := by
    rw [(gap.replaces (expansion.toTree symbol)).pendingCount,
      pendingCount_eq (expansion.toTree symbol), expansion.pendingSymbols_toTree]

end Tree

namespace Phase

variable {g : Grammar} {symbol : Symbol} {expansion : Expansion}

/-- The expansion has the cost that the phase is after, among all of its symbol. -/
def Targets (phase : Phase) (g : Grammar) (symbol : Symbol) (expansion : Expansion) : Prop :=
  (phase = .costliest → ∀ other ∈ g.expansions symbol,
    g.expansionCost other {symbol} ≤ g.expansionCost expansion {symbol}) ∧
  (phase = .cheapest → ∀ other ∈ g.expansions symbol,
    g.expansionCost expansion {symbol} ≤ g.expansionCost other {symbol})

theorem targets_of_mem_offered {phase : Phase} (offered : expansion ∈ phase.offered g symbol) :
    phase.Targets g symbol expansion := by
  constructor
  · rintro rfl other listed
    rw [(mem_ofCost.mp offered).2, List.foldl_map]
    exact (foldl_max_spec (g.expansionCost · {symbol}) _ 0).2.1 other listed
  · rintro rfl other listed
    rw [(mem_ofCost.mp offered).2, List.foldl_map]
    exact Grammar.foldl_min_le (g.expansionCost · {symbol}) listed _

end Phase

variable {γ : Type} [Chance γ]

/-- Without candidates no position can be preferred, so none is chosen. -/
theorem Strategy.choose_of_nil (s : Strategy) (symbol : Symbol) {candidates : List (List Tree)}
    (none : candidates = []) (source : γ) : s.choose symbol candidates source = Option.none := by
  subst none
  have empty : s.positions symbol [] = [] :=
    List.eq_nil_iff_forall_not_mem.mpr fun position _ => position.elim0
  have short : ¬0 < (s.positions symbol []).length := by
    simp only [empty, List.length_nil, Nat.lt_irrefl, not_false_eq_true]
  exact dif_neg short

namespace Fuzzer

theorem expandSymbol_unknown (f : Fuzzer γ) (phase : Phase) {symbol : Symbol}
    (absent : symbol ∉ f.grammar.symbols) :
    f.expandSymbol phase symbol = (.error (.unknownSymbol symbol), f) := by
  have none : (phase.offered f.grammar symbol).map Expansion.toChildren = [] := by
    refine List.map_eq_nil_iff.mpr
      (List.eq_nil_iff_forall_not_mem.mpr fun expansion offered => absent ?_)
    exact Grammar.mem_symbols_of_expansion (Phase.mem_expansions_of_mem_offered offered)
  have missed := f.strategy.choose_of_nil symbol none f.source
  rw [expandSymbol, missed]

/-! A step in place. -/

mutual

/-- Expand one pending node of a tree in place: how the step ends, and the tree that is there
then. -/
def expandIn (f : Fuzzer γ) (phase : Phase) : Tree → (Except GrammarError Unit × Tree) × Fuzzer γ
  | .pending symbol =>
      match f.expandSymbol phase symbol with
      | (.ok expanded, f) => ((.ok (), expanded), f)
      | (.error error, f) => ((.error error, .pending symbol), f)
  | .node symbol children =>
      let positions := openPositions children
      if some? : 0 < positions.length then
        let picked := Chance.pick positions.length some? f.source
        let below := expandInAt { f with source := picked.2 } phase children positions[picked.1].val
        ((below.1.1, .node symbol below.1.2), below.2)
      else ((.ok (), .node symbol children), f)

/-- Expand one pending node of the tree at a position, in place. -/
def expandInAt (f : Fuzzer γ) (phase : Phase) :
    List Tree → Nat → (Except GrammarError Unit × List Tree) × Fuzzer γ
  | [], _ => ((.ok (), []), f)
  | tree :: rest, 0 =>
      let here := expandIn f phase tree
      ((here.1.1, here.1.2 :: rest), here.2)
  | tree :: rest, position + 1 =>
      let later := expandInAt f phase rest position
      ((later.1.1, tree :: later.1.2), later.2)

end

/-- What is there after a step that gave a new value or failed. -/
def settle {α : Type} (before : α) (step : Except GrammarError α × Fuzzer γ) :
    (Except GrammarError Unit × α) × Fuzzer γ :=
  ((step.1.map fun _ => (), step.1.toOption.getD before), step.2)

omit [Chance γ] in
theorem settle_regrow {plug : Tree → Tree} {inner outer : Tree} (same : plug inner = outer)
    (step : Except GrammarError Tree × Fuzzer γ) :
    settle outer (regrow plug step) =
      ((settle inner step).1.map id plug, (settle inner step).2) := by
  subst same
  obtain ⟨_ | _, _⟩ := step <;> rfl

theorem expandInAt_eq (f : Fuzzer γ) (phase : Phase) (children : List Tree)
    (position : Fin children.length) :
    f.expandInAt phase children position.val =
      ((f.expandIn phase (children.get position)).1.map id (children.set position.val),
        (f.expandIn phase (children.get position)).2) := by
  induction children with
  | nil => exact position.elim0
  | cons child rest ih =>
      obtain ⟨place, bound⟩ := position
      cases place with
      | zero => rfl
      | succ place =>
          have inside : place < rest.length := by simpa using bound
          rw [expandInAt, ih ⟨place, inside⟩]
          rfl

/-- Done in place, a step leaves what it gives, and the tree as it was if it fails. -/
theorem expandIn_eq (phase : Phase) (tree : Tree) : ∀ f : Fuzzer γ,
    f.expandIn phase tree = settle tree (f.expandOnce phase tree) := by
  induction tree using Tree.induct with
  | pending symbol =>
      intro f
      rw [expandIn, expandOnce]
      generalize f.expandSymbol phase symbol = step
      obtain ⟨_ | _, _⟩ := step <;> rfl
  | node parent children ih =>
      intro f
      by_cases some : 0 < (openPositions children).length
      · obtain ⟨⟨place, source⟩, picked⟩ :
            ∃ pair, Chance.pick (openPositions children).length some f.source = pair :=
          ⟨_, rfl⟩
        obtain ⟨position, found⟩ : ∃ position, (openPositions children).get place = position :=
          ⟨_, rfl⟩
        have same : Tree.node parent (children.set position (children.get position)) =
            .node parent children := by
          rw [List.get_eq_getElem, List.set_getElem_self]
        have below := ih _ (List.get_mem children position) { f with source }
        rw [expandOnce_node picked found phase parent, settle_regrow same, ← below, expandIn]
        have here : (openPositions children)[place] = position := found
        simp only [dif_pos some, picked, here, expandInAt_eq]
        rfl
      · rw [expandIn, expandOnce]
        simp only [dif_neg some]
        rfl

/-- With nothing pending a step changes nothing. Otherwise it goes down to one pending node. Where
the symbol of the node has no rule the step fails, having made its picks; else it succeeds, the node
is expanded by an expansion of the cost that the phase is after, and all else in the tree is as it
was. Done in place, a step that fails leaves the whole tree as it was. -/
theorem expandOnce_touches_one {f : Fuzzer γ} (valid : f.grammar.Valid) (phase : Phase)
    (tree : Tree) :
    (tree.hasPending = false → f.expandOnce phase tree = (.ok tree, f)) ∧
    (tree.hasPending = true → ∃ path symbol source, tree.at? path = some (.pending symbol) ∧
      (∀ way, way <+: path → ∃ node, tree.at? way = some node ∧ node.hasPending = true) ∧
      (symbol ∉ f.grammar.symbols ∧
          f.expandOnce phase tree = (.error (.unknownSymbol symbol), { f with source }) ∨
        symbol ∈ f.grammar.symbols ∧ ∃ expansion after f',
          f.expandOnce phase tree = (.ok after, f') ∧
          expansion ∈ f.grammar.expansions symbol ∧ phase.Targets f.grammar symbol expansion ∧
          tree.ExpandsAt path symbol expansion after ∧
          f'.tracker = f.tracker.cover (Key.ofText symbol expansion.text) ∧ f'.config = f.config)) ∧
    f.expandIn phase tree = settle tree (f.expandOnce phase tree) := by
  refine ⟨f.expandOnce_settled phase, fun pending => ?_, expandIn_eq phase tree f⟩
  obtain ⟨symbol, source, plug, gap, step⟩ := expandOnce_descends phase tree f.source pending
  have step : f.expandOnce phase tree = regrow plug (expandSymbol { f with source } phase symbol) :=
    step f.config f.strategy
  obtain ⟨path, spot⟩ := gap.exists_spot
  refine ⟨path, symbol, source, spot.pending, fun way => spot.leads, ?_⟩
  by_cases known : symbol ∈ f.grammar.symbols
  · obtain ⟨expansion, f', expanded, expands⟩ := expandSymbol_cases { f with source } phase
      (Phase.offered_ne_nil phase (valid.expansions_ne_nil known))
    refine .inr ⟨known, expansion, plug (expansion.toTree symbol), f', ?_, expands.member,
      Phase.targets_of_mem_offered expands.offered, spot.expandsAt gap expansion, expands.tracker,
      expands.config⟩
    rw [step, expanded]
    rfl
  · refine .inl ⟨known, ?_⟩
    rw [step, expandSymbol_unknown { f with source } phase known]
    rfl

/-- A tree that is no derivation, with a symbol that has no rule. -/
def stray : Tree := .node "row" [.pending "<term>", .leaf "+", .node "" [.pending "<nope>"]]

def strayFuzzer (word : UInt64) : Fuzzer Script where
  config := {}
  strategy := .new .immediate Grammar.sums
  source := .ofWords [word]

theorem stray_touched : Grammar.sums.Valid ∧ stray.hasPending = true ∧
    (∃ path symbol expansion after f', (strayFuzzer 0).expandOnce .cheapest stray =
      (.ok after, f') ∧
      stray.ExpandsAt path symbol expansion after ∧ after.text = "x+<nope>") ∧
    ∃ source, (strayFuzzer 9223372036854775808).expandIn .cheapest stray =
      ((.error (.unknownSymbol "<nope>"), stray),
        { strayFuzzer 9223372036854775808 with source }) := by
  have valid : Grammar.sums.Valid := by decide +kernel
  have pending : stray.hasPending = true := by decide +kernel
  have first : ((strayFuzzer 0).expandOnce .cheapest stray).1.map Tree.text = .ok "x+<nope>" := by
    decide +kernel
  have second : ((strayFuzzer 9223372036854775808).expandOnce .cheapest stray).1 =
      .error (.unknownSymbol "<nope>") := by
    decide +kernel
  refine ⟨valid, pending, ?_, ?_⟩
  · obtain ⟨_, step, _⟩ := expandOnce_touches_one (f := strayFuzzer 0) valid .cheapest stray
    obtain ⟨path, symbol, source, _, _,
        ⟨_, failed⟩ | ⟨_, expansion, after, f', stepped, _, _, expands, _⟩⟩ := step pending
    · rw [failed] at first
      contradiction
    · rw [stepped] at first
      exact ⟨path, symbol, expansion, after, f', stepped, expands, Except.ok.inj first⟩
  · obtain ⟨_, step, inPlace⟩ :=
        expandOnce_touches_one (f := strayFuzzer 9223372036854775808) valid .cheapest stray
    obtain ⟨path, symbol, source, _, _, ⟨_, failed⟩ | ⟨_, expansion, after, f', stepped, _⟩⟩ :=
      step pending
    · rw [failed] at second inPlace
      obtain rfl := GrammarError.unknownSymbol.inj (Except.error.inj second)
      exact ⟨source, inPlace⟩
    · rw [stepped] at second
      contradiction

end Fuzzer
end GrammarFuzz
