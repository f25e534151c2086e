import Mathlib.Data.ENat.Lattice
import GrammarFuzz.Proofs.Growth
import GrammarFuzz.Proofs.Productivity

/-! The cost of a symbol is the least size of a derivation. The costs forbid every symbol on the
path to come up again, and sizes are those of all trees; the two agree because a tree in which a
symbol comes up again is no smaller than the one below the last time. -/
namespace GrammarFuzz

/-- No nonterminal among the symbols comes up below the root. -/
def Tree.Avoids (tree : Tree) (symbols : SymbolSet) : Prop :=
  ∀ child ∈ tree.children, ∀ node : Tree, node.IsSubtree child →
    isNonterminal node.symbol = true → node.symbol ∉ symbols

namespace Grammar

variable {g : Grammar} {symbol : Symbol} {seen : SymbolSet} {expansion : Expansion} {tree : Tree}

theorem foldl_min_le {α : Type} (f : α → Nat) {items : List α} {item : α} (member : item ∈ items) :
    ∀ start, items.foldl (fun least item => min least (f item)) start ≤ f item := by
  induction items with
  | nil => contradiction
  | cons first rest ih =>
      intro start
      rcases List.mem_cons.mp member with rfl | later
      · refine List.foldlRecOn (motive := fun least => least ≤ f item) rest _
          (Nat.min_le_right _ _) ?_
        exact fun least bound _ _ => Nat.le_trans (Nat.min_le_left _ _) bound
      · exact ih later _

theorem foldl_capped_le {top : Nat} (costOf : Symbol → Nat) (references : List Symbol) :
    ∀ start : Nat,
    references.foldl (fun total symbol => min top (total + costOf symbol)) start ≤
      start + (references.map costOf).sum := by
  induction references with
  | nil => simp
  | cons first rest ih =>
      intro start
      have later := ih (min top (start + costOf first))
      simp only [List.foldl_cons, List.map_cons, List.sum_cons]
      omega

/-- An expansion is blocked only by its own references. -/
theorem stepCost_le_sum (costOf : Symbol → Cost)
    (unseen : ∀ symbol ∈ expansion.references, symbol ∉ seen) :
    stepCost costOf seen expansion ≤ 1 + (expansion.references.map costOf).sum := by
  rw [stepCost, if_neg]
  · exact foldl_capped_le costOf _ 1
  · intro found
    obtain ⟨symbol, member, inside⟩ := blocked_iff.mp found
    exact unseen symbol member inside

theorem unseen_of_finite {costOf : Symbol → Cost}
    (finite : stepCost costOf seen expansion < Cost.infinite) :
    ∀ symbol ∈ expansion.references, symbol ∉ seen := by
  intro symbol member inside
  have blocked : stepCost costOf seen expansion = Cost.infinite :=
    if_pos (blocked_iff.mpr ⟨symbol, member, inside⟩)
  exact absurd (blocked ▸ finite) (Nat.lt_irrefl _)

theorem stepCost_congr {left right : Symbol → Cost}
    (same : ∀ symbol ∈ expansion.references, symbol ∉ seen → left symbol = right symbol) :
    stepCost left seen expansion = stepCost right seen expansion := by
  unfold stepCost
  split
  · rfl
  · rename_i unseen
    refine List.foldl_ext _ _ _ fun total symbol member => ?_
    rw [same symbol member fun inside => unseen (blocked_iff.mpr ⟨symbol, member, inside⟩)]

/-- No tree that avoids the symbols above is smaller than the cost. The symbols not seen yet are
as many as the levels that can still come. -/
theorem costWithin_le_expandedCount (valid : g.Valid) (depth : Nat) :
    ∀ {seen : SymbolSet} {tree : Tree},
    tree.Complete g → isNonterminal tree.symbol = true → tree.Avoids (seen.insert tree.symbol) →
    g.unentered (seen.insert tree.symbol) < depth →
    g.costWithin depth seen tree.symbol ≤ tree.expandedCount := by
  induction depth with
  | zero => omega
  | succ depth ih =>
      intro seen tree complete root avoids room
      cases complete with
      | leaf terminal =>
          rw [Tree.symbol, terminal] at root
          contradiction
      | @node symbol expansion children _ listed fits below =>
          have each : ∀ child ∈ Tree.branches children, child.symbol ∉ seen.insert symbol ∧
              g.costWithin depth (seen.insert symbol) child.symbol ≤ child.expandedCount := by
            intro child branch
            obtain ⟨member, closed⟩ := Tree.mem_branches.mp branch
            have used : child.symbol ∈ expansion.references :=
              Expansion.map_symbol_branches fits ▸ List.mem_map_of_mem branch
            have absent := avoids child member child (.root child) closed
            have fewer := unentered_insert (valid.references_mem listed used) absent
            obtain ⟨last, inside, same, none⟩ :=
              Tree.exists_last child.symbol child ⟨child, .root child, rfl⟩
            have least :=
              @ih (seen.insert symbol) last (.of_isSubtree inside (below child member))
                (same ▸ closed)
            rw [same] at least
            refine ⟨absent,
              Nat.le_trans (least ?_ (Nat.lt_of_lt_of_le fewer (Nat.le_of_lt_succ room)))
              inside.expandedCount_le⟩
            intro grandchild lower node deep named again
            rcases mem_insert_iff.mp again with again | again
            · exact none grandchild lower node deep again.symm
            · refine avoids child member node (Tree.IsSubtree.trans ?_ inside) named again
              exact Tree.isSubtree_iff.mpr (.inr ⟨grandchild, lower, deep⟩)
          have unseen : ∀ reference ∈ expansion.references, reference ∉ seen.insert symbol := by
            rw [← Expansion.map_symbol_branches fits]
            rintro _ listed
            obtain ⟨child, branch, rfl⟩ := List.mem_map.mp listed
            exact (each child branch).1
          calc g.costWithin (depth + 1) seen symbol
            _ ≤ stepCost (g.costWithin depth (seen.insert symbol)) (seen.insert symbol)
                expansion := by
                rw [costWithin_succ (mem_symbols_of_expansion listed)]
                exact foldl_min_le _ listed _
            _ ≤ 1 + (expansion.references.map (g.costWithin depth (seen.insert symbol))).sum :=
                stepCost_le_sum _ unseen
            _ ≤ 1 + ((Tree.branches children).map Tree.expandedCount).sum := by
                rw [← Expansion.map_symbol_branches fits, List.map_map]
                exact Nat.add_le_add_left (List.sum_le_sum fun child branch =>
                  (each child branch).2) 1
            _ = (Tree.node symbol children).expandedCount := by
                rw [Tree.sum_branches below, Tree.expandedCount_node (Tree.ne_nil_of_fits fits)]

/-- Trees for the references of an expansion make one tree of its symbol. -/
theorem exists_complete_node (closed : isNonterminal symbol = true)
    (listed : expansion ∈ g.expansions symbol) {grown : Symbol → Tree}
    (complete : ∀ reference ∈ expansion.references, (grown reference).Complete g)
    (same : ∀ reference ∈ expansion.references, (grown reference).symbol = reference) :
    ∃ tree : Tree,
      tree.Complete g ∧ tree.symbol = symbol ∧
      (∀ child ∈ tree.children, (∃ reference ∈ expansion.references, child = grown reference) ∨
        ∃ text, isNonterminal text = false ∧ child = .leaf text) ∧
      tree.expandedCount = 1 + (expansion.references.map fun reference =>
        (grown reference).expandedCount).sum := by
  obtain ⟨children, fits, sorted⟩ := expansion.exists_children grown same
  have below : ∀ child ∈ children, child.Complete g := by
    intro child member
    rcases sorted child member with ⟨reference, used, rfl⟩ | ⟨text, terminal, rfl⟩
    · exact complete reference used
    · exact .leaf terminal
  refine ⟨.node symbol children, .node closed listed fits below, rfl, sorted, ?_⟩
  rw [Tree.expandedCount_node (Tree.ne_nil_of_fits fits), ← Tree.sum_branches below,
    ← Expansion.map_symbol_branches fits, List.map_map]
  congr 2
  refine List.map_congr_left fun child branch => ?_
  obtain ⟨member, named⟩ := Tree.mem_branches.mp branch
  rcases sorted child member with ⟨reference, used, rfl⟩ | ⟨text, terminal, rfl⟩
  · rw [Function.comp_apply, same reference used]
  · rw [Tree.symbol, terminal] at named
    contradiction

/-- A cost below the cap is the size of a tree. -/
theorem exists_expandedCount_eq (valid : g.Valid) (depth : Nat) :
    ∀ {seen : SymbolSet} {symbol : Symbol},
    symbol ∈ g.symbols → g.costWithin depth seen symbol < Cost.infinite →
    ∃ tree : Tree, tree.Complete g ∧
      tree.symbol = symbol ∧ tree.Avoids (seen.insert symbol) ∧
      tree.expandedCount = g.costWithin depth seen symbol := by
  induction depth with
  | zero => exact fun _ finite => absurd finite (Nat.lt_irrefl _)
  | succ depth ih =>
      intro seen symbol member finite
      rw [costWithin_succ member] at finite ⊢
      obtain ⟨expansion, listed, attained⟩ := foldl_min_attained _ _ finite
      rw [← attained] at finite ⊢
      have total := stepCost_of_finite finite
      have unseen := unseen_of_finite finite
      have each : ∀ reference ∈ expansion.references, ∃ tree : Tree, tree.Complete g ∧
          tree.symbol = reference ∧
          tree.Avoids ((seen.insert symbol).insert reference) ∧
          tree.expandedCount = g.costWithin depth (seen.insert symbol) reference := by
        intro reference used
        refine ih (valid.references_mem listed used) (Nat.lt_of_le_of_lt ?_ finite)
        have part : g.costWithin depth (seen.insert symbol) reference ≤ _ :=
          List.le_sum_of_mem (List.mem_map_of_mem used)
        rw [total]
        exact Nat.le_trans part (Nat.le_add_left _ 1)
      have : Nonempty Tree := ⟨.leaf ""⟩
      choose! grown complete root avoids sized using each
      obtain ⟨tree, whole, same, sorted, counted⟩ :=
        exists_complete_node (valid.closed member) listed complete root
      refine ⟨tree, whole, same, fun child below node inside named again => ?_, ?_⟩
      · rcases sorted child below with ⟨reference, used, rfl⟩ | ⟨text, terminal, rfl⟩
        · rcases Tree.isSubtree_iff.mp inside with rfl | ⟨grandchild, lower, deep⟩
          · exact unseen _ (by rwa [root reference used]) again
          · exact avoids reference used grandchild lower node deep named
              (mem_insert_iff.mpr (.inr again))
        · rcases Tree.isSubtree_node.mp inside with rfl | ⟨_, none, _⟩
          · rw [Tree.symbol, terminal] at named
            contradiction
          · contradiction
      · rw [counted, total, List.map_congr_left sized]

/-! The cost of a symbol. -/

/-- More depth than there are symbols to come changes nothing. -/
theorem costWithin_stable (valid : g.Valid) (member : symbol ∈ g.symbols) {less more : Nat}
    (deeper : less ≤ more) (room : g.unentered (seen.insert symbol) < less) :
    g.costWithin more seen symbol = g.costWithin less seen symbol := by
  refine Nat.le_antisymm (costWithin_mono less symbol deeper fun _ => id) ?_
  rcases Nat.lt_or_ge (g.costWithin more seen symbol) Cost.infinite with finite | infinite
  · obtain ⟨tree, complete, rfl, avoids, sized⟩ := exists_expandedCount_eq valid more member finite
    rw [← sized]
    exact costWithin_le_expandedCount valid less complete (valid.closed member) avoids room
  · exact Nat.le_trans (costWithin_le _ _ _) infinite

/-- What the references of a form cost together. -/
def formCost (g : Grammar) (form : List Part) : Nat :=
  ((form.filterMap Part.symbol?).map (g.symbolCost · ∅)).sum

theorem formCost_append (left right : List Part) :
    g.formCost (left ++ right) = g.formCost left + g.formCost right := by
  rw [formCost, List.filterMap_append, List.map_append, List.sum_append]
  rfl

theorem formCost_cons (symbol : Symbol) (form : List Part) :
    g.formCost (.nonterminal symbol :: form) = g.symbolCost symbol ∅ + g.formCost form := rfl

theorem formCost_eq_zero {form : List Part} (settled : ∀ symbol, .nonterminal symbol ∉ form) :
    g.formCost form = 0 := by
  have none : form.filterMap Part.symbol? = [] := by
    refine List.filterMap_eq_nil_iff.mpr fun part inside => ?_
    cases part with
    | terminal => rfl
    | nonterminal symbol => exact absurd inside (settled symbol)
  rw [formCost, none]
  rfl

section Valid

variable (valid : g.Valid)
include valid

/-- The cost of a symbol is that of its cheapest expansion: the depth cuts nothing off. -/
theorem symbolCost_eq_foldl (member : symbol ∈ g.symbols) : g.symbolCost symbol seen =
    (g.expansions symbol).foldl (fun least expansion =>
      min least (g.expansionCost expansion (seen.insert symbol)))
      Cost.infinite := by
  rw [symbolCost, costWithin_succ member]
  refine List.foldl_ext _ _ _ fun least expansion listed => ?_
  rw [expansionCost, stepCost_congr fun reference used absent => ?_]
  have fewer := unentered_insert (valid.references_mem listed used) absent
  exact (costWithin_stable valid (valid.references_mem listed used) (Nat.le_succ _)
    (Nat.lt_of_lt_of_le fewer (unentered_le _))).symm

theorem symbolCost_le_of_avoids (complete : tree.Complete g)
    (root : isNonterminal tree.symbol = true)
    (avoids : tree.Avoids (seen.insert tree.symbol)) :
    g.symbolCost tree.symbol seen ≤ tree.expandedCount :=
  costWithin_le_expandedCount valid _ complete root avoids (Nat.lt_succ_of_le (unentered_le _))

/-- Of the trees of a symbol, none is smaller than those where it does not come up again. -/
theorem symbolCost_le_of_complete (complete : tree.Complete g)
    (root : isNonterminal tree.symbol = true) :
    g.symbolCost tree.symbol ∅ ≤ tree.expandedCount := by
  obtain ⟨last, inside, same, none⟩ := Tree.exists_last tree.symbol tree ⟨tree, .root tree, rfl⟩
  have avoids : last.Avoids ((∅ : SymbolSet).insert last.symbol) := by
    intro child below node deep _ again
    rcases mem_insert_iff.mp again with again | absent
    · exact none child below node deep (same ▸ again.symm)
    · exact Std.ExtTreeSet.not_mem_empty absent
  have least := symbolCost_le_of_avoids valid (.of_isSubtree inside complete) (same ▸ root) avoids
  rw [same] at least
  exact Nat.le_trans least inside.expandedCount_le

/-- One expansion and what its references cost is enough. -/
theorem symbolCost_le_step (listed : expansion ∈ g.expansions symbol) :
    g.symbolCost symbol ∅ ≤ 1 + g.formCost expansion.parts := by
  have member := mem_symbols_of_expansion listed
  rcases Nat.lt_or_ge (g.formCost expansion.parts) Cost.infinite with finite | infinite
  · have each : ∀ reference ∈ expansion.references, ∃ tree : Tree, tree.Complete g ∧
        tree.symbol = reference ∧
        tree.expandedCount = g.symbolCost reference ∅ := by
      intro reference used
      have part : g.symbolCost reference ∅ ≤ g.formCost expansion.parts :=
        List.le_sum_of_mem (List.mem_map_of_mem (f := (g.symbolCost · ∅)) used)
      obtain ⟨tree, complete, root, _, sized⟩ :=
        exists_expandedCount_eq valid _ (valid.references_mem listed used)
          (Nat.lt_of_le_of_lt part finite)
      exact ⟨tree, complete, root, sized⟩
    have : Nonempty Tree := ⟨.leaf ""⟩
    choose! grown complete root sized using each
    obtain ⟨tree, whole, rfl, _, counted⟩ :=
      exists_complete_node (valid.closed member) listed complete root
    rw [List.map_congr_left sized] at counted
    exact counted ▸ symbolCost_le_of_complete valid whole (valid.closed member)
  · exact Nat.le_trans (costWithin_le _ _ _) (Nat.le_trans infinite (Nat.le_add_left _ 1))

/-- No derivation from a form is shorter than its references cost. -/
theorem formCost_le {count : Nat} {form final : List Part}
    (steps : Steps g.Rewrites count form final)
    (settled : ∀ other, .nonterminal other ∉ final) : g.formCost form ≤ count := by
  induction steps with
  | none form => exact Nat.le_of_eq (formCost_eq_zero settled)
  | @next count _ _ _ first _ ih =>
      obtain @⟨symbol, expansion, front, back, listed⟩ := first
      have rest := ih settled
      simp only [formCost_append, formCost_cons] at rest ⊢
      calc g.formCost front + (g.symbolCost symbol ∅ + g.formCost back)
        _ ≤ g.formCost front + (1 + g.formCost expansion.parts + g.formCost back) :=
            Nat.add_le_add_left (Nat.add_le_add_right (symbolCost_le_step valid listed) _) _
        _ ≤ count + 1 := by omega

end Valid

/-- A bound that is attained below the cap is the least of what it bounds, or the cap. -/
theorem cast_eq_min_iInf {ι : Type} {items : Set ι} {size : ι → Nat} {cost top : Nat}
    (capped : cost ≤ top) (bounds : ∀ item ∈ items, cost ≤ size item)
    (attained : cost < top → ∃ item ∈ items, size item = cost) :
    (cost : ℕ∞) = min (top : ℕ∞) (⨅ item ∈ items, (size item : ℕ∞)) := by
  apply le_antisymm
  · exact le_min (Nat.cast_le.mpr capped) (le_iInf₂ fun item member =>
      Nat.cast_le.mpr (bounds item member))
  · rcases Nat.lt_or_ge cost top with below | reached
    · obtain ⟨item, member, same⟩ := attained below
      exact min_le_of_right_le (same ▸ iInf₂_le item member)
    · exact min_le_of_left_le (Nat.cast_le.mpr reached)

/-- The cost of a symbol is exact. It is the least number of nodes expanded in a complete tree of
the symbol below whose root no symbol seen comes up and not the symbol itself, up to the cap; with
no symbol seen it is the least number of expansions by which the symbol derives a text. -/
theorem symbolCost_exact (valid : g.Valid) (member : symbol ∈ g.symbols) :
    (∀ seen : SymbolSet, (g.symbolCost symbol seen : ℕ∞) = min (Cost.infinite : ℕ∞)
      (⨅ tree ∈ {tree : Tree | tree.Complete g ∧ tree.symbol = symbol ∧
        tree.Avoids (seen.insert symbol)}, (tree.expandedCount : ℕ∞))) ∧
    (g.symbolCost symbol ∅ : ℕ∞) = min (Cost.infinite : ℕ∞)
      (⨅ count ∈ {count : Nat | ∃ text, g.DerivesIn symbol count text}, (count : ℕ∞)) := by
  have closed := valid.closed member
  constructor
  · intro seen
    refine cast_eq_min_iInf (costWithin_le _ _ _) ?_ fun finite => ?_
    · rintro tree ⟨complete, rfl, avoids⟩
      exact symbolCost_le_of_avoids valid complete closed avoids
    · obtain ⟨tree, complete, root, avoids, sized⟩ := exists_expandedCount_eq valid _ member finite
      exact ⟨tree, ⟨complete, root, avoids⟩, sized⟩
  · refine cast_eq_min_iInf (costWithin_le _ _ _) ?_ fun finite => ?_
    · rintro count ⟨text, form, steps, settled, _⟩
      exact formCost_le valid steps settled
    · obtain ⟨tree, complete, rfl, _, sized⟩ := exists_expandedCount_eq valid _ member finite
      exact ⟨_, ⟨tree.text, complete.derivesIn closed⟩, sized⟩

/-- Sums in parentheses: no sum is finished without a term below it. -/
def sums : Grammar := ⟨Rules.ofList [
  ("<start>", ["<sum>"]), ("<sum>", ["<sum>+<term>", "<term>"]), ("<term>", ["(<sum>)", "x"])]⟩

theorem sums_exact : sums.Valid ∧ sums.symbolCost "<sum>" ∅ = 2 ∧
    sums.symbolCost "<sum>" {"<term>"} = Cost.infinite ∧
    (2 : ℕ∞) = min (Cost.infinite : ℕ∞)
      (⨅ count ∈ {count : Nat | ∃ text, sums.DerivesIn "<sum>" count text}, (count : ℕ∞)) ∧
    (Cost.infinite : ℕ∞) = min (Cost.infinite : ℕ∞)
      (⨅ tree ∈ {tree : Tree | tree.Complete sums ∧ tree.symbol = "<sum>" ∧
        tree.Avoids (({"<term>"} : SymbolSet).insert "<sum>")}, (tree.expandedCount : ℕ∞)) := by
  have valid : sums.Valid := by decide +kernel
  have least : sums.symbolCost "<sum>" ∅ = 2 := by decide +kernel
  have blocked : sums.symbolCost "<sum>" {"<term>"} = Cost.infinite := by decide +kernel
  have member : "<sum>" ∈ sums.symbols := by decide +kernel
  obtain ⟨trees, derivations⟩ := symbolCost_exact valid member
  have avoiding := trees {"<term>"}
  rw [least] at derivations
  rw [blocked] at avoiding
  exact ⟨valid, least, blocked, derivations, avoiding⟩

end Grammar
end GrammarFuzz
