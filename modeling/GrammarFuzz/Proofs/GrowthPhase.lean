import GrammarFuzz.Proofs.Completeness
import GrammarFuzz.Proofs.Livelock

/-! When the phase that grows a tree is bound to run forever. Tracking can be made to expand any
pending node by anything that the phase offers, so the phase can end exactly if moves of the pending
symbols do; and every symbol that can be reached is, for some tree, the only one pending. -/
namespace GrammarFuzz

def Phase.Offers (phase : Phase) (g : Grammar) (symbol : Symbol) (expansion : Expansion) : Prop :=
  expansion ∈ phase.offered g symbol

namespace Fuzzer

variable {γ : Type} [Chance γ] {g : Grammar} {phase : Phase} {limit : Nat} {start symbol : Symbol}
  {tree : Tree}

/-- Some finite list of picks makes a phase end, started at this tree. -/
def CanEnd (phase : Phase) (limit : Nat) (config : Config) (s : Strategy) (tree : Tree) : Prop :=
  ∃ answers budget after f,
    expandWhile phase (some limit) budget ⟨config, s, Picks.mk answers⟩ tree = (.done after, f)

/-- Where some moves lead to an end, the phase can end, perhaps before the last of them. -/
theorem canEnd_of_movesTo (config : Config) {pending last : Multiset Symbol}
    (moves : MovesTo (phase.Offers g) pending last) (ended : last.card = 0 ∨ limit ≤ last.card) :
    ∀ (s : Strategy) (tree : Tree), s.kind = .tracking → s.grammar = g →
      (tree.pendingSymbols : Multiset Symbol) = pending → CanEnd phase limit config s tree := by
  have stopped (s : Strategy) {tree : Tree}
      (still : ¬(0 < tree.pendingSymbols.length ∧ tree.pendingSymbols.length < limit)) :
      CanEnd phase limit config s tree := by
    rw [← goes_on_iff, Bool.not_eq_true] at still
    exact ⟨[], 0, tree, _, (expandWhile_stop 0 _ still).1⟩
  induction moves using Relation.ReflTransGen.head_induction_on with
  | refl =>
      intro s tree _ _ same
      apply stopped s
      rw [← same, Multiset.coe_card] at ended
      omega
  | head move _ ih =>
      obtain ⟨symbol, expansion, others, offered, rfl, rfl⟩ := move
      intro s tree kind grammar same
      by_cases goes : 0 < tree.pendingSymbols.length ∧ tree.pendingSymbols.length < limit
      · subst grammar
        have member : symbol ∈ tree.pendingSymbols := by
          rw [← Multiset.mem_coe, same]
          exact Multiset.mem_cons_self symbol others
        obtain ⟨plug, gap⟩ := tree.exists_gap member
        obtain ⟨answers, s', kind', grammar', step⟩ := expandOnce_offered config kind offered gap
        obtain ⟨others', before, after⟩ := (gap.replaces (expansion.toTree symbol)).split
        rw [same, Multiset.cons_inj_right] at before
        rw [← before, Expansion.pendingSymbols_toTree] at after
        obtain ⟨later, budget, tree', f', done⟩ :=
          ih s' (plug (expansion.toTree symbol)) kind' grammar' after
        refine ⟨answers ++ later, budget + 1, tree', f', ?_⟩
        rw [expandWhile, if_pos (goes_on_iff.mpr goes), step]
        exact done
      · exact stopped s goes

/-- A phase that ends, with whatever source of choices, has made moves that come to an end. -/
theorem ends_of_done {f f' : Fuzzer γ} (valid : f.grammar.Valid) {after : Tree}
    (known : ∀ symbol ∈ tree.pendingSymbols, symbol ∈ f.grammar.symbols) {budget : Nat}
    (done : expandWhile phase (some limit) budget f tree = (.done after, f')) :
    Ends (phase.Offers f.grammar) limit tree.pendingSymbols := by
  have step : ∀ (f₁ : Fuzzer γ) (before : Tree), f₁.grammar = f.grammar ∧
      (∀ symbol ∈ before.pendingSymbols, symbol ∈ f.grammar.symbols) ∧
        MovesTo (phase.Offers f.grammar) tree.pendingSymbols before.pendingSymbols →
      before.hasPending = true → (some limit).all (before.pendingCount < ·) = true →
      ∃ (next : Tree) (f₂ : Fuzzer γ), f₁.expandOnce phase before = (.ok next, f₂) ∧
        f₂.grammar = f.grammar ∧
        (∀ symbol ∈ next.pendingSymbols, symbol ∈ f.grammar.symbols) ∧
        MovesTo (phase.Offers f.grammar) tree.pendingSymbols next.pendingSymbols := by
    rintro f₁ before ⟨same, known, moves⟩ pending _
    have offered : ∀ symbol ∈ before.pendingSymbols, phase.offered f₁.grammar symbol ≠ [] := by
      rw [same]
      exact fun symbol pending => phase.offered_ne_nil
        (valid.expansions_ne_nil (known symbol pending))
    obtain ⟨symbol, expansion, next, f₂, stepped, expands, replaces⟩ :=
      expandOnce_cases f₁ phase pending offered
    obtain ⟨others, was, now⟩ := replaces.split
    rw [Expansion.pendingSymbols_toTree] at now
    have listed : ∀ other ∈ (before.pendingSymbols : Multiset Symbol),
        other ∈ f.grammar.symbols := known
    rw [was] at listed moves
    refine ⟨next, f₂, stepped, expands.continues.grammar.trans same, fun other member => ?_, ?_⟩
    · rw [← Multiset.mem_coe, now] at member
      refine forall_after listed (fun _ reference used => ?_) other member
      exact valid.references_mem (same ▸ expands.member) used
    · exact moves.tail ⟨symbol, expansion, others, same ▸ expands.offered, rfl, now⟩
  rcases (expandWhile_invariant step budget f tree ⟨rfl, known, .refl⟩).2 with
    ⟨f₁, unfinished⟩ | ⟨last, f₁, _, ⟨_, _, moves⟩, _, ended⟩
  · rw [unfinished] at done
    cases done
  · refine ⟨last.pendingSymbols, moves, ?_⟩
    rw [← Bool.not_eq_true, goes_on_iff] at ended
    rw [Multiset.coe_card]
    omega

/-- A phase of tracking can end exactly if moves of the pending symbols do. -/
theorem canEnd_iff {config : Config} {s : Strategy} (kind : s.kind = .tracking)
    (valid : s.grammar.Valid) (known : ∀ symbol ∈ tree.pendingSymbols, symbol ∈ s.grammar.symbols) :
    CanEnd phase limit config s tree ↔ Ends (phase.Offers s.grammar) limit tree.pendingSymbols := by
  constructor
  · rintro ⟨answers, budget, after, f', done⟩
    exact @ends_of_done _ _ _ _ _ ⟨config, s, Picks.mk answers⟩ f' valid after known budget done
  · rintro ⟨last, moves, ended⟩
    exact canEnd_of_movesTo config moves ended s tree kind rfl rfl

/-! Trees in which one symbol is pending. -/

omit [Chance γ] in
theorem reaches_of_growsTo {before after : Tree} (grows : before.GrowsTo g after)
    (reached : ∀ symbol ∈ before.pendingSymbols, g.Reaches start symbol) :
    ∀ symbol ∈ after.pendingSymbols, g.Reaches start symbol := by
  induction grows with
  | refl => exact reached
  | tail _ grow ih =>
      obtain ⟨symbol, expansion, listed, replaces⟩ := grow
      obtain ⟨others, was, now⟩ := replaces.split
      rw [Expansion.pendingSymbols_toTree] at now
      have held : ∀ other ∈ symbol ::ₘ others, g.Reaches start other := was ▸ ih
      intro other member
      rw [← Multiset.mem_coe, now] at member
      exact reaches_after listed held other member

section Productive

variable (valid : g.Valid) (member : start ∈ g.symbols) (productive : g.unproductive? start = none)
include valid member productive

/-- All other pending nodes can be finished, by induction on what they cost. -/
theorem exists_growsTo_alone (cost : Nat) : ∀ {tree : Tree} {others : Multiset Symbol},
    (tree.pendingSymbols : Multiset Symbol) = symbol ::ₘ others →
    (∀ other ∈ others, g.Reaches start other) →
    (others.map (g.symbolCost · ∅)).sum = cost →
    ∃ grown, tree.GrowsTo g grown ∧ (grown.pendingSymbols : Multiset Symbol) = {symbol} := by
  induction cost using Nat.strong_induction_on with
  | h cost cheaper =>
      intro tree others pending reached total
      by_cases empty : others = 0
      · subst empty
        exact ⟨tree, .refl, pending⟩
      · obtain ⟨other, inside⟩ := Multiset.exists_mem_of_ne_zero empty
        obtain ⟨rest, rfl⟩ := Multiset.exists_cons_of_mem inside
        have reaches := reached other inside
        obtain ⟨expansion, listed, less⟩ :=
          Grammar.exists_cheaper (reaches.mem_symbols valid member)
          (Grammar.symbolCost_lt valid member productive reaches)
        have open' : other ∈ tree.pendingSymbols := by
          rw [← Multiset.mem_coe, pending]
          exact Multiset.mem_cons_of_mem inside
        obtain ⟨plug, gap⟩ := tree.exists_gap open'
        obtain ⟨rest', was, now⟩ := (gap.replaces (expansion.toTree other)).split
        rw [pending, Multiset.cons_swap, Multiset.cons_inj_right] at was
        rw [← was, Expansion.pendingSymbols_toTree, Multiset.add_cons] at now
        have reached' := reaches_after listed reached
        have lower : ((expansion.references + rest : Multiset Symbol).map (g.symbolCost · ∅)).sum <
            cost := by
          rw [← total, Multiset.map_cons, Multiset.sum_cons, sum_after]
          exact Nat.add_lt_add_right less _
        obtain ⟨grown, grows, alone⟩ := cheaper _ lower now reached' rfl
        exact ⟨grown, .head ⟨other, expansion, listed, gap.replaces _⟩ grows, alone⟩

/-- Every symbol that can be reached is the only one pending in some tree. -/
theorem exists_alone (reaches : g.Reaches start symbol) :
    ∃ tree, (Tree.pending start).GrowsTo g tree ∧
    (tree.pendingSymbols : Multiset Symbol) = {symbol} := by
  induction reaches with
  | refl => exact ⟨.pending start, .refl, rfl⟩
  | @tail parent child above below ih =>
      obtain ⟨tree, grows, alone⟩ := ih
      obtain ⟨expansion, listed, used⟩ := List.mem_flatMap.mp below
      have pending : parent ∈ tree.pendingSymbols := by
        rw [← Multiset.mem_coe, alone]
        exact Multiset.mem_singleton_self parent
      obtain ⟨plug, gap⟩ := tree.exists_gap pending
      obtain ⟨rest, was, now⟩ := (gap.replaces (expansion.toTree parent)).split
      rw [alone, ← Multiset.cons_zero, Multiset.cons_inj_right] at was
      rw [← was, add_zero, Expansion.pendingSymbols_toTree] at now
      obtain ⟨others, same⟩ := Multiset.exists_cons_of_mem (Multiset.mem_coe.mpr used)
      have reached : ∀ other ∈ child ::ₘ others, g.Reaches start other := by
        intro other inside
        rw [← same, Multiset.mem_coe] at inside
        exact above.tail (Grammar.mem_references_of_expansion listed inside)
      obtain ⟨grown, more, single⟩ :=
        exists_growsTo_alone valid member productive _ (now.trans same)
        (fun other inside => reached other (Multiset.mem_cons_of_mem inside)) rfl
      exact ⟨grown, grows.trans (.head ⟨parent, expansion, listed, gap.replaces _⟩ more), single⟩

end Productive

omit [Chance γ] in
/-- The growing phase of tracking can end, from every tree that expansions make of the start symbol
and with any coverage, exactly if no symbol that can be reached is in a rut of the costliest
expansions. -/
theorem growth_ends_iff {f : Fuzzer γ} (valid : f.grammar.Valid) (accepted : f.Accepted)
    (kind : f.strategy.kind = .tracking) :
    (∀ s : Strategy, s.kind = .tracking → s.grammar = f.grammar →
      ∀ tree, f.initialTree.GrowsTo f.grammar tree →
        CanEnd .costliest f.config.minPending f.config s tree) ↔
    ¬∃ symbol weight stuck, f.grammar.Reaches f.config.start symbol ∧
      Rut (Phase.costliest.Offers f.grammar) f.config.minPending symbol weight stuck := by
  obtain ⟨member, productive⟩ := accepted_iff.mp accepted
  have initial : ∀ symbol ∈ f.initialTree.pendingSymbols,
      f.grammar.Reaches f.config.start symbol := by
    intro symbol pending
    obtain rfl := List.mem_singleton.mp pending
    exact .refl
  constructor
  · rintro always ⟨symbol, weight, stuck, reaches, rut⟩
    obtain ⟨tree, grows, alone⟩ := exists_alone valid member productive reaches
    have ends := always f.strategy kind rfl tree grows
    rw [canEnd_iff kind valid fun other pending =>
      (reaches_of_growsTo grows initial other pending).mem_symbols valid member, alone] at ends
    exact rut.not_ends ends
  · intro free s kind same tree grows
    have reached := reaches_of_growsTo grows initial
    rw [canEnd_iff kind (same ▸ valid) fun other pending =>
      same ▸ (reached other pending).mem_symbols valid member, same]
    by_contra endless
    obtain ⟨symbol, inside, weight, stuck, rut⟩ := exists_rut endless
    exact free ⟨symbol, weight, stuck, reached symbol inside, rut⟩

/-- The reference to itself is the costliest expansion, and it leaves one node pending. -/
def turning : Grammar := ⟨Rules.ofList [("<start>", ["<start>", "x"])]⟩

def turningFuzzer (minPending : Nat) : Fuzzer Picks :=
  ⟨{ minPending }, .new .tracking turning, ⟨[]⟩⟩

theorem turning_rut {limit : Nat} (more : 1 < limit) :
    Rut (Phase.costliest.Offers turning) limit "<start>"
    (fun symbol => if symbol = "<start>" then 1 else 0) (· = "<start>") := by
  have offered : Phase.costliest.offered turning "<start>" = [⟨"<start>"⟩] := by decide +kernel
  have itself : (Expansion.mk "<start>").references = ["<start>"] := by decide +kernel
  refine ⟨rfl, ?_, by decide, by simpa using more, ?_⟩
  · rintro _ rfl expansion costliest
    rw [Phase.Offers, offered, List.mem_singleton] at costliest
    simp only [costliest, itself, List.mem_singleton, exists_eq_left]
  · intro parent weighted expansion costliest
    by_cases same : parent = "<start>"
    · subst same
      rw [Phase.Offers, offered, List.mem_singleton] at costliest
      simp [costliest, itself]
    · simp [same] at weighted

theorem turning_endless : turning.Valid ∧ (turningFuzzer 2).Accepted ∧
    ¬CanEnd .costliest 2 (turningFuzzer 2).config (turningFuzzer 2).strategy
      (turningFuzzer 2).initialTree := by
  have valid : turning.Valid := by decide +kernel
  refine ⟨valid, accepted_iff.mpr (by decide +kernel), ?_⟩
  rw [canEnd_iff rfl valid (by decide +kernel)]
  exact (turning_rut (by decide)).not_ends

theorem turning_ends_iff : turning.Valid ∧ ∀ minPending, (turningFuzzer minPending).Accepted ∧
    ((∀ s : Strategy, s.kind = .tracking → s.grammar = turning →
      ∀ tree, (Tree.pending "<start>").GrowsTo turning tree →
        CanEnd .costliest minPending (turningFuzzer minPending).config s tree) ↔
          minPending ≤ 1) := by
  have valid : turning.Valid := by decide +kernel
  have usable : "<start>" ∈ turning.symbols ∧ turning.unproductive? "<start>" = none := by
    decide +kernel
  refine ⟨valid, fun minPending => ?_⟩
  have accepted : (turningFuzzer minPending).Accepted := accepted_iff.mpr usable
  refine ⟨accepted, (growth_ends_iff valid accepted rfl).trans ⟨fun free => ?_, fun few => ?_⟩⟩
  · by_contra more
    exact free ⟨"<start>", _, _, .refl, turning_rut (Nat.lt_of_not_le more)⟩
  · rintro ⟨symbol, weight, stuck, _, rut⟩
    have positive := rut.positive
    have light : weight symbol < minPending := rut.light
    omega

end Fuzzer
end GrammarFuzz
