import GrammarFuzz.Proofs.Plays

/-! When the phase of random choices is bound to run forever. Where no pending symbol leads to
a missing key, or nothing looks ahead, cheap expansions finish a tree. Foresight never stops
where its preferences close on themselves, which weights on the symbols witness. -/
namespace GrammarFuzz

/-! The pending symbols after a move. -/

theorem reaches_after {g : Grammar} {start symbol : Symbol} {expansion : Expansion}
    {others : Multiset Symbol} (listed : expansion ∈ g.expansions symbol)
    (reached : ∀ other ∈ symbol ::ₘ others, g.Reaches start other) :
    ∀ other ∈ (expansion.references + others : Multiset Symbol), g.Reaches start other := by
  apply forall_after reached
  exact fun reaches reference used => reaches.tail (Grammar.mem_references_of_expansion listed used)

/-- Weighted symbols that foresight does not leave: what it prefers at one of them is covered,
and its references are weighted and no heavier together. One of them leads to a missing key. -/
structure Trap (t : Tracker) (limit : Nat) (symbol : Symbol) (weight : Symbol → Nat) : Prop where
  leads : t.Leads symbol
  positive : 0 < weight symbol
  light : weight symbol < limit
  closed : ∀ parent, 0 < weight parent → ∀ expansion,
    Strategy.Prefers .foresight t parent (t.grammar.expansions parent) expansion →
      Key.ofText parent expansion.text ∈ t.covered ∧
        (∀ reference ∈ expansion.references, 0 < weight reference) ∧
        (expansion.references.map weight).sum ≤ weight parent

/-- No play stops that starts with weighted symbols, fewer than the limit by weight, and one
that leads to a missing key. -/
theorem Trap.not_stops {t : Tracker} {limit : Nat} {start : Symbol} {weight : Symbol → Nat}
    {pending : Multiset Symbol} (valid : t.grammar.Valid) (trap : Trap t limit start weight)
    (weighted : ∀ symbol ∈ pending, 0 < weight symbol) (light : (pending.map weight).sum < limit)
    (leads : ∃ symbol ∈ pending, t.Leads symbol) : ¬Stops .foresight limit t pending := by
  intro stops
  induction stops with
  | ended ended =>
      obtain ⟨symbol, member, _⟩ := leads
      have some := Multiset.card_pos_iff_exists_mem.mpr ⟨symbol, member⟩
      have few := card_le_weight weighted
      omega
  | @move t symbol expansion others prefers _ ih =>
      obtain ⟨covered, referenced, lighter⟩ := trap.closed symbol
        (weighted symbol (Multiset.mem_cons_self symbol others)) expansion prefers
      rw [Tracker.cover_of_mem covered] at ih
      apply ih valid trap
      · exact forall_after weighted fun _ => referenced
      · rw [Multiset.map_cons, Multiset.sum_cons] at light
        rw [sum_after]
        omega
      · obtain ⟨leader, member, leads⟩ := leads
        rcases Multiset.mem_cons.mp member with rfl | kept
        · have gains := prefers.gains valid (fun _ => id) (Tracker.leads_iff.mp leads)
          obtain ⟨reference, used, leads⟩ := gains.resolve_left (not_not_intro covered)
          exact ⟨reference, Multiset.mem_add.mpr (.inl used), leads⟩
        · exact ⟨leader, Multiset.mem_add.mpr (.inr kept), leads⟩

/-- Nothing that the strategy looks for lies below the symbol. -/
def Free (kind : StrategyKind) (t : Tracker) (symbol : Symbol) : Prop :=
  kind = .foresight → ¬t.Leads symbol

/-- A free symbol that can finish has a preferred expansion that is new, or cheap. -/
theorem Free.step {kind : StrategyKind} {t : Tracker} {symbol : Symbol} (free : Free kind t symbol)
    (valid : t.grammar.Valid) (member : symbol ∈ t.grammar.symbols)
    (finite : t.grammar.symbolCost symbol ∅ < Cost.infinite) : ∃ expansion,
      Strategy.Prefers kind t symbol (t.grammar.expansions symbol) expansion ∧
        (Key.ofText symbol expansion.text ∉ t.covered ∨
          (expansion.references.map (t.grammar.symbolCost · ∅)).sum <
            t.grammar.symbolCost symbol ∅) := by
  obtain ⟨expansion, listed, cheaper⟩ := Grammar.exists_cheaper member finite
  cases kind with
  | tracking => exact ⟨expansion, Strategy.prefers_tracking.mpr listed, .inr cheaper⟩
  | immediate =>
      by_cases all : ∀ other ∈ t.grammar.expansions symbol, Key.ofText symbol other.text ∈ t.covered
      · exact ⟨expansion, Strategy.prefers_immediate.mpr ⟨listed, .inr all⟩, .inr cheaper⟩
      · push Not at all
        obtain ⟨other, inside, fresh⟩ := all
        exact ⟨other, Strategy.prefers_immediate.mpr ⟨inside, .inl fresh⟩, .inl fresh⟩
  | foresight =>
      have none : ∀ other ∈ t.grammar.expansions symbol, ¬t.Gains symbol other :=
        fun other inside gains => free rfl (Tracker.leads_iff.mpr ⟨other, inside, gains⟩)
      exact ⟨expansion, Strategy.prefers_foresight valid (fun _ => id) none listed, .inr cheaper⟩

theorem Free.cover {kind : StrategyKind} {t : Tracker} {symbol : Symbol}
    (free : Free kind t symbol) (key : Key) :
    Free kind (t.cover key) symbol := by
  intro foresees leads
  refine free foresees (leads.of_covered (Tracker.grammar_cover t key).symm fun other before => ?_)
  exact Tracker.mem_covered_cover.mpr (.inl before)

theorem free_after {kind : StrategyKind} {t : Tracker} {symbol : Symbol} {expansion : Expansion}
    {others : Multiset Symbol} (listed : expansion ∈ t.grammar.expansions symbol)
    (free : ∀ other ∈ symbol ::ₘ others, Free kind t other) :
    ∀ other ∈ (expansion.references + others : Multiset Symbol), Free kind t other := by
  apply forall_after free
  intro own reference used foresees leads
  exact own foresees (Tracker.leads_iff.mpr ⟨expansion, listed, .inr ⟨reference, used, leads⟩⟩)

section Finish

variable {g : Grammar} {start : Symbol} (valid : g.Valid) (member : start ∈ g.symbols)
  (productive : g.unproductive? start = none)
include valid member productive

/-- Free symbols finish: by induction on the missing keys, and on the costs while no key is
covered. -/
theorem stops_of_free {kind : StrategyKind} {limit : Nat} (missing : Nat) :
    ∀ {t : Tracker} {pending : Multiset Symbol},
    t.grammar = g → t.missing.length = missing → (∀ symbol ∈ pending, g.Reaches start symbol) →
    (∀ symbol ∈ pending, Free kind t symbol) → Stops kind limit t pending := by
  induction missing using Nat.strong_induction_on with
  | h missing fewer =>
      intro t pending same count reached free
      subst same
      have finish (cost : Nat) : ∀ pending : Multiset Symbol,
          (pending.map (t.grammar.symbolCost · ∅)).sum = cost →
          (∀ symbol ∈ pending, t.grammar.Reaches start symbol) →
          (∀ symbol ∈ pending, Free kind t symbol) →
          Stops kind limit t pending := by
        induction cost using Nat.strong_induction_on with
        | h cost cheaper =>
            intro pending total reached free
            by_cases empty : pending = 0
            · exact .ended (.inl (Multiset.card_eq_zero.mpr empty))
            · obtain ⟨symbol, inside⟩ := Multiset.exists_mem_of_ne_zero empty
              obtain ⟨others, rfl⟩ := Multiset.exists_cons_of_mem inside
              have reaches := reached symbol inside
              obtain ⟨expansion, prefers, progress⟩ := (free symbol inside).step valid
                (reaches.mem_symbols valid member)
                  (Grammar.symbolCost_lt valid member productive reaches)
              have reached' := reaches_after prefers.mem reached
              have free' := free_after prefers.mem free
              refine .move prefers ?_
              by_cases covered : Key.ofText symbol expansion.text ∈ t.covered
              · rw [Tracker.cover_of_mem covered]
                have less := progress.resolve_left (not_not_intro covered)
                refine cheaper _ ?_ _ rfl reached' free'
                rw [← total, Multiset.map_cons, Multiset.sum_cons, sum_after]
                exact Nat.add_lt_add_right less _
              · refine fewer _ ?_ (Tracker.grammar_cover t _) rfl reached' fun other inside =>
                  (free' other inside).cover _
                rw [← count]
                exact Tracker.missing_cover_lt prefers.mem covered
      exact finish _ pending rfl reached free

end Finish

/-! The trap of a play that cannot stop. -/

/-- An expansion that foresight may choose for a symbol; what it covers is left out of account. -/
abbrev Tracker.Foreseen (t : Tracker) (symbol : Symbol) (expansion : Expansion) : Prop :=
  Strategy.Prefers .foresight t symbol (t.grammar.expansions symbol) expansion

/-- Where a symbol that leads on becomes few symbols, and nothing new, it is trapped. -/
theorem trap_of_few {t : Tracker} {limit : Nat} {start : Symbol} (leads : t.Leads start)
    (few : ∀ after, MovesTo t.Foreseen {start} after → after.card < limit)
    (covered : ∀ parent others expansion, MovesTo t.Foreseen {start} (parent ::ₘ others) →
      t.Foreseen parent expansion → Key.ofText parent expansion.text ∈ t.covered) :
    Trap t limit start (burden t.Foreseen limit start) := by
  obtain ⟨positive, light⟩ := burden_self few
  refine ⟨leads, positive, light, fun parent weighted expansion prefers => ⟨?_, ?_⟩⟩
  · obtain ⟨_, moves, inside⟩ := mem_of_burden_pos weighted
    obtain ⟨others, rfl⟩ := Multiset.exists_cons_of_mem inside
    exact covered parent others expansion moves prefers
  · exact bears_burden few parent weighted expansion prefers

/-- A trap that can be entered from the start symbol, for some coverage. -/
def Grammar.HasTrap (g : Grammar) (start : Symbol) (limit : Nat) : Prop :=
  ∃ t : Tracker, t.grammar = g ∧ ∃ symbol weight, g.Reaches start symbol ∧
    Trap t limit symbol weight

section Escape

variable {t : Tracker} {start : Symbol} {limit : Nat} {before after : Multiset Symbol}

/-- Every play stops that starts with more coverage. -/
def Escapes (t : Tracker) (start : Symbol) (limit : Nat) : Prop :=
  ∀ later : Tracker, later.grammar = t.grammar → later.missing.length < t.missing.length →
    ∀ pending : Multiset Symbol, (∀ symbol ∈ pending, t.grammar.Reaches start symbol) →
      Stops .foresight limit later pending

theorem Escapes.stops {symbol : Symbol} {expansion : Expansion} {others : Multiset Symbol}
    (escapes : Escapes t start limit)
    (reached : ∀ other ∈ symbol ::ₘ others, t.grammar.Reaches start other)
    (prefers : Strategy.Prefers .foresight t symbol (t.grammar.expansions symbol) expansion)
    (fresh : Key.ofText symbol expansion.text ∉ t.covered) :
    Stops .foresight limit t (symbol ::ₘ others) := by
  refine .move prefers (escapes _ (Tracker.grammar_cover t _) ?_ _
    (reaches_after prefers.mem reached))
  exact Tracker.missing_cover_lt prefers.mem fresh

/-- A play that cannot stop goes on so, without new coverage. -/
theorem Escapes.not_stops (escapes : Escapes t start limit)
    (reached : ∀ symbol ∈ before, t.grammar.Reaches start symbol)
    (stuck : ¬Stops .foresight limit t before) (moves : MovesTo t.Foreseen before after) :
    (∀ symbol ∈ after, t.grammar.Reaches start symbol) ∧ ¬Stops .foresight limit t after := by
  induction moves with
  | refl => exact ⟨reached, stuck⟩
  | tail _ step ih =>
      obtain ⟨symbol, expansion, others, prefers, rfl, rfl⟩ := step
      obtain ⟨reached, stuck⟩ := ih
      refine ⟨reaches_after prefers.mem reached, fun stops => stuck ?_⟩
      by_cases covered : Key.ofText symbol expansion.text ∈ t.covered
      · apply Stops.move prefers
        rwa [Tracker.cover_of_mem covered]
      · exact escapes.stops reached prefers covered

/-- A leading symbol is trapped if it is pending in a play that cannot stop. -/
theorem Escapes.trap {leader : Symbol} {others : Multiset Symbol} (escapes : Escapes t start limit)
    (reached : ∀ symbol ∈ leader ::ₘ others, t.grammar.Reaches start symbol)
    (leads : t.Leads leader) (stuck : ¬Stops .foresight limit t (leader ::ₘ others)) :
    Trap t limit leader (burden t.Foreseen limit leader) := by
  have goes : ∀ after, MovesTo t.Foreseen {leader} after →
      (∀ symbol ∈ after + others, t.grammar.Reaches start symbol) ∧
        ¬Stops .foresight limit t (after + others) :=
    fun after moves => escapes.not_stops reached stuck (moves.add others)
  apply trap_of_few leads
  · intro after moves
    by_contra many
    refine (goes after moves).2 (.ended (.inr ?_))
    rw [Multiset.card_add]
    omega
  · intro parent rest expansion moves prefers
    obtain ⟨reached, stuck⟩ := goes _ moves
    rw [Multiset.cons_add] at reached stuck
    by_contra fresh
    exact stuck (escapes.stops reached prefers fresh)

end Escape

/-- Without a trap every play can stop, by induction on the missing keys. -/
theorem stops_of_no_trap {g : Grammar} {start : Symbol} (valid : g.Valid)
    (member : start ∈ g.symbols) (productive : g.unproductive? start = none) {limit : Nat}
    (none : ¬g.HasTrap start limit) (missing : Nat) :
    ∀ {t : Tracker} {pending : Multiset Symbol}, t.grammar = g → t.missing.length = missing →
      (∀ symbol ∈ pending, g.Reaches start symbol) → Stops .foresight limit t pending := by
  induction missing using Nat.strong_induction_on with
  | h missing fewer =>
      intro t pending same count reached
      have escapes : Escapes t start limit := by
        intro later kept less pending reached
        rw [count] at less
        rw [same] at kept reached
        exact fewer _ less kept rfl reached
      by_cases leads : ∃ symbol ∈ pending, t.Leads symbol
      · obtain ⟨leader, inside, leads⟩ := leads
        by_contra stuck
        obtain ⟨others, rfl⟩ := Multiset.exists_cons_of_mem inside
        have trap := escapes.trap (same ▸ reached) leads stuck
        exact none ⟨t, same, leader, _, reached leader inside, trap⟩
      · apply stops_of_free valid member productive missing same count reached
        exact fun symbol inside _ below => leads ⟨symbol, inside, below⟩

namespace Fuzzer

variable {γ : Type}

/-- From every coverage and every tree of reachable symbols the phase of random choices can
end, unless foresight has a trap; and a trap keeps it from ending. -/
theorem canStop_always_iff {f : Fuzzer γ} (valid : f.grammar.Valid) (accepted : f.Accepted) :
    (∀ s : Strategy, s.Built → s.kind = f.strategy.kind → s.grammar = f.grammar →
      ∀ tree : Tree, (∀ symbol ∈ tree.pendingSymbols, f.grammar.Reaches f.config.start symbol) →
        CanStop f.config s tree) ↔
    (f.strategy.kind = .foresight → ¬f.grammar.HasTrap f.config.start f.config.maxPending) := by
  obtain ⟨member, productive⟩ := accepted_iff.mp accepted
  constructor
  · rintro always kind ⟨t, same, symbol, weight, reaches, trap⟩
    have valid' : t.grammar.Valid := same ▸ valid
    have known : symbol ∈ t.grammar.symbols := same ▸ reaches.mem_symbols valid member
    have alone : ∀ other ∈ (Tree.pending symbol).pendingSymbols, other = symbol :=
      fun other pending => List.mem_singleton.mp pending
    have stops := always (.withTracker .foresight t) (.start _ t) kind.symm same (.pending symbol)
      fun other pending => alone other pending ▸ reaches
    rw [canStop_iff valid' (.start _ t) fun other pending => alone other pending ▸ known] at stops
    have single : ((Tree.pending symbol).pendingSymbols : Multiset Symbol) = {symbol} := rfl
    rw [single] at stops
    refine trap.not_stops valid' ?_ ?_ ?_ stops
    · simpa using trap.positive
    · simpa using trap.light
    · exact ⟨symbol, Multiset.mem_singleton_self symbol, trap.leads⟩
  · intro free s built kind same tree reached
    rw [canStop_iff (same ▸ valid) built fun symbol pending =>
      same ▸ (reached symbol pending).mem_symbols valid member]
    cases foresees : s.kind with
    | foresight =>
        exact stops_of_no_trap valid member productive (free (kind ▸ foresees)) _ same rfl reached
    | tracking | immediate =>
        refine stops_of_free valid member productive _ same rfl reached fun symbol _ foresight => ?_
        cases foresight

/-- The reference to itself offers both texts, each of which offers less. -/
def echoing : Grammar := ⟨Rules.ofList [("<start>", ["<start>", "x", "y"])]⟩

def echoingFuzzer (kind : StrategyKind) : Fuzzer Picks where
  config := {}
  strategy := .withTracker kind ((Tracker.new echoing).cover (Key.ofText "<start>" "<start>"))
  source := ⟨[]⟩

theorem echoing_trap : Trap (echoingFuzzer .foresight).tracker 10 "<start>" fun symbol =>
    if symbol = "<start>" then 1 else 0 := by
  refine ⟨⟨"<start>", .refl, Key.ofText "<start>" "x", by decide +kernel, by decide +kernel⟩,
    by decide, by decide, ?_⟩
  intro parent weighted expansion prefers
  by_cases same : parent = "<start>"
  · subst same
    have first : (Strategy.choices .foresight (echoingFuzzer .foresight).tracker "<start>"
        ((echoing.expansions "<start>").map Expansion.toChildren)).map Fin.val = [0] := by
          decide +kernel
    obtain ⟨position, member, found⟩ := prefers
    have zero : position.val ∈ [0] := first ▸ List.mem_map_of_mem member
    rw [List.mem_singleton.mp zero] at found
    have itself : (echoing.expansions "<start>")[0]? = some ⟨"<start>"⟩ := by decide +kernel
    obtain rfl := Option.some.inj (found.symm.trans itself)
    decide +kernel
  · rw [if_neg same] at weighted
    contradiction

theorem echoing_livelock : echoing.Valid ∧ (echoingFuzzer .foresight).Accepted ∧
    ¬CanStop {} (echoingFuzzer .foresight).strategy (.pending "<start>") := by
  have valid : echoing.Valid := by decide +kernel
  have built : (echoingFuzzer .foresight).strategy.Built := .start _ _
  refine ⟨valid, accepted_iff.mpr (by decide +kernel), ?_⟩
  rw [canStop_iff valid built (by decide +kernel)]
  apply echoing_trap.not_stops valid
  · decide
  · decide
  · exact ⟨"<start>", Multiset.mem_singleton_self _, echoing_trap.leads⟩

theorem echoing_canStop_iff : echoing.Valid ∧ ∀ kind, (echoingFuzzer kind).Accepted ∧
    ((∀ s : Strategy, s.Built → s.kind = kind → s.grammar = echoing →
      ∀ tree : Tree, (∀ symbol ∈ tree.pendingSymbols, echoing.Reaches "<start>" symbol) →
        CanStop {} s tree) ↔ kind ≠ .foresight) := by
  have valid : echoing.Valid := by decide +kernel
  refine ⟨valid, fun kind => ?_⟩
  have accepted : (echoingFuzzer kind).Accepted := by
    rw [accepted_iff]
    cases kind <;> decide +kernel
  have trapped : echoing.HasTrap "<start>" 10 := ⟨_, rfl, "<start>", _, .refl, echoing_trap⟩
  refine ⟨accepted, (canStop_always_iff valid accepted).trans ?_⟩
  exact ⟨fun free foresees => free foresees trapped, fun other foresees => absurd foresees other⟩

end Fuzzer
end GrammarFuzz
