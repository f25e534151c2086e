import Mathlib.Data.List.Forall2
import GrammarFuzz.Coverage.Strategy
import GrammarFuzz.Proofs.Lookahead

/-! Which expansions a strategy may choose. Some candidate is always preferred, the memory
of a strategy does not show in its preferences, and each of the three kinds is described by
what is covered: only foresight needs to know what lies below a candidate. -/
namespace GrammarFuzz

theorem foldl_max_spec {α : Type} (f : α → Nat) (items : List α) (start : Nat) :
    start ≤ items.foldl (fun most item => max most (f item)) start ∧
      (∀ item ∈ items, f item ≤ items.foldl (fun most item => max most (f item)) start) ∧
      (items.foldl (fun most item => max most (f item)) start = start ∨
        ∃ item ∈ items, f item = items.foldl (fun most item => max most (f item)) start) := by
  induction items generalizing start with
  | nil => simp
  | cons item rest ih =>
      obtain ⟨least, bound, attained⟩ := ih (max start (f item))
      simp only [List.foldl_cons]
      refine ⟨by omega, ?_, ?_⟩
      · intro other member
        rcases List.mem_cons.mp member with rfl | member
        · omega
        · exact bound other member
      · rcases attained with same | ⟨other, member, same⟩
        · rcases Nat.le_total (f item) start with most | most
          · exact .inl (by omega)
          · exact .inr ⟨item, List.mem_cons_self, by omega⟩
        · exact .inr ⟨other, List.mem_cons_of_mem item member, same⟩

namespace Strategy

theorem orAll_of_any {count : Nat} {test : Fin count → Bool}
    (any : ∃ position, test position = true) :
    orAll test = (List.finRange count).filter test := by
  obtain ⟨position, passes⟩ := any
  have member : position ∈ (List.finRange count).filter test :=
    List.mem_filter.mpr ⟨List.mem_finRange position, passes⟩
  exact if_neg (by simpa using List.ne_nil_of_mem member)

theorem orAll_of_none {count : Nat} {test : Fin count → Bool}
    (none : ∀ position, test position = false) :
    orAll test = List.finRange count := if_pos (by simp [none])

theorem mem_orAll {count : Nat} {test : Fin count → Bool} {position : Fin count} :
    position ∈ orAll test ↔ test position = true ∨ ∀ other, test other = false := by
  have some := List.mem_finRange position
  by_cases any : ∃ other, test other = true
  · rw [orAll_of_any any, List.mem_filter]
    constructor
    · exact fun listed => .inl listed.2
    · rintro (own | none)
      · exact ⟨some, own⟩
      · obtain ⟨other, passes⟩ := any
        rw [none other] at passes
        contradiction
  · have none : ∀ other, test other = false := by simpa using any
    rw [orAll_of_none none]
    exact ⟨fun _ => .inr none, fun _ => some⟩

theorem orAll_ne_nil {count : Nat} (some : 0 < count) (test : Fin count → Bool) :
    orAll test ≠ [] := by
  by_cases any : ∃ position, test position = true
  · obtain ⟨position, passes⟩ := any
    exact List.ne_nil_of_mem (mem_orAll.mpr (.inl passes))
  · have first : (⟨0, some⟩ : Fin count) ∈ orAll test := mem_orAll.mpr (.inr (by simpa using any))
    exact List.ne_nil_of_mem first

/-- Where something is offered, the leaders offer something. -/
theorem some_of_mem_leaders {offers : List KeySet} {count : Nat} (length : offers.length = count)
    (any : offers.any (!·.isEmpty) = true) {position : Fin count}
    (leads : position ∈ leaders offers count) :
    ∃ offered, offers[position.val]? = some offered ∧ offered.isEmpty = false := by
  obtain ⟨_, bound, attained⟩ := foldl_max_spec (fun offer : KeySet => offer.size) offers 0
  obtain ⟨largest, member, filled⟩ := List.any_eq_true.mp any
  have positive : 0 < largest.size := by
    rw [Bool.not_eq_true', Std.ExtTreeSet.isEmpty_eq_size_beq_zero, beq_eq_false_iff_ne] at filled
    omega
  have most := bound largest member
  obtain ⟨leader, inside, best⟩ := attained.resolve_left (by omega)
  obtain ⟨place, here, rfl⟩ := List.mem_iff_getElem.mp inside
  subst length
  rcases mem_orAll.mp leads with own | none
  · obtain ⟨offered, found, size⟩ : ∃ offered, offers[position.val]? = some offered ∧
        offered.size = offers.foldl (fun most offer => max most offer.size) 0 := by
      simpa using own
    refine ⟨offered, found, ?_⟩
    rw [Std.ExtTreeSet.isEmpty_eq_size_beq_zero, beq_eq_false_iff_ne]
    omega
  · have missed := none ⟨place, here⟩
    simp [List.getElem?_eq_getElem here, best] at missed

/-- The positions that a strategy without memory prefers. -/
def choices (kind : StrategyKind) (t : Tracker) (symbol : Symbol) (candidates : List (List Tree)) :
    List (Fin candidates.length) :=
  (((withTracker kind t).preferred symbol candidates).run ∅).1

theorem preferred_ne_nil (s : Strategy) (symbol : Symbol) {candidates : List (List Tree)}
    (some : candidates ≠ []) (memory : ReachMemory) :
    ((s.preferred symbol candidates).run memory).1 ≠ [] := by
  have positive : 0 < candidates.length := List.length_pos_of_ne_nil some
  have all : List.finRange candidates.length ≠ [] :=
    List.ne_nil_of_mem (List.mem_finRange ⟨0, positive⟩)
  unfold preferred
  cases s.kind with
  | tracking => exact all
  | immediate => exact orAll_ne_nil positive _
  | foresight =>
      rw [StateT.run_bind]
      generalize (Lookahead.newCoverages s.tracker symbol candidates).run memory = looked
      obtain ⟨offers?, after⟩ := looked
      cases offers? with
      | none => exact all
      | some offers => exact orAll_ne_nil positive _

/-- With faithful memory a strategy prefers what it prefers without. -/
theorem answers_preferred {s : Strategy} {symbol : Symbol} {candidates : List (List Tree)} :
    Lookahead.Answers s.grammar (s.preferred symbol candidates)
      (choices s.kind s.tracker symbol candidates) := by
  have fresh : choices s.kind s.tracker symbol candidates =
      ((s.preferred symbol candidates).run ∅).1 := rfl
  have answered : ∃ value, Lookahead.Answers s.grammar (s.preferred symbol candidates) value := by
    unfold preferred
    cases s.kind with
    | tracking => exact ⟨_, .pure _⟩
    | immediate => exact ⟨_, .pure _⟩
    | foresight =>
        have looked := Lookahead.answers_search s.tracker symbol candidates s.grammar.size 1
        generalize Option.map _ _ = result at looked
        cases result with
        | none => exact ⟨_, looked.bind (.pure _)⟩
        | some offers => exact ⟨_, looked.bind (.pure _)⟩
  obtain ⟨value, answers⟩ := answered
  rw [fresh, (answers ∅ (Lookahead.faithful_empty s.grammar)).1]
  exact answers

/-- The expansion stands at a position that a strategy may choose. -/
def Prefers (kind : StrategyKind) (t : Tracker) (symbol : Symbol) (expansions : List Expansion)
    (expansion : Expansion) : Prop :=
  ∃ position ∈ choices kind t symbol (expansions.map Expansion.toChildren),
    expansions[position.val]? = some expansion

section Prefers

variable {kind : StrategyKind} {t : Tracker} {symbol : Symbol} {expansions : List Expansion}
  {expansion : Expansion}

theorem Prefers.mem (prefers : Prefers kind t symbol expansions expansion) :
    expansion ∈ expansions := by
  obtain ⟨_, _, found⟩ := prefers
  exact List.mem_of_getElem? found

theorem prefers_of_all (all : choices kind t symbol (expansions.map Expansion.toChildren) =
    List.finRange (expansions.map Expansion.toChildren).length) (member : expansion ∈ expansions) :
    Prefers kind t symbol expansions expansion := by
  obtain ⟨place, bound, rfl⟩ := List.mem_iff_getElem.mp member
  refine ⟨⟨place, by simpa using bound⟩, ?_, List.getElem?_eq_getElem bound⟩
  rw [all]
  exact List.mem_finRange _

theorem prefers_tracking : Prefers .tracking t symbol expansions expansion ↔
    expansion ∈ expansions :=
  ⟨Prefers.mem, prefers_of_all rfl⟩

theorem prefers_immediate : Prefers .immediate t symbol expansions expansion ↔
    expansion ∈ expansions ∧ (Key.ofText symbol expansion.text ∉ t.covered ∨
      ∀ other ∈ expansions, Key.ofText symbol other.text ∈ t.covered) := by
  have fresh : ∀ (position : Fin (expansions.map Expansion.toChildren).length)
      {expansion : Expansion},
      expansions[position.val]? = some expansion →
      ((!t.isCovered (Key.ofChildren symbol (expansions.map Expansion.toChildren)[position])) =
        true ↔
        Key.ofText symbol expansion.text ∉ t.covered) := by
    intro position expansion found
    obtain ⟨bound, rfl⟩ := List.getElem?_eq_some_iff.mp found
    rw [Fin.getElem_fin, List.getElem_map, Expansion.ofChildren_toChildren, Tracker.isCovered,
      not_contains_iff]
  constructor
  · rintro ⟨position, member, found⟩
    refine ⟨List.mem_of_getElem? found, ?_⟩
    rcases mem_orAll.mp member with own | none
    · exact .inl ((fresh position found).mp own)
    · refine .inr fun other listed => ?_
      obtain ⟨place, inside, rfl⟩ := List.mem_iff_getElem.mp listed
      by_contra uncovered
      have passes :=
        (fresh ⟨place, by simpa using inside⟩ (List.getElem?_eq_getElem inside)).mpr uncovered
      exact Bool.false_ne_true ((none _).symm.trans passes)
  · rintro ⟨member, uncovered⟩
    obtain ⟨place, bound, rfl⟩ := List.mem_iff_getElem.mp member
    refine ⟨⟨place, by simpa using bound⟩, ?_, List.getElem?_eq_getElem bound⟩
    apply mem_orAll.mpr
    rcases uncovered with own | all
    · exact .inl ((fresh ⟨place, by simpa using bound⟩ (List.getElem?_eq_getElem bound)).mpr own)
    · refine .inr fun other => ?_
      have inside : other.val < expansions.length := by simpa using other.isLt
      have covered := all _ (List.getElem_mem inside)
      exact Bool.eq_false_iff.mpr fun passes =>
        (fresh other (List.getElem?_eq_getElem inside)).mp passes covered

theorem choices_foresight {candidates : List (List Tree)} {result : Option (List KeySet)}
    (answers : Lookahead.Answers t.grammar (Lookahead.newCoverages t symbol candidates) result) :
    choices .foresight t symbol candidates =
      result.elim (List.finRange candidates.length) (leaders · candidates.length) := by
  have looked := (answers ∅ (Lookahead.faithful_empty t.grammar)).1
  simp only [choices, preferred, withTracker, StateT.run_bind]
  rw [← looked]
  generalize (Lookahead.newCoverages t symbol candidates).run ∅ = pair
  obtain ⟨offers?, memory⟩ := pair
  cases offers? <;> rfl

section Foresight

variable (valid : t.grammar.Valid)
  (listed : ∀ expansion ∈ expansions, expansion ∈ t.grammar.expansions symbol)
include valid listed

/-- Foresight chooses a gain if there is one. -/
theorem Prefers.gains (prefers : Prefers .foresight t symbol expansions expansion)
    (gain : ∃ other ∈ expansions, t.Gains symbol other) : t.Gains symbol expansion := by
  obtain ⟨result, answers, offered, exhausted⟩ := Lookahead.answers_newCoverages valid listed
  obtain ⟨position, member, found⟩ := prefers
  rw [choices_foresight answers] at member
  cases result with
  | none =>
      obtain ⟨other, inside, gains⟩ := gain
      exact absurd gains (exhausted rfl other inside)
  | some offers =>
      obtain ⟨any, gained⟩ := offered offers rfl
      have length : offers.length = (expansions.map Expansion.toChildren).length := by
        rw [List.length_map, gained.length_eq]
      obtain ⟨offer, here, filled⟩ := some_of_mem_leaders length any member
      obtain ⟨bound, rfl⟩ := List.getElem?_eq_some_iff.mp found
      obtain ⟨bound', rfl⟩ := List.getElem?_eq_some_iff.mp here
      exact gained.get bound bound' filled

/-- Where nothing can be gained, foresight sees nothing. -/
theorem choices_foresight_of_none (none : ∀ other ∈ expansions, ¬t.Gains symbol other) :
    choices .foresight t symbol (expansions.map Expansion.toChildren) = List.finRange _ := by
  obtain ⟨result, answers, offered, _⟩ := Lookahead.answers_newCoverages valid listed
  rw [choices_foresight answers]
  cases result with
  | none => rfl
  | some offers =>
      obtain ⟨any, gained⟩ := offered offers rfl
      obtain ⟨offer, inside, filled⟩ := List.any_eq_true.mp any
      obtain ⟨place, bound, rfl⟩ := List.mem_iff_getElem.mp inside
      have bound' : place < expansions.length := by rwa [gained.length_eq]
      exact absurd (gained.get bound' bound (by simpa using filled))
        (none _ (List.getElem_mem bound'))

theorem prefers_foresight (none : ∀ other ∈ expansions, ¬t.Gains symbol other)
    (member : expansion ∈ expansions) : Prefers .foresight t symbol expansions expansion :=
  prefers_of_all (choices_foresight_of_none valid listed none) member

end Foresight
end Prefers

/-! Choosing. -/

/-- The positions a strategy prefers, given its memory. -/
def positions (s : Strategy) (symbol : Symbol) (candidates : List (List Tree)) :
    List (Fin candidates.length) :=
  ((s.preferred symbol candidates).run s.memory).1

/-- The strategy after choosing a position: its key is covered, and what was looked up kept. -/
def chose (s : Strategy) (symbol : Symbol) (candidates : List (List Tree))
    (position : Fin candidates.length) : Strategy :=
  { s with
    tracker := s.tracker.cover (Key.ofChildren symbol (candidates.get position))
    memory := ((s.preferred symbol candidates).run s.memory).2 }

section Choose

variable {γ : Type} [Chance γ] {s : Strategy} {symbol : Symbol} {candidates : List (List Tree)}

theorem choose_of_pick {some : 0 < (s.positions symbol candidates).length} {source after : γ}
    {place : Fin (s.positions symbol candidates).length}
    (picked : Chance.pick _ some source = (place, after)) :
    s.choose symbol candidates source = .some ((s.positions symbol candidates)[place],
      s.chose symbol candidates (s.positions symbol candidates)[place], after) := by
  obtain rfl : (Chance.pick _ some source).1 = place := congrArg Prod.fst picked
  obtain rfl : (Chance.pick _ some source).2 = after := congrArg Prod.snd picked
  exact dif_pos some

theorem choose_cases (s : Strategy) (symbol : Symbol) (some : candidates ≠ []) (source : γ) :
    ∃ position ∈ s.positions symbol candidates, ∃ after,
      s.choose symbol candidates source =
        .some (position, s.chose symbol candidates position, after) := by
  have positive : 0 < (s.positions symbol candidates).length :=
    List.length_pos_of_ne_nil (s.preferred_ne_nil symbol some s.memory)
  exact ⟨_, List.getElem_mem (Chance.pick _ positive source).1.isLt, _, choose_of_pick rfl⟩

end Choose

/-- The strategies that arise from new ones by choosing, looking ahead, and recording or
forgetting coverage. -/
inductive Built : Strategy → Prop
  | start (kind : StrategyKind) (t : Tracker) : Built (withTracker kind t)
  | choose {δ : Type} [Chance δ] {s after : Strategy} {symbol : Symbol}
      {candidates : List (List Tree)} {position : Fin candidates.length} {source source' : δ} :
      Built s → s.choose symbol candidates source = some (position, after, source') → Built after
  | look {s : Strategy} (symbol : Symbol) (depth : Nat) (children : List Tree) : Built s →
      Built { s with memory := ((Lookahead.newCoverage s.tracker symbol depth children).run
        s.memory).2 }
  | record {s : Strategy} (t : Tracker) : Built s → t.grammar = s.grammar →
      Built { s with tracker := t }

theorem Built.faithful {s : Strategy} (built : s.Built) :
    Lookahead.Faithful s.grammar s.memory := by
  induction built with
  | start kind t => exact Lookahead.faithful_empty _
  | @choose δ _ s after symbol candidates position source source' _ chosen ih =>
      by_cases some : candidates = []
      · subst some
        exact position.elim0
      · obtain ⟨position', _, _, same⟩ := choose_cases s symbol some source
        cases chosen.symm.trans same
        simp only [grammar, chose, Tracker.grammar_cover]
        exact (answers_preferred s.memory ih).2
  | look symbol depth children _ ih =>
      exact (Lookahead.answers_newCoverage _ symbol depth children _ ih).2
  | record t _ same ih =>
      simp only [grammar] at same ⊢
      rw [same]
      exact ih

end Strategy
end GrammarFuzz
