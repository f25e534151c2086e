import Mathlib.Algebra.BigOperators.Group.Multiset.Basic
import Mathlib.Algebra.GroupWithZero.Nat
import Mathlib.Algebra.Order.BigOperators.Group.Multiset
import Mathlib.Algebra.Order.Group.Nat
import Mathlib.Data.Nat.Find
import Mathlib.Logic.Relation
import GrammarFuzz.Language.Grammar

/-! Pending symbols under moves, whatever it is that offers the expansions. Either some moves leave
none or as many as a limit, or one of the symbols is in a rut: some symbol below it is never
cleared, and weights on the symbols witness that there are always few. -/
namespace GrammarFuzz

/-- One of the symbols is replaced by the references of an expansion that is offered for it. -/
def Moves (offers : Symbol → Expansion → Prop) (before after : Multiset Symbol) : Prop :=
  ∃ symbol expansion others, offers symbol expansion ∧
    before = symbol ::ₘ others ∧ after = expansion.references + others

abbrev MovesTo (offers : Symbol → Expansion → Prop) : Multiset Symbol → Multiset Symbol → Prop :=
  Relation.ReflTransGen (Moves offers)

/-- Some moves leave no symbol, or as many as the limit. -/
def Ends (offers : Symbol → Expansion → Prop) (limit : Nat) (pending : Multiset Symbol) : Prop :=
  ∃ after, MovesTo offers pending after ∧ (after.card = 0 ∨ limit ≤ after.card)

/-- Wherever the symbols with a weight are moved to, they have one, and are no heavier together. -/
def Bears (offers : Symbol → Expansion → Prop) (weight : Symbol → Nat) : Prop :=
  ∀ parent, 0 < weight parent → ∀ expansion, offers parent expansion →
    (∀ reference ∈ expansion.references, 0 < weight reference) ∧
      (expansion.references.map weight).sum ≤ weight parent

/-- A symbol that never comes to an end: a stuck one is always left, and the weights stay below the
limit. -/
structure Rut (offers : Symbol → Expansion → Prop) (limit : Nat) (symbol : Symbol)
    (weight : Symbol → Nat) (stuck : Symbol → Prop) : Prop where
  inside : stuck symbol
  stays : ∀ parent, stuck parent → ∀ expansion, offers parent expansion →
    ∃ reference ∈ expansion.references, stuck reference
  positive : 0 < weight symbol
  light : weight symbol < limit
  bears : Bears offers weight

variable {offers : Symbol → Expansion → Prop} {limit : Nat} {before after : Multiset Symbol}
  {start symbol : Symbol}

/-- What holds of all pending symbols holds after a move, if it passes to the references. -/
theorem forall_after {P : Symbol → Prop} {symbol : Symbol} {references : List Symbol}
    {others : Multiset Symbol} (pending : ∀ other ∈ symbol ::ₘ others, P other)
    (used : P symbol → ∀ reference ∈ references, P reference) :
    ∀ other ∈ (references + others : Multiset Symbol), P other := by
  intro other inside
  rcases Multiset.mem_add.mp inside with reference | kept
  · exact used (pending symbol (Multiset.mem_cons_self symbol others)) other reference
  · exact pending other (Multiset.mem_cons_of_mem kept)

theorem card_le_weight {weight : Symbol → Nat} {pending : Multiset Symbol}
    (weighted : ∀ symbol ∈ pending, 0 < weight symbol) :
    pending.card ≤ (pending.map weight).sum := by
  have bound := Multiset.card_nsmul_le_sum (s := pending.map weight) (a := 1) (by
    intro total member
    obtain ⟨symbol, inside, rfl⟩ := Multiset.mem_map.mp member
    exact weighted symbol inside)
  simpa using bound

theorem sum_after {weight : Symbol → Nat} {references : List Symbol} {others : Multiset Symbol} :
    ((references + others : Multiset Symbol).map weight).sum =
      (references.map weight).sum + (others.map weight).sum := by
  rw [Multiset.map_add, Multiset.sum_add, Multiset.map_coe, Multiset.sum_coe]

theorem Bears.movesTo {weight : Symbol → Nat} (bears : Bears offers weight)
    (moves : MovesTo offers before after) (weighted : ∀ symbol ∈ before, 0 < weight symbol) :
    (∀ symbol ∈ after, 0 < weight symbol) ∧ (after.map weight).sum ≤ (before.map weight).sum := by
  induction moves with
  | refl => exact ⟨weighted, Nat.le_refl _⟩
  | tail _ move ih =>
      obtain ⟨symbol, expansion, others, offered, rfl, rfl⟩ := move
      obtain ⟨positive, bound⟩ := ih
      obtain ⟨referenced, lighter⟩ :=
        bears symbol (positive symbol (Multiset.mem_cons_self symbol others)) expansion offered
      refine ⟨forall_after positive fun _ => referenced, ?_⟩
      rw [Multiset.map_cons, Multiset.sum_cons] at bound
      rw [sum_after]
      omega

/-- From a symbol in a rut no moves come to an end. -/
theorem Rut.not_ends {weight : Symbol → Nat} {stuck : Symbol → Prop}
    (rut : Rut offers limit symbol weight stuck) :
    ¬Ends offers limit {symbol} := by
  rintro ⟨after, moves, ended⟩
  have left : ∃ other ∈ after, stuck other := by
    clear ended
    induction moves with
    | refl => exact ⟨symbol, Multiset.mem_singleton_self symbol, rut.inside⟩
    | tail _ move ih =>
        obtain ⟨parent, expansion, others, offered, rfl, rfl⟩ := move
        obtain ⟨other, inside, held⟩ := ih
        rcases Multiset.mem_cons.mp inside with rfl | kept
        · obtain ⟨reference, used, held⟩ := rut.stays other held expansion offered
          exact ⟨reference, Multiset.mem_add.mpr (.inl used), held⟩
        · exact ⟨other, Multiset.mem_add.mpr (.inr kept), held⟩
  obtain ⟨weighted, bound⟩ := rut.bears.movesTo moves (by simpa using rut.positive)
  rw [Multiset.map_singleton, Multiset.sum_singleton] at bound
  have some : 0 < after.card := Multiset.card_pos_iff_exists_mem.mpr (left.imp fun _ => And.left)
  have few := card_le_weight weighted
  have light := rut.light
  omega

theorem MovesTo.add (moves : MovesTo offers before after) (rest : Multiset Symbol) :
    MovesTo offers (before + rest) (after + rest) := by
  refine Relation.ReflTransGen.lift (· + rest) ?_ _ _ moves
  rintro _ _ ⟨symbol, expansion, others, offered, rfl, rfl⟩
  exact ⟨symbol, expansion, others + rest, offered, Multiset.cons_add symbol others rest,
    add_assoc _ _ _⟩

/-- What several symbols become, each on its own, they become together. -/
theorem exists_movesTo_sum (count : Symbol → Nat) (pending : Multiset Symbol)
    (each : ∀ symbol ∈ pending, ∃ after, MovesTo offers {symbol} after ∧
      after.card = count symbol) :
    ∃ after, MovesTo offers pending after ∧ after.card = (pending.map count).sum := by
  induction pending using Multiset.induction_on with
  | empty => exact ⟨0, .refl, rfl⟩
  | cons symbol rest ih =>
      obtain ⟨first, moves, own⟩ := each symbol (Multiset.mem_cons_self symbol rest)
      obtain ⟨others, later, total⟩ :=
        ih fun other inside => each other (Multiset.mem_cons_of_mem inside)
      refine ⟨first + others, ?_, ?_⟩
      · rw [← Multiset.singleton_add]
        apply (moves.add rest).trans
        rw [add_comm first, add_comm first]
        exact later.add first
      · rw [Multiset.card_add, own, total, Multiset.map_cons, Multiset.sum_cons]

/-- The most symbols that one becomes, up to the limit. -/
noncomputable def most (offers : Symbol → Expansion → Prop) (limit : Nat) (symbol : Symbol) : Nat :=
  open Classical in Nat.findGreatest (fun count => ∃ after, MovesTo offers {symbol} after ∧
    after.card = count) limit

/-- What comes up below a symbol weighs as much as the most that it becomes. -/
noncomputable def burden (offers : Symbol → Expansion → Prop) (limit : Nat)
    (start symbol : Symbol) : Nat :=
  open Classical in
    if ∃ after, MovesTo offers {start} after ∧ symbol ∈ after then most offers limit symbol else 0

section Burden

theorem most_spec (offers : Symbol → Expansion → Prop) (symbol : Symbol) (positive : 0 < limit) :
    ∃ after, MovesTo offers {symbol} after ∧ after.card = most offers limit symbol :=
  open Classical in
  Nat.findGreatest_spec (P := fun count => ∃ after, MovesTo offers {symbol} after ∧
    after.card = count)
    positive ⟨{symbol}, .refl, Multiset.card_singleton symbol⟩

theorem card_le_most (moves : MovesTo offers {symbol} after) (few : after.card ≤ limit) :
    after.card ≤ most offers limit symbol :=
  open Classical in Nat.le_findGreatest few ⟨after, moves, rfl⟩

theorem most_pos (positive : 0 < limit) : 0 < most offers limit symbol := by
  have itself : MovesTo offers {symbol} {symbol} := .refl
  exact card_le_most itself positive

theorem burden_of_mem (moves : MovesTo offers {start} after) (inside : symbol ∈ after) :
    burden offers limit start symbol = most offers limit symbol := if_pos ⟨after, moves, inside⟩

theorem mem_of_burden_pos (weighted : 0 < burden offers limit start symbol) :
    ∃ after, MovesTo offers {start} after ∧ symbol ∈ after := by
  by_contra absent
  rw [burden, if_neg absent] at weighted
  exact Nat.lt_irrefl 0 weighted

variable (few : ∀ after, MovesTo offers {start} after → after.card < limit)
include few

theorem burden_self : 0 < burden offers limit start start ∧
    burden offers limit start start < limit := by
  have positive : 0 < limit := Nat.zero_lt_of_lt (few {start} .refl)
  rw [burden_of_mem .refl (Multiset.mem_singleton_self start)]
  obtain ⟨after, moves, counted⟩ := most_spec offers start positive
  exact ⟨most_pos positive, counted ▸ few after moves⟩

/-- Where a symbol never becomes as many as the limit, its burden bears all moves. -/
theorem bears_burden : Bears offers (burden offers limit start) := by
  have positive : 0 < limit := Nat.zero_lt_of_lt (few {start} .refl)
  intro parent weighted expansion offered
  obtain ⟨_, moves, inside⟩ := mem_of_burden_pos weighted
  obtain ⟨others, rfl⟩ := Multiset.exists_cons_of_mem inside
  have stepped : MovesTo offers {start} (expansion.references + others) :=
    moves.tail ⟨parent, expansion, others, offered, rfl, rfl⟩
  have referenceWeight : ∀ reference ∈ expansion.references,
      burden offers limit start reference = most offers limit reference :=
    fun reference used => burden_of_mem stepped (Multiset.mem_add.mpr (.inl used))
  constructor
  · intro reference used
    rw [referenceWeight reference used]
    exact most_pos positive
  · obtain ⟨after, grown, total⟩ := exists_movesTo_sum _ (expansion.references : Multiset Symbol)
      fun reference _ => most_spec offers reference positive
    have bound := few _ (stepped.trans (grown.add others))
    rw [Multiset.card_add] at bound
    have own : MovesTo offers {parent} after :=
      .head ⟨parent, expansion, 0, offered, rfl, (add_zero _).symm⟩ grown
    rw [List.map_congr_left referenceWeight, burden_of_mem moves inside, ← Multiset.sum_coe,
      ← Multiset.map_coe, ← total]
    exact card_le_most own (by omega)

end Burden

/-- Where no moves come to an end, one of the symbols is in a rut. -/
theorem exists_rut (endless : ¬Ends offers limit before) :
    ∃ symbol ∈ before, ∃ weight stuck, Rut offers limit symbol weight stuck := by
  have held : ∃ symbol ∈ before, ¬MovesTo offers {symbol} 0 := by
    by_contra! clear
    obtain ⟨after, moves, none⟩ :=
      exists_movesTo_sum (fun _ => 0) before fun symbol inside => ⟨0, clear symbol inside, rfl⟩
    exact endless ⟨after, moves, .inl (by simpa using none)⟩
  obtain ⟨symbol, inside, held⟩ := held
  obtain ⟨others, rfl⟩ := Multiset.exists_cons_of_mem inside
  have few : ∀ after, MovesTo offers {symbol} after → after.card < limit := by
    intro after moves
    by_contra many
    refine endless ⟨after + others, ?_, .inr ?_⟩
    · rw [← Multiset.singleton_add]
      exact moves.add others
    · rw [Multiset.card_add]
      omega
  obtain ⟨positive, light⟩ := burden_self few
  refine ⟨symbol, inside, burden offers limit symbol,
    fun other => ¬MovesTo offers {other} 0, held, ?_, positive, light, bears_burden few⟩
  intro parent stays expansion offered
  by_contra! clear
  obtain ⟨after, moves, none⟩ :=
    exists_movesTo_sum (fun _ => 0) (expansion.references : Multiset Symbol)
    fun reference used => ⟨0, clear reference used, rfl⟩
  obtain rfl : after = 0 := Multiset.card_eq_zero.mp (by simpa using none)
  exact stays (.head ⟨parent, expansion, 0, offered, rfl, (add_zero _).symm⟩ moves)

end GrammarFuzz
