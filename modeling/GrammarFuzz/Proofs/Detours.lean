import Mathlib.Data.Set.Card
import GrammarFuzz.Proofs.BoundedReach
import GrammarFuzz.Proofs.Documents
import GrammarFuzz.Proofs.Gathering

/-! A deeper walk that finds less. The walk enters a symbol once, with the depth that is left on the
way by which it first comes there. With a greater depth it may come there by a long detour that a
smaller depth cuts off, and then get less far below it than by the short way it would take later. -/
namespace GrammarFuzz.Grammar

variable {g : Grammar} {symbol found : Symbol} {depth deeper : Nat}

/-- The keys that are lost are those of the symbols that are lost. -/
theorem keysWithin_subset_iff (valid : g.Valid) (member : symbol ∈ g.symbols) :
    (∀ key ∈ g.keysWithin (some depth) symbol, key ∈ g.keysWithin (some deeper) symbol) ↔
      ∀ found ∈ g.reached (some depth) symbol, found ∈ g.reached (some deeper) symbol := by
  simp only [mem_keysWithin]
  constructor
  · intro grows found entered
    have known := (reaches_of_mem_reached entered).mem_symbols valid member
    obtain ⟨expansion, offered⟩ := List.exists_mem_of_ne_nil _ (valid.expansions_ne_nil known)
    have own : Key.ofText found expansion.text ∈ g.keysOf found :=
      mem_keysOf.mpr ⟨expansion, offered, rfl⟩
    obtain ⟨other, entered', own'⟩ := grows _ ⟨found, entered, own⟩
    exact eq_of_mem_keysOf valid own own' ▸ entered'
  · rintro grows key ⟨found, entered, own⟩
    exact ⟨found, grows found entered, own⟩

/-! Symbols in a row, with a short cut from the first one to one further on. -/

theorem mem_symbols_ofList {entries : List (Symbol × List String)} :
    symbol ∈ symbols ⟨Rules.ofList entries⟩ ↔ ∃ entry ∈ entries, entry.1 = symbol := by
  rw [mem_symbols_iff_isSome, expansions?_ofList, Option.isSome_map, List.find?_isSome]
  simp only [List.mem_reverse, beq_iff_eq]

def link (position : Nat) : Symbol := numbered "<link>" position

theorem link_injective : Function.Injective link := fun _ _ => numbered_injective "<link>"

theorem isNonterminal_link (position : Nat) : isNonterminal (link position) = true :=
  isNonterminal_numbered (by decide) position

/-- Where the symbol at a position leads. -/
def onward (size target position : Nat) : List Nat :=
  (if position = 0 then [1, target] else [position + 1]).filter (· < size)

/-- Each symbol can end, or lead on. -/
def row (size target : Nat) : Grammar := ⟨Rules.ofList
  ((List.range size).map fun position =>
    (link position, "" :: (onward size target position).map link))⟩

section Row

variable {size target position other : Nat}

theorem mem_symbols_row : symbol ∈ (row size target).symbols ↔
    ∃ position < size, link position = symbol := by
  simp only [row, mem_symbols_ofList, List.mem_map, List.mem_range]
  constructor
  · rintro ⟨_, ⟨position, less, rfl⟩, rfl⟩
    exact ⟨position, less, rfl⟩
  · rintro ⟨position, less, rfl⟩
    exact ⟨_, ⟨position, less, rfl⟩, rfl⟩

theorem expansions_row (less : position < size) : (row size target).expansions (link position) =
    ⟨""⟩ :: (onward size target position).map (⟨link ·⟩) := by
  rw [expansions_eq_getD, row, expansions?_ofList, ← List.map_reverse, List.find?_map]
  obtain ⟨other, found⟩ : ∃ other, (List.range size).reverse.find? (link · == link position) =
      some other := by
    refine Option.isSome_iff_exists.mp (List.find?_isSome.mpr ⟨position, ?_, beq_self_eq_true _⟩)
    exact List.mem_reverse.mpr (List.mem_range.mpr less)
  obtain rfl : other = position := link_injective (by simpa using List.find?_some found)
  simp [Function.comp_def, found]

theorem references_row : (row size target).references (link position) =
    (onward size target position).map link := by
  rw [Grammar.references]
  by_cases less : position < size
  · have referred (other : Nat) : Expansion.references ⟨link other⟩ = [link other] :=
      references_of_isNonterminal (isNonterminal_link other)
    have ended : Expansion.references ⟨""⟩ = [] := rfl
    rw [expansions_row less, List.flatMap_cons, ended, List.nil_append, List.flatMap_map]
    simp only [referred]
    exact List.flatMap_pure_eq_map link _
  · have absent : link position ∉ (row size target).symbols := by
      intro member
      obtain ⟨other, inside, same⟩ := mem_symbols_row.mp member
      exact less (link_injective same ▸ inside)
    have last : onward size target position = [] := by
      refine List.filter_eq_nil_iff.mpr fun next listed => ?_
      split at listed <;> simp at listed ⊢ <;> omega
    rw [expansions_of_not_mem absent, last]
    rfl

theorem valid_row : (row size target).Valid := by
  intro symbol member
  obtain ⟨position, less, rfl⟩ := mem_symbols_row.mp member
  refine ⟨isNonterminal_link position, by simp [expansions_row less], fun child used => ?_⟩
  rw [references_row] at used
  obtain ⟨next, listed, rfl⟩ := List.mem_map.mp used
  exact mem_symbols_row.mpr ⟨next, by simpa using (List.mem_filter.mp listed).2, rfl⟩

theorem references_succ (less : position + 2 < size) :
    (row size target).references (link (position + 1)) = [link (position + 2)] := by
  rw [references_row]
  simp [onward, less]

theorem references_zero (first : 1 < size) (less : target < size) :
    (row size target).references (link 0) = [link 1, link target] := by
  rw [references_row]
  simp [onward, first, less]

theorem reaches_row (less : position < size) :
    (row size target).Reaches (link 0) (link position) := by
  induction position with
  | zero => exact .refl
  | succ position ih =>
      refine (ih (Nat.lt_of_succ_lt less)).tail ?_
      rw [references_row]
      cases position with
      | zero => simp [onward, less]
      | succ position => simp [onward, less]

theorem reachCount_row (some : 0 < size) : (row size target).reachCount (link 0) = size := by
  have reached : {name | (row size target).Reaches (link 0) name} =
      link '' (Finset.range size) := by
    ext name
    constructor
    · intro reaches
      obtain ⟨position, less, same⟩ :=
        mem_symbols_row.mp (reaches.mem_symbols valid_row (mem_symbols_row.mpr ⟨0, some, rfl⟩))
      exact ⟨position, Finset.mem_coe.mpr (Finset.mem_range.mpr less), same⟩
    · rintro ⟨position, inside, rfl⟩
      exact reaches_row (Finset.mem_range.mp (Finset.mem_coe.mp inside))
  rw [reachCount, reached, Set.ncard_image_of_injective _ link_injective, Set.ncard_coe_finset,
    Finset.card_range]

variable {entered : SymbolSet}

/-- Behind the first symbol the walk goes on by one symbol a level. -/
theorem mem_visit_row
    (member : found ∈ (row size target).visit depth entered (link (position + 1))) :
    found ∈ entered ∨ ∃ other < position + 1 + depth, link other = found := by
  have below := mem_visit (fun depth symbol found => ∀ position, link (position + 1) = symbol →
      ∃ other < position + 1 + depth, link other = found)
    (fun {depth symbol} position start => ⟨position + 1, by omega, start⟩) ?_ depth member
  · exact below.imp_right fun within => within position rfl
  · rintro depth symbol child found used within position rfl
    rw [references_row] at used
    obtain ⟨next, listed, rfl⟩ := List.mem_map.mp used
    obtain rfl : next = position + 2 := by
      have here := (List.mem_filter.mp listed).1
      simpa using here
    obtain ⟨other, less, same⟩ := within (position + 1) rfl
    exact ⟨other, by omega, same⟩

/-- If nothing was entered there, it gets as far as the depth allows. -/
theorem link_mem_visit_row (fresh : ∀ other, position < other → link other ∉ entered)
    (less : position + 1 + depth < size) :
    link (position + 1 + depth) ∈ (row size target).visit (depth + 1) entered
      (link (position + 1)) := by
  induction depth generalizing position entered with
  | zero => exact mem_visit_self
  | succ depth ih =>
      have next : ∀ other, position + 1 < other →
          link other ∉ entered.insert (link (position + 1)) := by
        intro other beyond inside
        rcases mem_insert_iff.mp inside with same | before
        · have equal := link_injective same
          omega
        · exact fresh other (by omega) before
      rw [visit_succ, references_succ (by omega), List.foldl_cons, List.foldl_nil,
        enter_of_not_mem (next (position + 2) (by omega))]
      have further := ih next (by omega)
      rwa [show position + 1 + (depth + 1) = position + 1 + 1 + depth by omega]

theorem not_mem_start (positive : 0 < position) :
    link position ∉ (∅ : SymbolSet).insert (link 0) := by
  intro inside
  have equal :=
    link_injective ((mem_insert_iff.mp inside).resolve_right Std.ExtTreeSet.not_mem_empty)
  omega

/-- The row is walked along first, and the short cut comes last. -/
theorem reached_row (first : 1 < size) (less : target < size) :
    (row size target).reached (some (depth + 1)) (link 0) = (row size target).enter depth
      ((row size target).visit depth ((∅ : SymbolSet).insert (link 0)) (link 1)) (link target) := by
  rw [reached, Option.getD_some, visit_succ, references_zero first less, List.foldl_cons,
    List.foldl_cons, List.foldl_nil, enter_of_not_mem (not_mem_start Nat.one_pos)]

/-- Deep enough to walk along to where the short cut leads, the walk ends there. -/
theorem not_mem_reached_row (less : target + 2 < size) :
    link (target + 2) ∉ (row size (target + 1)).reached (some (target + 2)) (link 0) := by
  have met : link (target + 1) ∈
      (row size (target + 1)).visit (target + 1) ((∅ : SymbolSet).insert (link 0)) (link 1) := by
    have last : link (0 + 1 + target) ∈
        (row size (target + 1)).visit (target + 1) ((∅ : SymbolSet).insert (link 0)) (link 1) :=
      link_mem_visit_row (fun other positive => not_mem_start positive) (by omega)
    rwa [Nat.zero_add, Nat.add_comm 1 target] at last
  rw [reached_row (by omega) (by omega), enter_of_mem met]
  intro found
  rcases mem_visit_row found with start | ⟨other, near, same⟩
  · exact not_mem_start (by omega) start
  · have equal := link_injective same
    omega

/-- Less deep, it takes the short cut and gets further. -/
theorem mem_reached_row (shallow : depth + 2 < target) (less : target + 1 < size) :
    link (target + 1) ∈ (row size target).reached (some (depth + 3)) (link 0) := by
  have unmet : link target ∉ (row size target).visit (depth + 2) ((∅ : SymbolSet).insert (link 0))
      (link 1) := by
    intro found
    rcases mem_visit_row found with start | ⟨other, near, same⟩
    · exact not_mem_start (by omega) start
    · have equal := link_injective same
      omega
  rw [reached_row (by omega) (by omega), enter_of_not_mem unmet, visit_succ]
  apply mem_foldl_enter
  obtain ⟨before, rfl⟩ := Nat.exists_eq_succ_of_ne_zero (Nat.ne_of_gt (Nat.zero_lt_of_lt shallow))
  rw [references_succ less]
  exact List.mem_singleton_self _

end Row

/-- Whatever the grammar, a greater depth finds all that a smaller one finds if the smaller one is
at most two or the greater one no less than the number of symbols to reach; of any other two
different depths and number of symbols to reach, there is a grammar for which the greater one loses
a key. -/
theorem maximumCoverageFrom_grows_iff (depth more count : Nat) :
    (∀ g : Grammar, g.Valid → ∀ symbol ∈ g.symbols, g.reachCount symbol = count →
      ∃ narrow wide, g.maximumCoverageFrom symbol (some depth) = .ok narrow ∧
        g.maximumCoverageFrom symbol (some (depth + more)) = .ok wide ∧
        ∀ key ∈ narrow, key ∈ wide) ↔
    depth ≤ 2 ∨ more = 0 ∨ count ≤ depth + more := by
  constructor
  · intro grows
    by_contra detour
    push Not at detour
    obtain ⟨deep, further, beyond⟩ := detour
    obtain ⟨near, rfl⟩ : ∃ near, depth = near + 3 := ⟨depth - 3, by omega⟩
    obtain ⟨target, same⟩ : ∃ target, near + 3 + more = target + 2 := ⟨near + 1 + more, by omega⟩
    rw [same] at grows beyond
    have start : link 0 ∈ (row count (target + 1)).symbols := mem_symbols_row.mpr ⟨0, by omega, rfl⟩
    obtain ⟨narrow, wide, narrowed, widened, kept⟩ :=
      grows (row count (target + 1)) valid_row (link 0) start (reachCount_row (by omega))
    obtain ⟨_, rfl⟩ := maximumCoverageFrom_eq_ok.mp narrowed
    obtain ⟨_, rfl⟩ := maximumCoverageFrom_eq_ok.mp widened
    have entered := mem_reached_row (by omega : near + 2 < target + 1) beyond
    exact not_mem_reached_row beyond ((keysWithin_subset_iff valid_row start).mp kept _ entered)
  · rintro bound g valid symbol member rfl
    refine ⟨_, _, maximumCoverageFrom_eq_ok.mpr ⟨member, rfl⟩,
      maximumCoverageFrom_eq_ok.mpr ⟨member, rfl⟩, ?_⟩
    refine (keysWithin_subset_iff valid member).mpr fun found entered => ?_
    rcases bound with shallow | rfl | enough
    · exact mem_reached_of_le_two shallow (Nat.le_add_right depth more) entered
    · exact entered
    · exact mem_reached_of_reachCount_le valid member enough (reaches_of_mem_reached entered)

/-- The short way to the last symbols comes after a long one. -/
def detour : Grammar := ⟨Rules.ofList [
  ("<s>", ["<a><x>"]), ("<a>", ["<b>"]), ("<b>", ["<x>"]), ("<x>", ["<y>"]), ("<y>", ["y"])]⟩

theorem detour_loses : detour.Valid ∧ "<s>" ∈ detour.symbols ∧ 3 ≤ 4 ∧
    ∃ narrow wide, detour.maximumCoverageFrom "<s>" (some 3) = .ok narrow ∧
      detour.maximumCoverageFrom "<s>" (some 4) = .ok wide ∧
      Key.ofText "<y>" "y" ∈ narrow ∧ Key.ofText "<y>" "y" ∉ wide := by
  have member : "<s>" ∈ detour.symbols := by decide +kernel
  refine ⟨by decide +kernel, member, by decide, _, _, maximumCoverageFrom_eq_ok.mpr ⟨member, rfl⟩,
    maximumCoverageFrom_eq_ok.mpr ⟨member, rfl⟩, ?_, ?_⟩
  · decide +kernel
  · decide +kernel

end GrammarFuzz.Grammar
