import GrammarFuzz.Coverage.Lookahead
import GrammarFuzz.Proofs.Coverage
import GrammarFuzz.Proofs.Trees

/-! What looking ahead finds. Memory that holds what the walk finds does not show in the
answers. The search stops with nothing exactly if no candidate leads to an uncovered key at
any distance, and otherwise every offer that is not empty leads to one. -/
namespace GrammarFuzz.Lookahead

/-- Memory holds what the walk finds. -/
def Faithful (g : Grammar) (memory : ReachMemory) : Prop :=
  ∀ symbol depth keys, known? memory symbol depth = some keys →
    keys = g.keysWithin (some depth) symbol

theorem faithful_empty (g : Grammar) : Faithful g ∅ := by
  intro symbol depth keys found
  simp [known?] at found

theorem Faithful.remember {g : Grammar} {memory : ReachMemory} (faithful : Faithful g memory)
    (symbol : Symbol) (depth : Nat) :
    Faithful g (remember memory symbol depth (g.keysWithin (some depth) symbol)) := by
  intro other level keys found
  simp only [known?, Lookahead.remember, Std.ExtTreeMap.getD_insert,
    Std.LawfulEqCmp.compare_eq_iff_eq] at found
  split at found
  · rename_i same
    subst same
    simp only [Std.ExtTreeMap.getElem?_insert, Std.LawfulEqCmp.compare_eq_iff_eq] at found
    split at found
    · rename_i same
      subst same
      exact (Option.some.inj found).symm
    · exact faithful symbol level keys found
  · exact faithful other level keys found

/-- Started with faithful memory the action answers the value, and leaves faithful memory. -/
def Answers (g : Grammar) {α : Type} (action : StateM ReachMemory α) (value : α) : Prop :=
  ∀ memory, Faithful g memory → (action.run memory).1 = value ∧ Faithful g (action.run memory).2

section Answers

variable {g : Grammar} {α β : Type}

theorem Answers.pure (value : α) : Answers g (pure value) value :=
  fun _ faithful => ⟨rfl, faithful⟩

theorem Answers.bind {action : StateM ReachMemory α} {next : α → StateM ReachMemory β} {value : α}
    {result : β} (first : Answers g action value) (second : Answers g (next value) result) :
    Answers g (action >>= next) result := by
  intro memory faithful
  obtain ⟨same, faithful⟩ := first memory faithful
  rw [StateT.run_bind]
  have rest := second _ faithful
  rw [← same] at rest
  exact rest

theorem Answers.mapM {f : α → StateM ReachMemory β} {value : α → β}
    (each : ∀ item, Answers g (f item) (value item)) (items : List α) :
    Answers g (items.mapM f) (items.map value) := by
  induction items with
  | nil => exact .pure []
  | cons item rest ih =>
      rw [List.mapM_cons]
      exact (each item).bind (ih.bind (.pure _))

end Answers

/-- The keys found below a symbol, without memory. -/
def found (g : Grammar) (depth : Nat) (symbol : Symbol) : KeySet :=
  if g.contains symbol then g.keysWithin (some depth) symbol else ∅

theorem answers_below (g : Grammar) (depth : Nat) (symbol : Symbol) :
    Answers g (below g depth symbol) (found g depth symbol) := by
  intro memory faithful
  simp only [below, found, StateT.run]
  split
  · cases remembered : known? memory symbol depth with
    | some keys => exact ⟨faithful symbol depth keys remembered, faithful⟩
    | none => exact ⟨rfl, faithful.remember symbol depth⟩
  · exact ⟨rfl, faithful⟩

/-- The uncovered keys offered by a candidate, without memory. -/
def offer (t : Tracker) (symbol : Symbol) (depth : Nat) (children : List Tree) : KeySet :=
  ((children.map fun child => found t.grammar depth child.symbol).foldl Std.ExtTreeSet.union
    {Key.ofChildren symbol children}).filter (fun key => !t.isCovered key)

theorem answers_newCoverage (t : Tracker) (symbol : Symbol) (depth : Nat) (children : List Tree) :
    Answers t.grammar (newCoverage t symbol depth children) (offer t symbol depth children) := by
  have reaches :=
    Answers.mapM (fun child : Tree => answers_below t.grammar depth child.symbol) children
  unfold newCoverage
  exact reaches.bind (.pure _)

/-- The first of so many depths at which some candidate offers a key. -/
def firstOffer? (t : Tracker) (symbol : Symbol) (candidates : List (List Tree))
    (levels depth : Nat) : Option Nat :=
  (List.range' depth levels).find? fun level => candidates.any fun children =>
    !(offer t symbol level children).isEmpty

/-- The search answers the offers at the first depth with an offer, if there is one. -/
theorem answers_search (t : Tracker) (symbol : Symbol) (candidates : List (List Tree))
    (levels : Nat) : ∀ depth,
    Answers t.grammar (search t symbol candidates levels depth)
      ((firstOffer? t symbol candidates levels depth).map fun level =>
        candidates.map (offer t symbol level)) := by
  induction levels with
  | zero => exact fun depth => .pure none
  | succ levels ih =>
      intro depth
      have offers := Answers.mapM (answers_newCoverage t symbol depth) candidates
      unfold search
      apply offers.bind
      rw [firstOffer?, List.range'_succ, List.find?_cons, List.any_map, Function.comp_def]
      cases candidates.any fun children => !(offer t symbol depth children).isEmpty with
      | true => exact .pure _
      | false => exact ih (depth + 1)

theorem mem_found {g : Grammar} {depth : Nat} {symbol : Symbol} {key : Key} :
    key ∈ found g depth symbol ↔ symbol ∈ g.symbols ∧ key ∈ g.keysWithin (some depth) symbol := by
  unfold found
  by_cases member : symbol ∈ g.symbols
  · simp [Grammar.contains_iff.mpr member, member]
  · simp [Grammar.contains_eq_false_iff.mpr member, member]

theorem mem_foldl_union {sets : List KeySet} {start : KeySet} {key : Key} :
    key ∈ sets.foldl Std.ExtTreeSet.union start ↔ key ∈ start ∨ ∃ set ∈ sets, key ∈ set := by
  induction sets generalizing start with
  | nil => simp
  | cons first rest ih =>
      have united : key ∈ start.union first ↔ key ∈ start ∨ key ∈ first :=
        Std.ExtTreeSet.mem_union_iff
      rw [List.foldl_cons, ih, united, List.exists_mem_cons_iff, or_assoc]

theorem mem_uncovered {t : Tracker} {sets : List KeySet} {own key : Key} :
    key ∈ (sets.foldl Std.ExtTreeSet.union {own}).filter (fun key => !t.isCovered key) ↔
      (key = own ∨ ∃ set ∈ sets, key ∈ set) ∧ key ∉ t.covered := by
  have single : key ∈ ({own} : KeySet) ↔ key = own := by
    rw [Std.ExtTreeSet.singleton_eq_insert]
    simp only [Std.ExtTreeSet.mem_insert, Std.LawfulEqCmp.compare_eq_iff_eq,
      Std.ExtTreeSet.not_mem_empty, or_false]
    exact eq_comm
  rw [Std.ExtTreeSet.mem_filter]
  simp only [Std.ExtTreeSet.get_eq, mem_foldl_union, single, Tracker.isCovered,
    not_contains_iff, exists_prop]

theorem mem_offer {t : Tracker} {symbol : Symbol} {depth : Nat} {children : List Tree} {key : Key} :
    key ∈ offer t symbol depth children ↔ (key = Key.ofChildren symbol children ∨
      ∃ child ∈ children, key ∈ found t.grammar depth child.symbol) ∧ key ∉ t.covered := by
  rw [offer, mem_uncovered]
  simp only [List.mem_map, exists_exists_and_eq_and]

theorem isEmpty_eq_false_iff {keys : KeySet} : keys.isEmpty = false ↔ ∃ key, key ∈ keys := by
  rw [Std.ExtTreeSet.isEmpty_eq_false_iff, Std.ExtTreeSet.eq_empty_iff_forall_not_mem,
    not_forall_not]

end GrammarFuzz.Lookahead

namespace GrammarFuzz.Tracker

/-- Some key that is not covered yet lies at or below a symbol. -/
def Leads (t : Tracker) (symbol : Symbol) : Prop :=
  ∃ below, t.grammar.Reaches symbol below ∧ ∃ key ∈ t.grammar.keysOf below, key ∉ t.covered

/-- Expanding a symbol this way covers a new key, or leads to one. -/
def Gains (t : Tracker) (symbol : Symbol) (expansion : Expansion) : Prop :=
  Key.ofText symbol expansion.text ∉ t.covered ∨
    ∃ reference ∈ expansion.references, t.Leads reference

theorem Leads.of_covered {t after : Tracker} {symbol : Symbol} (leads : t.Leads symbol)
    (same : after.grammar = t.grammar) (covered : ∀ key ∈ after.covered, key ∈ t.covered) :
    after.Leads symbol := by
  obtain ⟨below, reaches, key, own, fresh⟩ := leads
  unfold Leads
  rw [same]
  exact ⟨below, reaches, key, own, fun recorded => fresh (covered key recorded)⟩

theorem leads_iff {t : Tracker} {symbol : Symbol} :
    t.Leads symbol ↔ ∃ expansion ∈ t.grammar.expansions symbol, t.Gains symbol expansion := by
  constructor
  · rintro ⟨below, reaches, key, own, fresh⟩
    rcases Relation.ReflTransGen.cases_head reaches with rfl | ⟨child, step, reaches⟩
    · obtain ⟨expansion, member, rfl⟩ := Grammar.mem_keysOf.mp own
      exact ⟨expansion, member, .inl fresh⟩
    · obtain ⟨expansion, member, used⟩ := List.mem_flatMap.mp step
      exact ⟨expansion, member, .inr ⟨child, used, below, reaches, key, own, fresh⟩⟩
  · rintro ⟨expansion, member, fresh | ⟨reference, used, below, reaches, unmet⟩⟩
    · exact ⟨symbol, .refl, _, Grammar.mem_keysOf.mpr ⟨expansion, member, rfl⟩, fresh⟩
    · exact ⟨below, .head (Grammar.mem_references_of_expansion member used) reaches, unmet⟩

end GrammarFuzz.Tracker

namespace GrammarFuzz.Lookahead

variable {t : Tracker} {symbol : Symbol} {expansion : Expansion} (valid : t.grammar.Valid)
include valid

theorem gains_of_offer {depth : Nat}
    (some : (offer t symbol depth expansion.toChildren).isEmpty = false) :
    t.Gains symbol expansion := by
  obtain ⟨key, offered⟩ := isEmpty_eq_false_iff.mp some
  obtain ⟨own | ⟨child, listed, below⟩, fresh⟩ := mem_offer.mp offered
  · rw [Expansion.ofChildren_toChildren] at own
    exact .inl (own ▸ fresh)
  · obtain ⟨known, within⟩ := mem_found.mp below
    obtain ⟨found, entered, own⟩ := Grammar.mem_keysWithin.mp within
    rcases Expansion.toChildren_cases listed with ⟨reference, used, _, rfl⟩ | ⟨text, terminal, rfl⟩
    · exact .inr ⟨reference, used, found, Grammar.reaches_of_mem_reached entered, key, own, fresh⟩
    · have closed := valid.closed known
      simp only [Tree.symbol, terminal, Bool.false_eq_true] at closed

theorem offer_of_gains (member : expansion ∈ t.grammar.expansions symbol)
    (gains : t.Gains symbol expansion) :
    (offer t symbol t.grammar.size expansion.toChildren).isEmpty = false := by
  rw [isEmpty_eq_false_iff]
  rcases gains with fresh | ⟨reference, used, found, reaches, key, own, fresh⟩
  · exact ⟨_, mem_offer.mpr ⟨.inl (Expansion.ofChildren_toChildren symbol expansion).symm, fresh⟩⟩
  · have known := valid.references_mem member used
    refine ⟨key, mem_offer.mpr ⟨.inr ⟨_, Expansion.pending_mem_toChildren used,
      mem_found.mpr ⟨known, ?_⟩⟩, fresh⟩⟩
    exact (Grammar.mem_keysWithin_of_reaches valid known (Nat.le_refl _)).mpr ⟨found, reaches, own⟩

/-- The search finds nothing exactly if no candidate gains anything; otherwise an offer that
is not empty is a gain, and some offer is not empty. -/
theorem answers_newCoverages {expansions : List Expansion}
    (listed : ∀ expansion ∈ expansions, expansion ∈ t.grammar.expansions symbol) : ∃ result,
    Answers t.grammar (newCoverages t symbol (expansions.map Expansion.toChildren)) result ∧
      (∀ offers, result = some offers → offers.any (!·.isEmpty) = true ∧
        List.Forall₂ (fun expansion offered => offered.isEmpty = false → t.Gains symbol expansion)
          expansions offers) ∧
      (result = none → ∀ expansion ∈ expansions, ¬t.Gains symbol expansion) := by
  refine ⟨_, answers_search t symbol (expansions.map Expansion.toChildren) t.grammar.size 1, ?_, ?_⟩
  · intro offers same
    obtain ⟨level, found, rfl⟩ := Option.map_eq_some_iff.mp same
    constructor
    · have some := List.find?_some found
      rwa [List.any_map]
    · rw [List.map_map]
      refine List.forall₂_map_right_iff.mpr (List.forall₂_same.mpr fun expansion inside => ?_)
      exact gains_of_offer valid
  · intro nothing expansion inside gains
    have known := Grammar.mem_symbols_of_expansion (listed expansion inside)
    have some : 0 < t.grammar.size := by
      have keys : t.grammar.symbols.length = t.grammar.size := Std.ExtTreeMap.length_keys
      rw [← keys]
      exact List.length_pos_of_mem known
    have passed : t.grammar.size ∈ List.range' 1 t.grammar.size :=
      List.mem_range'_1.mpr ⟨some, by omega⟩
    refine List.find?_eq_none.mp (Option.map_eq_none_iff.mp nothing) _ passed
      (List.any_eq_true.mpr ?_)
    refine ⟨_, List.mem_map_of_mem (f := Expansion.toChildren) inside, ?_⟩
    rw [offer_of_gains valid (listed expansion inside) gains]
    rfl

end GrammarFuzz.Lookahead
