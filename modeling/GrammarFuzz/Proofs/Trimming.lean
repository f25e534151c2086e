import GrammarFuzz.Proofs.Reachability

/-! Trimming keeps the rules of the reachable symbols as they are. What is reachable is closed
under references, so a trimmed grammar is valid. -/
namespace GrammarFuzz.Grammar

variable {g : Grammar} {start symbol : Symbol}

/-- The rules of the symbols that a walk from `start` enters. -/
def kept (g : Grammar) (start : Symbol) : Grammar :=
  ⟨g.rules.filter fun symbol _ => (g.reached none start).contains symbol⟩

theorem trim_of_mem (member : start ∈ g.symbols) : g.trim start =
    .ok (g.symbols.filter fun symbol => !(g.reached none start).contains symbol, g.kept start) := by
  simp only [trim, unreachable, require_eq_ok.mpr ⟨member, rfl⟩]
  rfl

theorem require_of_not_mem (absent : symbol ∉ g.symbols) :
    g.require symbol = .error (.unknownSymbol symbol) := by
  rw [require, expansions?_of_not_mem absent]

theorem trim_of_not_mem (absent : start ∉ g.symbols) :
    g.trim start = .error (.unknownSymbol start) := by
  simp only [trim, unreachable, require_of_not_mem absent]

theorem expansions?_kept : (g.kept start).expansions? symbol =
    if symbol ∈ g.reached none start then g.expansions? symbol else none := by
  simp only [expansions?, kept, Std.ExtTreeMap.getElem?_filter']
  split
  · rename_i inside
    rw [Std.ExtTreeSet.contains_iff_mem.mpr inside]
    cases g.rules[symbol]? <;> rfl
  · rename_i outside
    rw [Bool.eq_false_iff.mpr (Std.ExtTreeSet.contains_iff_mem.not.mpr outside)]
    cases g.rules[symbol]? <;> rfl

theorem filter_insert (keep : Symbol → Bool) (rules : Rules) (symbol : Symbol)
    (expansions : List Expansion) :
    (rules.insert symbol expansions).filter (fun symbol _ => keep symbol) =
      if keep symbol then (rules.filter fun symbol _ => keep symbol).insert symbol expansions
      else rules.filter fun symbol _ => keep symbol := by
  apply Std.ExtTreeMap.ext_getElem?
  intro name
  by_cases same : symbol = name
  · subst same
    cases inside : keep symbol <;> simp [inside]
  · cases keep symbol <;> simp [Std.ExtTreeMap.getElem?_insert, same]

theorem filter_ofList (keep : Symbol → Bool) (entries : List (Symbol × List String)) :
    (Rules.ofList entries).filter (fun symbol _ => keep symbol) =
      Rules.ofList (entries.filter fun entry => keep entry.1) := by
  have none : (∅ : Rules).filter (fun symbol _ => keep symbol) = ∅ := by
    apply Std.ExtTreeMap.ext_getElem?
    simp
  unfold Rules.ofList
  conv => rhs; rw [← none]
  generalize (∅ : Rules) = rules
  induction entries generalizing rules with
  | nil => rfl
  | cons entry rest ih =>
      rw [List.foldl_cons, ih, List.filter_cons, filter_insert]
      split <;> rfl

/-- Rules given as entries are trimmed by leaving entries out. -/
theorem kept_ofList (entries : List (Symbol × List String)) :
    Grammar.kept ⟨Rules.ofList entries⟩ start = ⟨Rules.ofList (entries.filter fun entry =>
      (Grammar.reached ⟨Rules.ofList entries⟩ none start).contains entry.1)⟩ :=
  congrArg Grammar.mk (filter_ofList _ entries)

theorem mem_symbols_iff_isSome : symbol ∈ g.symbols ↔ (g.expansions? symbol).isSome = true := by
  by_cases member : symbol ∈ g.symbols
  · simp [expansions?_of_mem member, member]
  · simp [expansions?_of_not_mem member, member]

theorem expansions_eq_getD : g.expansions symbol = (g.expansions? symbol).getD [] :=
  Std.ExtTreeMap.getD_eq_getD_getElem?

section Valid

variable (valid : g.Valid) (member : start ∈ g.symbols)
include valid member

theorem mem_reached_iff : symbol ∈ g.reached none start ↔ g.Reaches start symbol :=
  ⟨reaches_of_mem_reached, mem_reached_of_reaches valid member (Nat.le_refl _)⟩

theorem mem_symbols_kept : symbol ∈ (g.kept start).symbols ↔ g.Reaches start symbol := by
  rw [mem_symbols_iff_isSome, expansions?_kept]
  split
  · rename_i inside
    have reaches := (mem_reached_iff valid member).mp inside
    simp only [mem_symbols_iff_isSome.mp (reaches.mem_symbols valid member), reaches]
  · rename_i outside
    have unreached := (mem_reached_iff valid member).not.mp outside
    simp [unreached]

theorem expansions_kept (reaches : g.Reaches start symbol) :
    (g.kept start).expansions symbol = g.expansions symbol := by
  rw [expansions_eq_getD, expansions?_kept, if_pos ((mem_reached_iff valid member).mpr reaches),
    expansions_eq_getD]

theorem valid_kept : (g.kept start).Valid := by
  intro symbol listed
  have reaches := (mem_symbols_kept valid member).mp listed
  obtain ⟨closed, some, known⟩ := valid symbol (reaches.mem_symbols valid member)
  simp only [references, expansions_kept valid member reaches]
  exact ⟨closed, some, fun reference used =>
    (mem_symbols_kept valid member).mpr (reaches.tail used)⟩

/-- What is reached is reached without leaving what is kept. -/
theorem reaches_kept (reaches : g.Reaches start symbol) : (g.kept start).Reaches start symbol := by
  induction reaches with
  | refl => exact .refl
  | tail earlier step ih =>
      refine ih.tail ?_
      rwa [references, expansions_kept valid member earlier]

/-- All that is left to cover lies within reach. -/
theorem maximumCoverage_kept : (g.kept start).maximumCoverage =
    (g.kept start).keysWithin none start := by
  have listed := (mem_symbols_kept valid member).mpr .refl
  refine Std.ExtTreeSet.ext_mem fun key => ?_
  have within : key ∈ (g.kept start).keysWithin none start ↔ _ :=
    mem_keysWithin_of_reaches (valid_kept valid member) listed (Nat.le_refl _)
  rw [mem_maximumCoverage, within]
  refine exists_congr fun found => and_congr_left fun _ => ⟨fun kept => ?_, fun reaches => ?_⟩
  · exact reaches_kept valid member ((mem_symbols_kept valid member).mp kept)
  · exact reaches.mem_symbols (valid_kept valid member) listed

end Valid
end GrammarFuzz.Grammar
