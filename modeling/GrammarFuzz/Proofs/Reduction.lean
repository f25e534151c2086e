import GrammarFuzz.Proofs.Derivation
import GrammarFuzz.Proofs.Gathering

/-! Trimming keeps exactly what the start symbol needs. A walk with a stack and the recursive walk
that gathers keys enter the same symbols, those that can be reached; the rules of all others are
dropped. Nothing kept refers to what is dropped, so what is kept derives what it derived before. -/
namespace GrammarFuzz.Grammar

variable {g : Grammar} {start symbol : Symbol} {entered : SymbolSet} {stack : List Symbol}

theorem references_of_not_mem (absent : symbol ∉ g.symbols) : g.references symbol = [] := by
  rw [references, expansions_of_not_mem absent, List.flatMap_nil]

/-- Take symbols off a stack, the last one put on it first. A symbol that was not entered before
is entered, and its references that were not entered are put on the stack. -/
def stackWalk (g : Grammar) (entered : SymbolSet) : List Symbol → SymbolSet
  | [] => entered
  | symbol :: stack =>
      if symbol ∈ entered then stackWalk g entered stack
      else
        stackWalk g (entered.insert symbol)
          (((g.references symbol).filter (!(entered.insert symbol).contains ·)).reverse ++ stack)
-- A symbol without a rule does not shrink what is left to enter, but puts nothing on the stack.
termination_by stack => (g.unentered entered, stack.length)
decreasing_by
  · exact .right _ (by simp)
  · by_cases member : symbol ∈ g.symbols
    · exact .left _ _ (unentered_insert member ‹_›)
    · have fewer : g.unentered (entered.insert symbol) ≤ g.unentered entered :=
        unentered_mono fun other inside => mem_insert_iff.mpr (.inr inside)
      rcases Nat.lt_or_eq_of_le fewer with less | same
      · exact .left _ _ less
      · rw [same, references_of_not_mem member]
        exact .right _ (by simp)

theorem stackWalk_sound (sound : ∀ found ∈ entered, g.Reaches start found)
    (below : ∀ waiting ∈ stack, g.Reaches start waiting) :
    ∀ found ∈ g.stackWalk entered stack, g.Reaches start found := by
  fun_induction stackWalk g entered stack with
  | case1 entered => exact sound
  | case2 entered symbol stack _ ih =>
      exact ih sound fun waiting later => below waiting (List.mem_cons_of_mem symbol later)
  | case3 entered symbol stack _ ih =>
      have here := below symbol List.mem_cons_self
      apply ih
      · intro found inside
        rcases mem_insert_iff.mp inside with rfl | before
        · exact here
        · exact sound found before
      · intro waiting listed
        rcases List.mem_append.mp listed with pushed | later
        · exact here.tail (List.mem_filter.mp (List.mem_reverse.mp pushed)).1
        · exact below waiting (List.mem_cons_of_mem symbol later)

/-- The invariant of the walk: what an entered symbol refers to is entered or waits on the stack. -/
theorem stackWalk_closed
    (awaited : ∀ symbol ∈ entered, ∀ child ∈ g.references symbol, child ∈ entered ∨ child ∈ stack) :
    (∀ found, found ∈ entered ∨ found ∈ stack → found ∈ g.stackWalk entered stack) ∧
      ∀ symbol ∈ g.stackWalk entered stack, ∀ child ∈ g.references symbol,
        child ∈ g.stackWalk entered stack := by
  fun_induction stackWalk g entered stack with
  | case1 entered => simpa using awaited
  | case2 entered symbol stack inside ih =>
      have again : ∀ {found}, found ∈ entered ∨ found ∈ symbol :: stack → found ∈ entered ∨
          found ∈ stack := by
        rintro found (before | waiting)
        · exact .inl before
        · rcases List.mem_cons.mp waiting with rfl | later
          · exact .inl inside
          · exact .inr later
      obtain ⟨grows, closed⟩ :=
        ih fun parent known child used => again (awaited parent known child used)
      exact ⟨fun found known => grows found (again known), closed⟩
  | case3 entered symbol stack outside ih =>
      have again : ∀ {found}, found ∈ entered ∨ found ∈ symbol :: stack →
          found ∈ entered.insert symbol ∨ found ∈ ((g.references symbol).filter
            (!(entered.insert symbol).contains ·)).reverse ++ stack := by
        rintro found (before | waiting)
        · exact .inl (mem_insert_iff.mpr (.inr before))
        · rcases List.mem_cons.mp waiting with rfl | later
          · exact .inl (mem_insert_iff.mpr (.inl rfl))
          · exact .inr (List.mem_append_right _ later)
      obtain ⟨grows, closed⟩ := ih fun parent known child used => by
        rcases mem_insert_iff.mp known with rfl | before
        · by_cases there : child ∈ entered.insert symbol
          · exact .inl there
          · refine .inr (List.mem_append_left _ (List.mem_reverse.mpr ?_))
            exact List.mem_filter.mpr ⟨used, not_contains_iff.mpr there⟩
        · exact again (awaited parent before child used)
      exact ⟨fun found known => grows found (again known), closed⟩

/-- The walk with a stack enters exactly what can be reached. -/
theorem mem_stackWalk_iff : symbol ∈ g.stackWalk ∅ [start] ↔ g.Reaches start symbol := by
  constructor
  · apply stackWalk_sound
    · exact fun found inside => absurd inside Std.ExtTreeSet.not_mem_empty
    · exact fun waiting listed => List.mem_singleton.mp listed ▸ .refl
  · intro reaches
    have awaited : ∀ symbol ∈ (∅ : SymbolSet), ∀ child ∈ g.references symbol,
        child ∈ (∅ : SymbolSet) ∨ child ∈ [start] :=
      fun symbol inside => absurd inside Std.ExtTreeSet.not_mem_empty
    obtain ⟨grows, closed⟩ := stackWalk_closed awaited
    induction reaches with
    | refl => exact grows start (.inr List.mem_cons_self)
    | tail _ step ih => exact closed _ ih _ step

/-- The grammar without the rules that no derivation from `start` can use. -/
structure Reduces (g : Grammar) (start : Symbol) (dropped : List Symbol)
    (trimmed : Grammar) : Prop where
  sorted : dropped.Pairwise (· < ·)
  mem_dropped_iff {symbol : Symbol} : symbol ∈ dropped ↔
    symbol ∈ g.symbols ∧ ¬g.Reaches start symbol
  rule {symbol : Symbol} :
    trimmed.expansions? symbol = if symbol ∈ dropped then none else g.expansions? symbol
  valid : trimmed.Valid
  /-- Trimming once more drops nothing. -/
  again : trimmed.trim start = .ok ([], trimmed)
  derives_iff {symbol : Symbol} :
    symbol ∈ trimmed.symbols → ∀ text, trimmed.Derives symbol text ↔ g.Derives symbol text
  within : trimmed.maximumCoverageFrom start none = .ok trimmed.maximumCoverage
  within_before : g.maximumCoverageFrom start none = .ok trimmed.maximumCoverage

section Valid

variable (valid : g.Valid) (member : start ∈ g.symbols)
include valid member

theorem stackWalk_eq_reached : g.stackWalk ∅ [start] = g.reached none start :=
  Std.ExtTreeSet.ext_mem fun _ => mem_stackWalk_iff.trans (mem_reached_iff valid member).symm

theorem mem_kept_self : start ∈ (g.kept start).symbols := (mem_symbols_kept valid member).mpr .refl

/-- Within what is kept everything is reached, so nothing is dropped a second time. -/
theorem trim_kept : (g.kept start).trim start = .ok ([], g.kept start) := by
  have keptValid := valid_kept valid member
  have listed := mem_kept_self valid member
  have reached : ∀ symbol ∈ (g.kept start).symbols, symbol ∈ (g.kept start).reached none start :=
    fun symbol inside => (mem_reached_iff keptValid listed).mpr
      (reaches_kept valid member ((mem_symbols_kept valid member).mp inside))
  have none : (g.kept start).symbols.filter
      (fun symbol => !((g.kept start).reached none start).contains symbol) = [] := by
    refine List.filter_eq_nil_iff.mpr fun symbol inside => ?_
    rw [not_contains_iff, not_not]
    exact reached symbol inside
  have same : (g.kept start).kept start = g.kept start := by
    refine ext_expansions? fun symbol => ?_
    rw [expansions?_kept]
    split
    · rfl
    · rename_i outside
      exact (expansions?_of_not_mem fun inside => outside (reached symbol inside)).symm
  rw [trim_of_mem listed, none, same]

theorem renaming_kept : Renaming id (g.kept start) g where
  image kept := ((mem_symbols_kept valid member).mp kept).mem_symbols valid member
  rule kept := by
    rw [expansions_kept valid member ((mem_symbols_kept valid member).mp kept)]
    exact (List.map_congr_left fun expansion _ => Expansion.rename_id).trans (List.map_id _)

theorem keysWithin_eq_maximumCoverage_kept :
    g.keysWithin none start = (g.kept start).maximumCoverage := by
  refine Std.ExtTreeSet.ext_mem fun key => ?_
  have within : key ∈ g.keysWithin none start ↔ _ :=
    mem_keysWithin_of_reaches valid member (Nat.le_refl _)
  rw [within, mem_maximumCoverage]
  refine exists_congr fun symbol => ?_
  rw [mem_symbols_kept valid member]
  exact and_congr_right fun reaches => by rw [keysOf, keysOf, expansions_kept valid member reaches]

/-- Trimming drops the rules that cannot be reached, and these only. A walk with a stack finds
what to keep, and the recursive walk that gathers keys finds the same symbols and just the keys
that are left. -/
theorem trim_reduces : ∃ dropped trimmed, g.trim start = .ok (dropped, trimmed) ∧
    g.Reduces start dropped trimmed ∧
    dropped = g.symbols.filter (fun symbol => !(g.stackWalk ∅ [start]).contains symbol) ∧
    g.gather g.size start ⟨∅, ∅⟩ = ⟨trimmed.maximumCoverage, g.stackWalk ∅ [start]⟩ := by
  have dropped {symbol : Symbol} :
      symbol ∈ g.symbols.filter (fun symbol => !(g.reached none start).contains symbol) ↔
      symbol ∈ g.symbols ∧ ¬g.Reaches start symbol := by
    rw [List.mem_filter, not_contains_iff, mem_reached_iff valid member]
  refine ⟨_, g.kept start, trim_of_mem member, ?_, ?_, ?_⟩
  · refine {
      sorted := g.pairwise_symbols.filter _
      mem_dropped_iff := dropped
      rule := fun {symbol} => ?_
      valid := valid_kept valid member
      again := trim_kept valid member
      derives_iff :=
        fun kept => (renaming_kept valid member).derives_iff (valid_kept valid member) valid kept
      within := maximumCoverageFrom_eq_ok.mpr ⟨mem_kept_self valid member,
        (maximumCoverage_kept valid member).symm⟩
      within_before :=
        maximumCoverageFrom_eq_ok.mpr ⟨member, keysWithin_eq_maximumCoverage_kept valid member⟩ }
    rw [expansions?_kept]
    by_cases known : symbol ∈ g.symbols
    · by_cases reaches : g.Reaches start symbol
      · rw [if_pos ((mem_reached_iff valid member).mpr reaches),
          if_neg fun gone => (dropped.mp gone).2 reaches]
      · rw [if_neg ((mem_reached_iff valid member).not.mpr reaches),
          if_pos (dropped.mpr ⟨known, reaches⟩)]
    · simp only [expansions?_of_not_mem known, ite_self]
  · rw [stackWalk_eq_reached valid member]
  · rw [gather_eq valid member, stackWalk_eq_reached valid member,
      keysWithin_of_deep valid member (Nat.le_refl _),
      keysWithin_eq_maximumCoverage_kept valid member]
    rfl

end Valid

/-- The symbols that refer to each other are needed; what leads to them and what does not
concern them is dropped. -/
theorem entwined_reduces : entwined.Valid ∧ "<list>" ∈ entwined.symbols ∧
    ∃ trimmed, entwined.trim "<list>" = .ok (["<spare>", "<start>"], trimmed) ∧
      entwined.Reduces "<list>" ["<spare>", "<start>"] trimmed ∧
      trimmed.maximumCoverage.size = 4 := by
  have valid : entwined.Valid := by decide +kernel
  have member : "<list>" ∈ entwined.symbols := by decide +kernel
  have names : (entwined.trim "<list>").map Prod.fst = .ok ["<spare>", "<start>"] := by
    decide +kernel
  have size : (entwined.maximumCoverageFrom "<list>" none).map (·.size) = .ok 4 := by decide +kernel
  obtain ⟨dropped, trimmed, done, reduces, _, _⟩ := trim_reduces valid member
  rw [done] at names
  rw [reduces.within_before] at size
  obtain rfl : dropped = _ := Except.ok.inj names
  exact ⟨valid, member, trimmed, done, reduces, Except.ok.inj size⟩

end GrammarFuzz.Grammar
