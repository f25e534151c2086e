import GrammarFuzz.Proofs.BoundedReach
import GrammarFuzz.Proofs.Keys

/-! The walk that gathers keys as it goes. It skips an expansion whose key it has, together with
the references of that expansion. A key tells its symbol and its expansion, so what is skipped has
been followed before: the keys gathered are those of the symbols that the walk enters. -/
namespace GrammarFuzz.Grammar

/-- The keys gathered so far, and the symbols entered so far. -/
structure Gathered where
  keys : KeySet
  entered : SymbolSet

/-- Enter a symbol, add the keys of its expansions and follow the references of each in turn. -/
def gather (g : Grammar) : Nat → Symbol → Gathered → Gathered
  | 0, _, so => so
  | depth + 1, symbol, so =>
      (g.expansions symbol).foldl
        (fun so expansion =>
          if so.keys.contains (Key.ofText symbol expansion.text) then so
          else
            expansion.references.foldl
              (fun so child => if so.entered.contains child then so else gather g depth child so)
              { so with keys := so.keys.insert (Key.ofText symbol expansion.text) })
        { so with entered := so.entered.insert symbol }

/-- Gather below a child unless it was entered before. -/
def gatherChild (g : Grammar) (depth : Nat) (so : Gathered) (child : Symbol) : Gathered :=
  if so.entered.contains child then so else g.gather depth child so

/-- Gather an expansion of a symbol unless its key is there. -/
def gatherExpansion (g : Grammar) (depth : Nat) (symbol : Symbol) (so : Gathered)
    (expansion : Expansion) : Gathered :=
  if so.keys.contains (Key.ofText symbol expansion.text) then so
  else expansion.references.foldl (g.gatherChild depth)
    { so with keys := so.keys.insert (Key.ofText symbol expansion.text) }

variable {g : Grammar} {symbol child found : Symbol} {depth : Nat}

namespace Gathered

/-- Every key gathered is one of a symbol entered. -/
def Owned (g : Grammar) (so : Gathered) : Prop :=
  ∀ key ∈ so.keys, ∃ symbol ∈ so.entered, key ∈ g.keysOf symbol

/-- Symbols and exactly their keys were added. -/
structure Adds (g : Grammar) (before after : Gathered) : Prop where
  entered {symbol : Symbol} : symbol ∈ before.entered → symbol ∈ after.entered
  keys {key : Key} : key ∈ after.keys ↔ key ∈ before.keys ∨
    ∃ symbol ∈ after.entered, symbol ∉ before.entered ∧ key ∈ g.keysOf symbol

theorem Adds.refl (so : Gathered) : Adds g so so :=
  ⟨id, fun {_} => ⟨.inl, fun added => added.elim id fun ⟨_, inside, outside, _⟩ =>
    absurd inside outside⟩⟩

theorem Adds.trans {first second third : Gathered} (left : Adds g first second)
    (right : Adds g second third) :
    Adds g first third where
  entered := right.entered ∘ left.entered
  keys {key} := by
    rw [right.keys, left.keys]
    constructor
    · rintro ((before | ⟨symbol, inside, fresh, own⟩) | ⟨symbol, inside, fresh, own⟩)
      · exact .inl before
      · exact .inr ⟨symbol, right.entered inside, fresh, own⟩
      · exact .inr ⟨symbol, inside, fun before => fresh (left.entered before), own⟩
    · rintro (before | ⟨symbol, inside, fresh, own⟩)
      · exact .inl (.inl before)
      · by_cases earlier : symbol ∈ second.entered
        · exact .inl (.inr ⟨symbol, earlier, fresh, own⟩)
        · exact .inr ⟨symbol, inside, earlier, own⟩

theorem Owned.adds {before after : Gathered} (owned : before.Owned g) (adds : Adds g before after) :
    after.Owned g := by
  intro key gathered
  rcases adds.keys.mp gathered with earlier | ⟨symbol, inside, _, own⟩
  · obtain ⟨symbol, inside, own⟩ := owned key earlier
    exact ⟨symbol, adds.entered inside, own⟩
  · exact ⟨symbol, inside, own⟩

/-- What a walk enters was entered, and its keys were added. -/
def Follows (g : Grammar) (before after : Gathered) (walked : SymbolSet) : Prop :=
  after.entered = walked ∧ before.Adds g after

end Gathered

theorem follows_children {children : List Symbol}
    (each : ∀ child ∈ children, ∀ so : Gathered, so.Owned g →
      child ∉ so.entered → so.Follows g (g.gather depth child so)
        (g.visit depth so.entered child)) :
    ∀ so : Gathered, so.Owned g →
      so.Follows g (children.foldl (g.gatherChild depth) so)
        (children.foldl (g.enter depth) so.entered) := by
  induction children with
  | nil => exact fun so _ => ⟨rfl, .refl so⟩
  | cons child rest ih =>
      intro so owned
      have first : so.Follows g (g.gatherChild depth so child)
          (g.enter depth so.entered child) := by
        unfold gatherChild enter
        split
        · exact ⟨rfl, .refl so⟩
        · rename_i outside
          exact each child List.mem_cons_self so owned fun inside =>
            outside (Std.ExtTreeSet.contains_iff_mem.mpr inside)
      obtain ⟨entered, adds⟩ :=
        ih (fun other listed => each other (List.mem_cons_of_mem child listed)) _
        (owned.adds first.2)
      rw [List.foldl_cons, List.foldl_cons, ← first.1]
      exact ⟨entered, first.2.trans adds⟩

theorem eq_of_mem_keysOf (valid : g.Valid) {key : Key} (own : key ∈ g.keysOf symbol)
    (own' : key ∈ g.keysOf found) :
    symbol = found := by
  obtain ⟨expansion, member, rfl⟩ := mem_keysOf.mp own
  obtain ⟨expansion', member', same⟩ := mem_keysOf.mp own'
  have spaceless := Key.space_not_mem (valid.closed (mem_symbols_of_expansion member))
  have spaceless' := Key.space_not_mem (valid.closed (mem_symbols_of_expansion member'))
  exact ((Key.ofText_inj spaceless' spaceless).mp same).1.symm

/-- Some expansions of a symbol have been gathered since it was entered. -/
structure Partly (g : Grammar) (depth : Nat) (symbol : Symbol) (start : Gathered)
    (done : List Expansion) (so : Gathered) : Prop where
  entered : so.entered = (done.flatMap Expansion.references).foldl (g.enter depth) start.entered
  keys {key : Key} : key ∈ so.keys ↔ (key ∈ start.keys ∨
      ∃ found ∈ so.entered, found ∉ start.entered ∧ key ∈ g.keysOf found) ∨
    ∃ expansion ∈ done, Key.ofText symbol expansion.text = key

namespace Partly

theorem nil (start : Gathered) : g.Partly depth symbol start [] start where
  entered := rfl
  keys {key} := by
    constructor
    · exact fun before => .inl (.inl before)
    · rintro ((before | ⟨found, inside, outside, _⟩) | ⟨_, none, _⟩)
      · exact before
      · exact absurd inside outside
      · contradiction

variable {start so : Gathered} {done : List Expansion} {expansion : Expansion}
  (partly : g.Partly depth symbol start done so)
include partly

theorem of_mem (member : found ∈ start.entered) : found ∈ so.entered :=
  partly.entered ▸ mem_foldl_enter_of_mem member

variable (inside : symbol ∈ start.entered)
include inside

theorem owned (owns : start.Owned g)
    (listed : ∀ expansion ∈ done, expansion ∈ g.expansions symbol) : so.Owned g := by
  intro key gathered
  rcases partly.keys.mp gathered with (before | ⟨found, entered, _, own⟩) | ⟨expansion, member, rfl⟩
  · obtain ⟨found, entered, own⟩ := owns key before
    exact ⟨found, partly.of_mem entered, own⟩
  · exact ⟨found, entered, own⟩
  · exact ⟨symbol, partly.of_mem inside, mem_keysOf.mpr ⟨expansion, listed expansion member, rfl⟩⟩

/-- A key that is there already comes from an expansion with the same text. -/
theorem mem_done (valid : g.Valid) (fresh : ∀ key ∈ g.keysOf symbol, key ∉ start.keys)
    (member : expansion ∈ g.expansions symbol)
    (known : Key.ofText symbol expansion.text ∈ so.keys) :
    expansion ∈ done := by
  have own : Key.ofText symbol expansion.text ∈ g.keysOf symbol :=
    mem_keysOf.mpr ⟨expansion, member, rfl⟩
  rcases partly.keys.mp known with (before | ⟨found, _, outside, own'⟩) | ⟨other, earlier, same⟩
  · exact absurd before (fresh _ own)
  · exact absurd inside (eq_of_mem_keysOf valid own own' ▸ outside)
  · have spaceless := Key.space_not_mem (valid.closed (mem_symbols_of_expansion member))
    have equal : other = expansion :=
      congrArg Expansion.mk ((Key.ofText_inj spaceless spaceless).mp same).2
    exact equal ▸ earlier

omit inside in
/-- To skip an expansion that was gathered is to gather it again. -/
theorem skip (earlier : expansion ∈ done) :
    g.Partly depth symbol start (done ++ [expansion]) so where
  entered := by
    rw [List.flatMap_append, List.flatMap_singleton, List.foldl_append, ← partly.entered,
      foldl_enter_again]
    intro child used
    cases depth with
    | zero => exact .inl rfl
    | succ depth =>
        rw [partly.entered]
        exact .inr (mem_foldl_enter (List.mem_flatMap.mpr ⟨expansion, earlier, used⟩))
  keys {key} := by
    rw [partly.keys]
    simp only [List.mem_append, List.mem_singleton]
    refine or_congr_right (exists_congr fun other => and_congr_left fun _ => ?_)
    exact ⟨.inl, fun listed => listed.elim id fun same => same ▸ earlier⟩

omit inside in
theorem add {after : Gathered} (follows : Gathered.Follows g
      { so with keys := so.keys.insert (Key.ofText symbol expansion.text) } after
      (expansion.references.foldl (g.enter depth) so.entered)) :
    g.Partly depth symbol start (done ++ [expansion]) after where
  entered := by
    rw [List.flatMap_append, List.flatMap_singleton, List.foldl_append, ← partly.entered]
    exact follows.1
  keys {key} := by
    obtain ⟨_, adds⟩ := follows
    rw [adds.keys, Std.ExtTreeSet.mem_insert, Std.LawfulEqCmp.compare_eq_iff_eq, partly.keys]
    constructor
    · rintro ((rfl | (before | ⟨found, entered, outside, own⟩) | ⟨other, earlier, rfl⟩) |
        ⟨found, entered, outside, own⟩)
      · exact .inr ⟨expansion, List.mem_append_right _ (List.mem_singleton_self _), rfl⟩
      · exact .inl (.inl before)
      · exact .inl (.inr ⟨found, adds.entered entered, outside, own⟩)
      · exact .inr ⟨other, List.mem_append_left _ earlier, rfl⟩
      · exact .inl (.inr ⟨found, entered, fun before => outside (partly.of_mem before), own⟩)
    · rintro ((before | ⟨found, entered, outside, own⟩) | ⟨other, added, rfl⟩)
      · exact .inl (.inr (.inl (.inl before)))
      · by_cases earlier : found ∈ so.entered
        · exact .inl (.inr (.inl (.inr ⟨found, earlier, outside, own⟩)))
        · exact .inr ⟨found, entered, earlier, own⟩
      · rcases List.mem_append.mp added with earlier | last
        · exact .inl (.inr (.inr ⟨other, earlier, rfl⟩))
        · obtain rfl := List.mem_singleton.mp last
          exact .inl (.inl rfl)

variable (valid : g.Valid) (owns : start.Owned g)
  (fresh : ∀ key ∈ g.keysOf symbol, key ∉ start.keys)
include valid owns fresh

theorem step (listed : ∀ expansion ∈ done, expansion ∈ g.expansions symbol)
    (member : expansion ∈ g.expansions symbol)
    (each : ∀ child ∈ expansion.references, ∀ so : Gathered, so.Owned g → child ∉ so.entered →
      so.Follows g (g.gather depth child so) (g.visit depth so.entered child)) :
    g.Partly depth symbol start (done ++ [expansion])
      (g.gatherExpansion depth symbol so expansion) := by
  unfold gatherExpansion
  split
  · rename_i known
    exact partly.skip (partly.mem_done inside valid fresh member
      (Std.ExtTreeSet.contains_iff_mem.mp known))
  · have now := partly.owned inside owns listed
    refine partly.add (follows_children each _ fun key gathered => ?_)
    rcases Std.ExtTreeSet.mem_insert.mp gathered with same | before
    · rw [← Std.LawfulEqCmp.eq_of_compare same]
      exact ⟨symbol, partly.of_mem inside, mem_keysOf.mpr ⟨expansion, member, rfl⟩⟩
    · exact now key before

/-- What was gathered for the first expansions of a symbol and is then gathered for the others is
what is gathered for all of them. -/
theorem foldl
    (each : ∀ child ∈ g.references symbol, ∀ so : Gathered, so.Owned g → child ∉ so.entered →
      so.Follows g (g.gather depth child so) (g.visit depth so.entered child))
    {rest : List Expansion}
    (listed : ∀ expansion ∈ done ++ rest, expansion ∈ g.expansions symbol) :
    g.Partly depth symbol start (done ++ rest)
      (rest.foldl (g.gatherExpansion depth symbol) so) := by
  induction rest generalizing done so with
  | nil => rwa [List.append_nil]
  | cons expansion rest ih =>
      have here : expansion ∈ g.expansions symbol := listed _ (by simp)
      have next := partly.step inside valid owns fresh
        (fun other earlier => listed other (List.mem_append_left _ earlier)) here
        fun child used => each child (mem_references_of_expansion here used)
      rw [← List.singleton_append, ← List.append_assoc] at listed ⊢
      exact ih next listed

end Partly

/-- Gathering from a symbol enters what the walk from it enters, at every depth. -/
theorem follows_gather (valid : g.Valid) (depth : Nat) :
    ∀ symbol ∈ g.symbols, ∀ so : Gathered, so.Owned g → symbol ∉ so.entered →
      so.Follows g (g.gather depth symbol so) (g.visit depth so.entered symbol) := by
  induction depth with
  | zero => exact fun symbol _ so _ _ => ⟨rfl, .refl so⟩
  | succ depth ih =>
      intro symbol member so owned outside
      have inside : symbol ∈ so.entered.insert symbol := mem_insert_iff.mpr (.inl rfl)
      have owns : Gathered.Owned g { so with entered := so.entered.insert symbol } := by
        intro key gathered
        obtain ⟨found, entered, own⟩ := owned key gathered
        exact ⟨found, mem_insert_iff.mpr (.inr entered), own⟩
      have fresh : ∀ key ∈ g.keysOf symbol, key ∉ so.keys := by
        intro key own gathered
        obtain ⟨found, entered, own'⟩ := owned key gathered
        exact outside (eq_of_mem_keysOf valid own own' ▸ entered)
      have whole : g.Partly depth symbol { so with entered := so.entered.insert symbol }
        ([] ++ g.expansions symbol)
          (g.gather (depth + 1) symbol so) :=
        (Partly.nil _).foldl inside valid owns fresh
          (fun child used => ih child ((valid symbol member).2.2 child used))
          fun expansion listed => listed
      rw [List.nil_append] at whole
      refine ⟨whole.entered, fun before => whole.of_mem (mem_insert_iff.mpr (.inr before)),
        fun {key} => ?_⟩
      rw [whole.keys, ← mem_keysOf, or_assoc]
      apply or_congr_right
      constructor
      · rintro (⟨found, entered, later, own⟩ | own)
        · exact ⟨found, entered, fun before => later (mem_insert_iff.mpr (.inr before)), own⟩
        · exact ⟨symbol, whole.of_mem inside, outside, own⟩
      · rintro ⟨found, entered, later, own⟩
        by_cases same : symbol = found
        · exact .inr (same ▸ own)
        · exact .inl ⟨found, entered, fun before => (mem_insert_iff.mp before).elim same later, own⟩

/-- Started with nothing, the walk gathers the keys of what it enters. -/
theorem gather_eq (valid : g.Valid) (member : symbol ∈ g.symbols) (depth : Nat) :
    g.gather depth symbol ⟨∅, ∅⟩ = ⟨g.keysWithin (some depth) symbol,
      g.reached (some depth) symbol⟩ := by
  obtain ⟨entered, adds⟩ := follows_gather valid depth symbol member ⟨∅, ∅⟩
    (fun key gathered => absurd gathered Std.ExtTreeSet.not_mem_empty) Std.ExtTreeSet.not_mem_empty
  have keys : (g.gather depth symbol ⟨∅, ∅⟩).keys = g.keysWithin (some depth) symbol := by
    refine Std.ExtTreeSet.ext_mem fun key => ?_
    rw [adds.keys, mem_keysWithin, entered]
    simp only [Std.ExtTreeSet.not_mem_empty, not_false_eq_true, true_and, false_or]
    rfl
  rw [← keys]
  exact congrArg (Gathered.mk _) entered

/-- A depth of the number of symbols stands for no bound. -/
theorem keysWithin_of_deep (valid : g.Valid) (member : symbol ∈ g.symbols) (deep : g.size ≤ depth) :
    g.keysWithin (some depth) symbol = g.keysWithin none symbol := by
  refine Std.ExtTreeSet.ext_mem fun key => ?_
  rw [mem_keysWithin_of_reaches valid member deep]
  exact (mem_keysWithin_of_reaches valid member (Nat.le_refl g.size)).symm

/-- Without a bound, and with a bound of at least the number of symbols, the keys of all reachable
symbols are found, and no others. Within any bound they belong to symbols fewer references away, the
symbol's own are among them unless the bound is zero, and passing over what is there changes
nothing. -/
theorem maximumCoverageFrom_exact (valid : g.Valid) (member : symbol ∈ g.symbols) :
    (∃ keys, g.maximumCoverageFrom symbol none = .ok keys ∧
      (∀ key, key ∈ keys ↔ ∃ found, g.Reaches symbol found ∧
        ∃ expansion ∈ g.expansions found, Key.ofText found expansion.text = key) ∧
      ∀ depth, g.size ≤ depth → g.maximumCoverageFrom symbol (some depth) = .ok keys) ∧
    ∀ depth, ∃ keys, g.maximumCoverageFrom symbol (some depth) = .ok keys ∧
      (g.gather depth symbol ⟨∅, ∅⟩).keys = keys ∧
      (∀ key ∈ keys, ∃ count < depth, ∃ found, g.ReachesIn count symbol found ∧
        key ∈ g.keysOf found) ∧
      (0 < depth → ∀ key ∈ g.keysOf symbol, key ∈ keys) := by
  constructor
  · refine ⟨g.keysWithin none symbol, maximumCoverageFrom_eq_ok.mpr ⟨member, rfl⟩, fun key => ?_,
      fun depth deep => ?_⟩
    · simp only [← mem_keysOf]
      exact mem_keysWithin_of_reaches valid member (Nat.le_refl g.size)
    · exact maximumCoverageFrom_eq_ok.mpr ⟨member, keysWithin_of_deep valid member deep⟩
  · intro depth
    refine ⟨g.keysWithin (some depth) symbol,
      maximumCoverageFrom_eq_ok.mpr ⟨member, rfl⟩, ?_, ?_, ?_⟩
    · rw [gather_eq valid member]
    · intro key gathered
      obtain ⟨found, entered, own⟩ := mem_keysWithin.mp gathered
      obtain ⟨count, less, steps⟩ := reachesIn_of_mem_reached entered
      exact ⟨count, less, found, steps, own⟩
    · intro positive key own
      obtain ⟨less, rfl⟩ := Nat.exists_eq_succ_of_ne_zero (Nat.ne_of_gt positive)
      exact mem_keysWithin.mpr ⟨symbol, mem_visit_self, own⟩

/-- Symbols that refer to each other, an expansion given twice, and a symbol out of reach. -/
def entwined : Grammar := ⟨Rules.ofList [
  ("<start>", ["<list>", "<list>;<start>"]), ("<list>", ["<item><list>", "<item>", "<item>"]),
  ("<item>", ["x", "(<list>)"]), ("<spare>", ["<item>"])]⟩

theorem entwined_gathers : entwined.Valid ∧ "<list>" ∈ entwined.symbols ∧
    (∃ keys, entwined.maximumCoverageFrom "<list>" none = .ok keys ∧ keys.size = 4 ∧
      Key.ofText "<item>" "(<list>)" ∈ keys) ∧
    ∃ keys, entwined.maximumCoverageFrom "<start>" (some 2) = .ok keys ∧
      (entwined.gather 2 "<start>" ⟨∅, ∅⟩).keys = keys ∧ Key.ofText "<start>" "<list>" ∈ keys ∧
      Key.ofText "<item>" "x" ∉ keys := by
  have valid : entwined.Valid := by decide +kernel
  have list : "<list>" ∈ entwined.symbols := by decide +kernel
  have start : "<start>" ∈ entwined.symbols := by decide +kernel
  obtain ⟨⟨keys, found, exact, _⟩, _⟩ := maximumCoverageFrom_exact valid list
  obtain ⟨within, bounded, gathered, _, own⟩ := (maximumCoverageFrom_exact valid start).2 2
  refine ⟨valid, list, ⟨keys, found, ?_, (exact _).mpr ⟨"<item>", ?_, ⟨"(<list>)"⟩, ?_, rfl⟩⟩,
    within, bounded, gathered, own (by decide) _ ?_, ?_⟩
  · rw [← (maximumCoverageFrom_eq_ok.mp found).2]
    decide +kernel
  · exact .single (by decide +kernel : "<item>" ∈ entwined.references "<list>")
  · decide +kernel
  · decide +kernel
  · rw [← (maximumCoverageFrom_eq_ok.mp bounded).2]
    decide +kernel

end GrammarFuzz.Grammar
