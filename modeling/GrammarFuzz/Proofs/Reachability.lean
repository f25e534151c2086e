import Mathlib.Logic.Relation
import GrammarFuzz.Reference.Visit
import GrammarFuzz.Proofs.Rules

/-! What the depth-first walk enters. A bounded walk enters reachable symbols only; with as
much depth as there are symbols not entered yet, it leaves no reachable symbol out, whatever
the order in which symbols use up the depth. -/
namespace GrammarFuzz

theorem not_contains_iff {α : Type} [Ord α] [Std.TransOrd α] {items : Std.ExtTreeSet α} {item : α} :
    (!items.contains item) = true ↔ item ∉ items := by
  rw [Bool.not_eq_true', ← Bool.not_eq_true, Std.ExtTreeSet.contains_iff_mem]

namespace Grammar

/-- A derivation from the first symbol can use the second. -/
abbrev Reaches (g : Grammar) : Symbol → Symbol → Prop :=
  Relation.ReflTransGen fun symbol child => child ∈ g.references symbol

variable {g : Grammar} {symbol child : Symbol} {entered : SymbolSet}

theorem mem_insert_iff : child ∈ entered.insert symbol ↔ symbol = child ∨ child ∈ entered := by
  rw [Std.ExtTreeSet.mem_insert, Std.LawfulEqCmp.compare_eq_iff_eq]

/-- What a walk adds stands below its start in whatever sense is closed under references. -/
theorem mem_visit (below : Nat → Symbol → Symbol → Prop)
    (own : ∀ {depth symbol}, below (depth + 1) symbol symbol)
    (step : ∀ {depth symbol child found}, child ∈ g.references symbol → below depth child found →
      below (depth + 1) symbol found) (depth : Nat) :
      ∀ {entered : SymbolSet} {symbol found : Symbol},
    found ∈ g.visit depth entered symbol → found ∈ entered ∨ below depth symbol found := by
  induction depth with
  | zero =>
      intro entered symbol found member
      exact .inl member
  | succ depth ih =>
      intro entered symbol found member
      refine List.foldlRecOn (motive := fun now : SymbolSet =>
        ∀ found ∈ now, found ∈ entered ∨ below (depth + 1) symbol found) _ _ ?_ ?_ found member
      · intro found inside
        rcases mem_insert_iff.mp inside with rfl | before
        · exact .inr own
        · exact .inl before
      · intro now known child listed found inside
        split at inside
        · exact known found inside
        · rcases ih inside with before | under
          · exact known found before
          · exact .inr (step listed under)

theorem visit_sound (depth : Nat) {entered : SymbolSet} {symbol found : Symbol}
    (member : found ∈ g.visit depth entered symbol) : found ∈ entered ∨ g.Reaches symbol found :=
  mem_visit (fun _ => g.Reaches) .refl (fun listed => .head listed) depth member

/-- Symbols are only added, and what is below an added symbol is there too. -/
def Closes (g : Grammar) (before after : SymbolSet) : Prop :=
  (∀ symbol ∈ before, symbol ∈ after) ∧
    ∀ symbol ∈ after, symbol ∉ before → ∀ child ∈ g.references symbol, child ∈ after

theorem Closes.refl (entered : SymbolSet) : g.Closes entered entered :=
  ⟨fun _ => id, fun _ member absent => absurd member absent⟩

theorem Closes.trans {first second third : SymbolSet} (left : g.Closes first second)
    (right : g.Closes second third) : g.Closes first third := by
  refine ⟨fun symbol member => right.1 symbol (left.1 symbol member), ?_⟩
  intro symbol member absent child below
  by_cases earlier : symbol ∈ second
  · exact right.1 child (left.2 symbol earlier absent child below)
  · exact right.2 symbol member earlier child below

/-- How many symbols of the grammar are still to be entered. -/
def unentered (g : Grammar) (entered : SymbolSet) : Nat :=
  (g.symbols.filter fun symbol => !entered.contains symbol).length

theorem length_filter_lt {α : Type} {items : List α} {p q : α → Bool} {item : α}
    (weaker : ∀ other ∈ items, p other = true → q other = true) (member : item ∈ items)
    (lost : p item = false) (kept : q item = true) :
    (items.filter p).length < (items.filter q).length := by
  have nested : items.filter p = (items.filter q).filter p := by
    rw [List.filter_filter]
    refine List.filter_congr fun other listed => ?_
    cases passes : p other with
    | false => rfl
    | true => rw [weaker other listed passes]; rfl
  rw [nested, List.length_filter_lt_length_iff_exists]
  exact ⟨item, List.mem_filter.mpr ⟨member, kept⟩, by simp [lost]⟩

theorem length_symbols (g : Grammar) : g.symbols.length = g.size := Std.ExtTreeMap.length_keys

theorem unentered_le (entered : SymbolSet) : g.unentered entered ≤ g.size :=
  g.length_symbols ▸ List.length_filter_le _ _

theorem unentered_mono {before after : SymbolSet} (grows : ∀ symbol ∈ before, symbol ∈ after) :
    g.unentered after ≤ g.unentered before := by
  simp only [unentered, ← List.countP_eq_length_filter]
  refine List.countP_mono_left fun symbol _ absent => ?_
  rw [not_contains_iff] at absent ⊢
  exact fun member => absent (grows symbol member)

theorem unentered_insert (member : symbol ∈ g.symbols) (absent : symbol ∉ entered) :
    g.unentered (entered.insert symbol) < g.unentered entered := by
  refine length_filter_lt (fun other _ outside => ?_) member ?_ (not_contains_iff.mpr absent)
  · rw [not_contains_iff] at outside ⊢
    exact fun before => outside (mem_insert_iff.mpr (.inr before))
  · rw [Std.ExtTreeSet.contains_insert_self]
    rfl

/-- Entering children one after the other enters them all, if each walk has enough depth. -/
theorem foldl_closes {step : SymbolSet → Symbol → SymbolSet} {children : List Symbol}
    {enough : SymbolSet → Prop}
    (shrinks : ∀ {before after}, (∀ symbol ∈ before, symbol ∈ after) → enough before → enough after)
    (each : ∀ child ∈ children, ∀ now, enough now →
      g.Closes now (step now child) ∧ child ∈ step now child) :
    ∀ now, enough now → g.Closes now (children.foldl step now) ∧
      ∀ child ∈ children, child ∈ children.foldl step now := by
  induction children with
  | nil => exact fun now _ => ⟨.refl now, by simp⟩
  | cons child rest ih =>
      intro now room
      obtain ⟨first, own⟩ := each child List.mem_cons_self now room
      obtain ⟨others, found⟩ :=
        ih (fun other member => each other (List.mem_cons_of_mem child member))
        (step now child) (shrinks first.1 room)
      refine ⟨first.trans others, fun other member => ?_⟩
      rcases List.mem_cons.mp member with rfl | member
      · exact others.1 other own
      · exact found other member

/-- A walk as deep as there are symbols left to enter is closed under references: each level and
each symbol entered uses up one of both. -/
theorem visit_closes (valid : g.Valid) (depth : Nat) : ∀ {entered : SymbolSet} {symbol : Symbol},
    symbol ∈ g.symbols → symbol ∉ entered → g.unentered entered ≤ depth →
    g.Closes entered (g.visit depth entered symbol) ∧ symbol ∈ g.visit depth entered symbol := by
  induction depth with
  | zero =>
      intro entered symbol member absent room
      have fewer := unentered_insert member absent
      omega
  | succ depth ih =>
      intro entered symbol member absent room
      have fewer := unentered_insert member absent
      have room' : g.unentered (entered.insert symbol) ≤ depth := by omega
      have each : ∀ child ∈ g.references symbol, ∀ now : SymbolSet, g.unentered now ≤ depth →
          g.Closes now (if now.contains child then now else g.visit depth now child) ∧
            child ∈ if now.contains child then now else g.visit depth now child := by
        intro child listed now room
        have known : child ∈ g.symbols := (valid symbol member).2.2 child listed
        by_cases before : child ∈ now
        · rw [if_pos (Std.ExtTreeSet.contains_iff_mem.mpr before)]
          exact ⟨.refl now, before⟩
        · rw [if_neg (Std.ExtTreeSet.contains_iff_mem.not.mpr before)]
          exact ih known before room
      obtain ⟨closes, found⟩ := foldl_closes
        (fun grows room => Nat.le_trans (unentered_mono grows) room) each _ room'
      refine ⟨⟨fun other inside => closes.1 other (mem_insert_iff.mpr (.inr inside)), ?_⟩,
        closes.1 symbol (mem_insert_iff.mpr (.inl rfl))⟩
      intro other inside outside child below
      by_cases same : symbol = other
      · subst same
        exact found child below
      · refine closes.2 other inside ?_ child below
        exact fun earlier => (mem_insert_iff.mp earlier).elim same outside

theorem reaches_of_mem_reached {depth : Option Nat} (member : child ∈ g.reached depth symbol) :
    g.Reaches symbol child :=
  (visit_sound _ member).resolve_left Std.ExtTreeSet.not_mem_empty

theorem mem_reached_of_reaches (valid : g.Valid) (member : symbol ∈ g.symbols) {depth : Nat}
    (deep : g.size ≤ depth) (reaches : g.Reaches symbol child) :
    child ∈ g.reached (some depth) symbol := by
  have room : g.unentered ∅ ≤ depth := Nat.le_trans (unentered_le ∅) deep
  obtain ⟨closes, found⟩ := visit_closes valid depth member Std.ExtTreeSet.not_mem_empty room
  induction reaches with
  | refl => exact found
  | tail _ step ih => exact closes.2 _ ih Std.ExtTreeSet.not_mem_empty _ step

theorem Reaches.mem_symbols (valid : g.Valid) (member : symbol ∈ g.symbols)
    (reaches : g.Reaches symbol child) : child ∈ g.symbols := by
  induction reaches with
  | refl => exact member
  | tail _ step ih => exact (valid _ ih).2.2 _ step

theorem mem_references_of_expansion {expansion : Expansion}
    (member : expansion ∈ g.expansions symbol)
    (used : child ∈ expansion.references) : child ∈ g.references symbol :=
  List.mem_flatMap.mpr ⟨expansion, member, used⟩

theorem mem_keysWithin {depth : Option Nat} {key : Key} :
    key ∈ g.keysWithin depth symbol ↔ ∃ found ∈ g.reached depth symbol, key ∈ g.keysOf found := by
  simp only [keysWithin, Std.ExtTreeSet.mem_ofList, List.contains_iff_mem, List.mem_flatMap,
    Std.ExtTreeSet.mem_toList]

theorem mem_keysOf {key : Key} : key ∈ g.keysOf symbol ↔
    ∃ expansion ∈ g.expansions symbol, Key.ofText symbol expansion.text = key := List.mem_map

theorem mem_maximumCoverage {key : Key} :
    key ∈ g.maximumCoverage ↔ ∃ symbol ∈ g.symbols, key ∈ g.keysOf symbol := by
  simp only [maximumCoverage, Std.ExtTreeSet.mem_ofList, List.contains_iff_mem, List.mem_flatMap]

theorem nodup_keys (keys : KeySet) : keys.toList.Nodup := by
  refine Std.ExtTreeSet.distinct_toList.imp fun {left right} differ same => differ ?_
  exact Std.LawfulEqCmp.compare_eq_iff_eq.mpr same

theorem maximumCoverageFrom_eq_ok {depth : Option Nat} {keys : KeySet} :
    g.maximumCoverageFrom symbol depth = .ok keys ↔
      symbol ∈ g.symbols ∧ g.keysWithin depth symbol = keys := by
  unfold maximumCoverageFrom
  by_cases member : symbol ∈ g.symbols
  · simp only [require_eq_ok.mpr ⟨member, rfl⟩, Except.ok.injEq, member, true_and]
  · cases required : g.require symbol with
    | error error => simp [member]
    | ok expansions => exact absurd (require_eq_ok.mp required).1 member

/-- The walk without limit finds the keys of all reachable symbols. -/
theorem mem_keysWithin_of_reaches (valid : g.Valid) (member : symbol ∈ g.symbols) {depth : Nat}
    (deep : g.size ≤ depth) {key : Key} : key ∈ g.keysWithin (some depth) symbol ↔
      ∃ found, g.Reaches symbol found ∧ key ∈ g.keysOf found := by
  rw [mem_keysWithin]
  constructor
  · rintro ⟨found, inside, own⟩
    exact ⟨found, reaches_of_mem_reached inside, own⟩
  · rintro ⟨found, reaches, own⟩
    exact ⟨found, mem_reached_of_reaches valid member deep reaches, own⟩

end Grammar
end GrammarFuzz
