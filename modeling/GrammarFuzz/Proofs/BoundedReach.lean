import Mathlib.Data.Set.Card
import GrammarFuzz.Proofs.Growth
import GrammarFuzz.Proofs.Trimming

/-! What the walk finds within a bound. Nothing it enters is further away than the bound allows.
The symbol it starts from and the references of that symbol are entered whenever the bound admits
them, and all that can be reached is entered once the bound is as great as the number of symbols
there are to reach. In between, what is entered depends on the order of the references. -/
namespace GrammarFuzz.Grammar

/-- So many references, one after the other, lead from the first symbol to the second. -/
abbrev ReachesIn (g : Grammar) : Nat → Symbol → Symbol → Prop :=
  Steps fun symbol child => child ∈ g.references symbol

/-- Enter a child unless it was entered before. -/
def enter (g : Grammar) (depth : Nat) (entered : SymbolSet) (child : Symbol) : SymbolSet :=
  if entered.contains child then entered else g.visit depth entered child

variable {g : Grammar} {symbol child found : Symbol} {entered : SymbolSet} {depth : Nat}

theorem visit_succ : g.visit (depth + 1) entered symbol =
    (g.references symbol).foldl (g.enter depth) (entered.insert symbol) := rfl

theorem enter_of_mem (member : child ∈ entered) : g.enter depth entered child = entered :=
  if_pos (Std.ExtTreeSet.contains_iff_mem.mpr member)

theorem enter_of_not_mem (absent : child ∉ entered) :
    g.enter depth entered child = g.visit depth entered child :=
  if_neg (Std.ExtTreeSet.contains_iff_mem.not.mpr absent)

/-- What is entered within a depth is fewer references away. -/
theorem reachesIn_of_mem_reached (member : found ∈ g.reached (some depth) symbol) :
    ∃ count < depth, g.ReachesIn count symbol found := by
  have below :=
    mem_visit (fun depth symbol found => ∃ count < depth, g.ReachesIn count symbol found)
    (fun {depth symbol} => ⟨0, depth.succ_pos, .none symbol⟩)
    (fun listed ⟨count, less, steps⟩ => ⟨count + 1, Nat.succ_lt_succ less, .next listed steps⟩)
      depth member
  exact below.resolve_left Std.ExtTreeSet.not_mem_empty

/-! Symbols once entered stay. -/

theorem mem_visit_of_mem (member : found ∈ entered) : found ∈ g.visit depth entered symbol := by
  induction depth generalizing entered symbol with
  | zero => exact member
  | succ depth ih =>
      refine List.foldlRecOn (motive := fun now : SymbolSet => found ∈ now) _ _
        (mem_insert_iff.mpr (.inr member)) fun now inside child _ => ?_
      split
      · exact inside
      · exact ih inside

theorem mem_enter_of_mem (member : found ∈ entered) : found ∈ g.enter depth entered child := by
  unfold enter
  split
  · exact member
  · exact mem_visit_of_mem member

theorem mem_foldl_enter_of_mem {children : List Symbol} (member : found ∈ entered) :
    found ∈ children.foldl (g.enter depth) entered := by
  induction children generalizing entered with
  | nil => exact member
  | cons child rest ih => exact ih (mem_enter_of_mem member)

theorem mem_visit_self : symbol ∈ g.visit (depth + 1) entered symbol :=
  mem_foldl_enter_of_mem (mem_insert_iff.mpr (.inl rfl))

theorem mem_foldl_enter {children : List Symbol} (listed : child ∈ children) :
    child ∈ children.foldl (g.enter (depth + 1)) entered := by
  induction children generalizing entered with
  | nil => contradiction
  | cons first rest ih =>
      rw [List.foldl_cons]
      rcases List.mem_cons.mp listed with rfl | later
      · apply mem_foldl_enter_of_mem
        by_cases before : child ∈ entered
        · rwa [enter_of_mem before]
        · rw [enter_of_not_mem before]
          exact mem_visit_self
      · exact ih later

/-- Entering children again changes nothing, with whatever depth they were entered. -/
theorem foldl_enter_again {children : List Symbol}
    (before : ∀ child ∈ children, depth = 0 ∨ child ∈ entered) :
    children.foldl (g.enter depth) entered = entered := by
  induction children with
  | nil => rfl
  | cons child rest ih =>
      have same : g.enter depth entered child = entered := by
        rcases before child List.mem_cons_self with rfl | inside
        · exact ite_self _
        · exact enter_of_mem inside
      rw [List.foldl_cons, same]
      exact ih fun other listed => before other (List.mem_cons_of_mem child listed)

/-- The symbol it starts from and the references of that symbol are found by every walk that is deep
enough. -/
theorem mem_reached_of_reachesIn {count : Nat} (near : count ≤ 1) (less : count < depth)
    (steps : g.ReachesIn count symbol found) : found ∈ g.reached (some depth) symbol := by
  cases steps with
  | none =>
      obtain ⟨rest, rfl⟩ := Nat.exists_eq_add_of_lt less
      rw [Nat.zero_add]
      exact mem_visit_self
  | @next count _ child _ used steps =>
      obtain rfl : count = 0 := by omega
      cases steps with
      | none =>
          obtain ⟨rest, rfl⟩ : ∃ rest, depth = rest + 2 := ⟨depth - 2, by omega⟩
          exact mem_foldl_enter used

/-- Up to the depth of the references, a walk finds what every deeper walk finds. -/
theorem mem_reached_of_le_two {deeper : Nat} (shallow : depth ≤ 2) (le : depth ≤ deeper)
    (member : found ∈ g.reached (some depth) symbol) : found ∈ g.reached (some deeper) symbol := by
  obtain ⟨count, less, steps⟩ := reachesIn_of_mem_reached member
  exact mem_reached_of_reachesIn (by omega) (Nat.lt_of_lt_of_le less le) steps

/-! How much can be reached. -/

theorem ncard_symbols (g : Grammar) : {name | name ∈ g.symbols}.ncard = g.size := by
  rw [← length_symbols, ← List.toFinset_card_of_nodup g.nodup_symbols, ← Set.ncard_coe_finset]
  exact congrArg Set.ncard (Set.ext fun name => by simp)

/-- The number of symbols that can be reached from a symbol, itself included. -/
noncomputable def reachCount (g : Grammar) (symbol : Symbol) : Nat :=
  {name | g.Reaches symbol name}.ncard

theorem size_kept (valid : g.Valid) (member : symbol ∈ g.symbols) :
    (g.kept symbol).size = g.reachCount symbol := by
  rw [← ncard_symbols]
  exact congrArg Set.ncard (Set.ext fun name => mem_symbols_kept valid member)

/-- A walk sees only the rules of what can be reached. -/
theorem visit_congr {other : Grammar} (depth : Nat) : ∀ {entered : SymbolSet} {symbol : Symbol},
    (∀ name, g.Reaches symbol name → other.references name = g.references name) →
    other.visit depth entered symbol = g.visit depth entered symbol := by
  induction depth with
  | zero => exact fun _ => rfl
  | succ depth ih =>
      intro entered symbol same
      rw [visit_succ, visit_succ, same symbol .refl]
      refine List.foldl_ext _ _ _ fun now child used => ?_
      unfold enter
      rw [ih fun name reaches => same name (.head used reaches)]

theorem reaches_congr {other : Grammar}
    (same : ∀ name, g.Reaches symbol name → other.references name = g.references name) :
    other.Reaches symbol found ↔ g.Reaches symbol found := by
  constructor
  · intro reaches
    induction reaches with
    | refl => exact .refl
    | tail _ step ih => exact ih.tail (same _ ih ▸ step)
  · intro reaches
    induction reaches with
    | refl => exact .refl
    | tail earlier step ih => exact ih.tail ((same _ earlier).symm ▸ step)

/-- A walk as deep as the number of symbols to reach leaves none of them out. -/
theorem mem_reached_of_reachCount_le (valid : g.Valid) (member : symbol ∈ g.symbols)
    (deep : g.reachCount symbol ≤ depth) (reaches : g.Reaches symbol found) :
    found ∈ g.reached (some depth) symbol := by
  have same : (g.kept symbol).reached (some depth) symbol = g.reached (some depth) symbol := by
    refine visit_congr depth fun name reaches => ?_
    rw [references, references, expansions_kept valid member reaches]
  rw [← same]
  rw [← size_kept valid member] at deep
  exact mem_reached_of_reaches (valid_kept valid member)
    ((mem_symbols_kept valid member).mpr .refl) deep
    (reaches_kept valid member reaches)

end GrammarFuzz.Grammar
