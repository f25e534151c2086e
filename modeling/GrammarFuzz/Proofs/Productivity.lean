import Mathlib.Algebra.GroupWithZero.Nat
import Mathlib.Algebra.Order.BigOperators.Group.List
import Mathlib.Algebra.Order.Group.Nat
import GrammarFuzz.Derivation.Cost
import GrammarFuzz.Proofs.Reachability

/-! What the check for unproductive symbols guarantees. The breadth-first search finds every
reachable symbol, so where it finds none without a finite derivation, every reachable symbol
has an expansion whose references cost less than the symbol, all together. -/
namespace GrammarFuzz.Grammar

variable {g : Grammar} {symbol child : Symbol}

/-! Costs. -/

theorem foldl_capped {top : Nat} (costOf : Symbol → Nat) (references : List Symbol) : ∀ start : Nat,
    references.foldl (fun total symbol => min top (total + costOf symbol)) start < top →
      references.foldl (fun total symbol => min top (total + costOf symbol)) start =
        start + (references.map costOf).sum := by
  induction references with
  | nil => simp
  | cons first rest ih =>
      intro start finite
      simp only [List.foldl_cons, List.map_cons, List.sum_cons] at finite ⊢
      have total := ih _ finite
      rw [total] at finite ⊢
      omega

theorem foldl_mono {α : Type} {low high : Nat → α → Nat} {items : List α}
    (each : ∀ item ∈ items, ∀ least most, least ≤ most → low least item ≤ high most item) :
    ∀ {least most : Nat}, least ≤ most → items.foldl low least ≤ items.foldl high most := by
  induction items with
  | nil => exact fun {_ _} bound => bound
  | cons first rest ih =>
      intro least most bound
      exact ih (fun item member => each item (List.mem_cons_of_mem first member))
        (each first List.mem_cons_self least most bound)

theorem foldl_min_attained {α : Type} (f : α → Nat) (items : List α) {start : Nat}
    (below : items.foldl (fun least item => min least (f item)) start < start) :
    ∃ item ∈ items, f item = items.foldl (fun least item => min least (f item)) start := by
  rw [← List.foldl_map] at below ⊢
  have listed : (items.map f).foldl min start ∈ start :: items.map f := List.min?_mem rfl
  rcases List.mem_cons.mp listed with same | listed
  · omega
  · exact List.mem_map.mp listed

/-- An expansion is blocked by a reference that was seen. -/
theorem blocked_iff {references : List Symbol} {seen : SymbolSet} :
    references.any seen.contains = true ↔ ∃ symbol ∈ references, symbol ∈ seen := by
  simp only [List.any_eq_true, Std.ExtTreeSet.contains_iff_mem]

theorem stepCost_le (costOf : Symbol → Cost) (seen : SymbolSet) (expansion : Expansion) :
    stepCost costOf seen expansion ≤ Cost.infinite := by
  unfold stepCost
  split
  · exact Nat.le_refl _
  · exact List.foldlRecOn (motive := fun total => total ≤ Cost.infinite) _ _ (by decide)
      fun _ _ _ _ => Nat.min_le_left _ _

theorem stepCost_of_finite {costOf : Symbol → Cost} {seen : SymbolSet} {expansion : Expansion}
    (finite : stepCost costOf seen expansion < Cost.infinite) :
    stepCost costOf seen expansion = 1 + (expansion.references.map costOf).sum := by
  unfold stepCost at finite ⊢
  split at finite
  · exact absurd finite (Nat.lt_irrefl _)
  · rw [if_neg ‹_›]
    exact foldl_capped costOf _ 1 finite

theorem stepCost_mono {less more : Symbol → Cost} {few many : SymbolSet} {expansion : Expansion}
    (cheaper : ∀ symbol ∈ expansion.references, less symbol ≤ more symbol)
    (above : ∀ symbol ∈ few, symbol ∈ many) :
    stepCost less few expansion ≤ stepCost more many expansion := by
  by_cases seen : expansion.references.any many.contains = true
  · have blocked : stepCost more many expansion = Cost.infinite := if_pos seen
    rw [blocked]
    exact stepCost_le less few expansion
  · have unseen : ¬expansion.references.any few.contains = true := by
      intro found
      obtain ⟨symbol, member, inside⟩ := blocked_iff.mp found
      exact seen (blocked_iff.mpr ⟨symbol, member, above symbol inside⟩)
    rw [stepCost, stepCost, if_neg seen, if_neg unseen]
    refine foldl_mono (fun symbol member least most bound => ?_) (Nat.le_refl 1)
    have own := cheaper symbol member
    exact Nat.le_min.mpr ⟨Nat.min_le_left _ _,
      Nat.le_trans (Nat.min_le_right _ _) (Nat.add_le_add bound own)⟩

theorem costWithin_le (depth : Nat) (seen : SymbolSet) (symbol : Symbol) :
    g.costWithin depth seen symbol ≤ Cost.infinite := by
  cases depth with
  | zero => exact Nat.le_refl _
  | succ depth =>
      unfold costWithin
      split
      · exact Nat.zero_le _
      · exact List.foldlRecOn (motive := fun least => least ≤ Cost.infinite) _ _ (Nat.le_refl _)
          fun _ bound _ _ => Nat.le_trans (Nat.min_le_left _ _) bound

theorem costWithin_succ (member : symbol ∈ g.symbols) (depth : Nat) (seen : SymbolSet) :
    g.costWithin (depth + 1) seen symbol =
      (g.expansions symbol).foldl
        (fun least expansion => min least
          (stepCost (g.costWithin depth (seen.insert symbol)) (seen.insert symbol) expansion))
        Cost.infinite := by
  simp only [costWithin, expansions?_of_mem member]

/-- More symbols above and less depth make nothing cheaper. -/
theorem costWithin_mono (less : Nat) : ∀ {more : Nat} {few many : SymbolSet} (symbol : Symbol),
    less ≤ more → (∀ above ∈ few, above ∈ many) →
    g.costWithin more few symbol ≤ g.costWithin less many symbol := by
  induction less with
  | zero => exact fun symbol _ _ => costWithin_le _ _ symbol
  | succ less ih =>
      intro more few many symbol deeper above
      cases more with
      | zero => omega
      | succ more =>
          unfold costWithin
          cases g.expansions? symbol with
          | none => exact Nat.le_refl 0
          | some expansions =>
              have below : ∀ other ∈ few.insert symbol, other ∈ many.insert symbol := by
                intro other member
                rcases mem_insert_iff.mp member with same | before
                · exact mem_insert_iff.mpr (.inl same)
                · exact mem_insert_iff.mpr (.inr (above other before))
              refine foldl_mono (fun expansion _ least most bound => ?_) (Nat.le_refl _)
              have cheaper :
                  stepCost (g.costWithin more (few.insert symbol)) (few.insert symbol) expansion ≤
                    stepCost (g.costWithin less (many.insert symbol)) (many.insert symbol)
                      expansion :=
                stepCost_mono (fun reference _ => ih reference (by omega) below) below
              exact Nat.le_min.mpr
                ⟨Nat.le_trans (Nat.min_le_left _ _) bound,
                  Nat.le_trans (Nat.min_le_right _ _) cheaper⟩

/-- What was seen makes nothing cheaper. -/
theorem symbolCost_empty_le {depth : Nat} (shallow : depth ≤ g.size + 1) (seen : SymbolSet)
    (symbol : Symbol) :
    g.symbolCost symbol ∅ ≤ g.costWithin depth seen symbol :=
  costWithin_mono depth symbol shallow fun _ absent => absurd absent Std.ExtTreeSet.not_mem_empty

/-- A symbol that can finish has an expansion whose references are cheaper together. -/
theorem exists_cheaper (member : symbol ∈ g.symbols)
    (finite : g.symbolCost symbol ∅ < Cost.infinite) :
    ∃ expansion ∈ g.expansions symbol,
      (expansion.references.map (g.symbolCost · ∅)).sum < g.symbolCost symbol ∅ := by
  have unfolded := costWithin_succ member g.size ∅
  rw [symbolCost, unfolded] at finite
  obtain ⟨expansion, listed, attained⟩ := foldl_min_attained _ _ finite
  refine ⟨expansion, listed, ?_⟩
  rw [symbolCost, unfolded, ← attained]
  rw [← attained] at finite
  rw [stepCost_of_finite finite]
  exact Nat.lt_one_add_iff.mpr (List.sum_le_sum fun reference _ =>
    symbolCost_empty_le (Nat.le_succ _) _ reference)

/-! Breadth-first search. -/

/-- The symbols found at one symbol are new and distinct, and leave none of its children out. -/
theorem found_spec {queued : List Symbol} (children : List Symbol) : ∀ start : List Symbol,
    (queued ++ start).Nodup → ∃ found, children.foldl (fun found child =>
        if queued.contains child || found.contains child then found
          else found ++ [child]) start = found ∧
      (queued ++ found).Nodup ∧ (∀ symbol ∈ start, symbol ∈ found) ∧
      (∀ child ∈ children, child ∈ queued ++ found) ∧
      ∀ symbol ∈ found, symbol ∈ start ∨ symbol ∈ children := by
  induction children with
  | nil => exact fun start distinct => ⟨start, rfl, distinct, fun _ => id, by simp, fun _ => .inl⟩
  | cons child rest ih =>
      intro start distinct
      rw [List.foldl_cons]
      by_cases seen : child ∈ queued ++ start
      · obtain ⟨found, same, nodup, kept, all, only⟩ := ih start distinct
        rw [if_pos (by simpa using seen)]
        refine ⟨found, same, nodup, kept, fun other member => ?_, fun other member => ?_⟩
        · rcases List.mem_cons.mp member with rfl | later
          · rw [List.mem_append] at seen ⊢
            exact seen.imp_right (kept other)
          · exact all other later
        · exact (only other member).imp_right (List.mem_cons_of_mem child)
      · have distinct' : (queued ++ (start ++ [child])).Nodup := by
          rw [← List.append_assoc, List.nodup_append]
          refine ⟨distinct, by simp, fun before member after last => ?_⟩
          rw [List.mem_singleton.mp last]
          rintro rfl
          exact seen member
        obtain ⟨found, same, nodup, kept, all, only⟩ := ih (start ++ [child]) distinct'
        rw [if_neg (by simpa using seen)]
        refine ⟨found, same, nodup, fun other member => kept other (by simp [member]), ?_, ?_⟩
        · intro other member
          rcases List.mem_cons.mp member with rfl | later
          · exact List.mem_append_right queued (kept other (by simp))
          · exact all other later
        · intro other member
          rcases only other member with before | later
          · rcases List.mem_append.mp before with before | last
            · exact .inl before
            · exact .inr (List.mem_singleton.mp last ▸ List.mem_cons_self)
          · exact .inr (List.mem_cons_of_mem child later)

/-- The symbols before those waiting have been followed; the search stops for want of waiting
symbols, since it cannot follow more symbols than there are. -/
theorem breadthFirstFrom_closed (valid : g.Valid) (count : Nat) : ∀ followed waiting : List Symbol,
    (followed ++ waiting).Nodup → (∀ symbol ∈ followed ++ waiting, symbol ∈ g.symbols) →
    (∀ symbol ∈ followed, ∀ child ∈ g.references symbol, child ∈ followed ++ waiting) →
    g.size < count + followed.length → ∃ found,
      g.breadthFirstFrom count (followed ++ waiting) waiting = found ∧
      (∀ symbol ∈ followed ++ waiting, symbol ∈ found) ∧
      ∀ symbol ∈ found, ∀ child ∈ g.references symbol, child ∈ found := by
  induction count with
  | zero =>
      intro followed waiting distinct known _ room
      have bound := distinct.length_le_of_subset known
      rw [List.length_append, length_symbols] at bound
      omega
  | succ count ih =>
      intro followed waiting distinct known closed room
      cases waiting with
      | nil =>
          rw [List.append_nil] at *
          exact ⟨followed, rfl, fun _ => id, closed⟩
      | cons symbol waiting =>
          obtain ⟨found, same, nodup, _, all, only⟩ :=
            found_spec (g.references symbol) [] (by simpa using distinct)
          have regroup : followed ++ symbol :: waiting ++ found =
              (followed ++ [symbol]) ++ (waiting ++ found) := by
            simp
          rw [breadthFirstFrom]
          simp only [same]
          rw [regroup] at nodup ⊢
          have inside : ∀ other ∈ followed ++ [symbol] ++ (waiting ++ found),
              other ∈ g.symbols := by
            intro other member
            rw [← regroup, List.mem_append] at member
            rcases member with before | new
            · exact known other before
            · have child := (only other new).resolve_left List.not_mem_nil
              exact (valid symbol (known symbol (by simp))).2.2 other child
          have followedNow : ∀ other ∈ followed ++ [symbol], ∀ child ∈ g.references other,
              child ∈ followed ++ [symbol] ++ (waiting ++ found) := by
            intro other member child below
            rw [← regroup]
            rcases List.mem_append.mp member with before | last
            · exact List.mem_append_left found (closed other before child below)
            · rw [List.mem_singleton.mp last] at below
              exact all child below
          obtain ⟨result, ran, kept, done⟩ :=
            ih (followed ++ [symbol]) (waiting ++ found) nodup inside followedNow (by simp; omega)
          refine ⟨result, ran, fun other member => kept other ?_, done⟩
          rw [← regroup]
          exact List.mem_append_left found member

theorem mem_breadthFirst (valid : g.Valid) (member : symbol ∈ g.symbols)
    (reaches : g.Reaches symbol child) :
    child ∈ g.breadthFirst symbol := by
  obtain ⟨found, same, start, closed⟩ := breadthFirstFrom_closed valid (g.size + 1) [] [symbol]
    (by simp) (by simpa using member) (by simp) (by simp)
  rw [List.nil_append] at same
  rw [breadthFirst, same]
  induction reaches with
  | refl => exact start symbol List.mem_cons_self
  | tail _ step ih => exact closed _ ih _ step

/-- Where no symbol is unproductive, every reachable symbol can finish. -/
theorem symbolCost_lt (valid : g.Valid) (member : symbol ∈ g.symbols)
    (productive : g.unproductive? symbol = none)
    (reaches : g.Reaches symbol child) : g.symbolCost child ∅ < Cost.infinite := by
  have finite := List.find?_eq_none.mp productive child (mem_breadthFirst valid member reaches)
  rw [beq_iff_eq] at finite
  exact Nat.lt_of_le_of_ne (costWithin_le _ _ child) finite

end GrammarFuzz.Grammar
