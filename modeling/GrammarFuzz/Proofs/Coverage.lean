import Mathlib.Data.List.Basic
import GrammarFuzz.Coverage.Tracker
import GrammarFuzz.Proofs.Reachability

/-! What a tracker knows after covering a key, and how the missing keys shrink. -/
namespace GrammarFuzz.Tracker

variable {t after : Tracker} {key other : Key}

theorem grammar_cover (t : Tracker) (key : Key) : (t.cover key).grammar = t.grammar := by
  unfold cover
  split <;> rfl

theorem mem_covered_cover : other ∈ (t.cover key).covered ↔
    other ∈ t.covered ∨ other = key ∧ key ∈ t.grammar.maximumCoverage := by
  unfold cover
  split
  · rename_i known
    rw [t.maximum_eq] at known
    simp only [Std.ExtTreeSet.mem_insert, Std.LawfulEqCmp.compare_eq_iff_eq, known, and_true]
    rw [eq_comm, or_comm]
  · rename_i unknown
    rw [t.maximum_eq] at unknown
    simp only [unknown, and_false, or_false]

/-- Covering the key of an expansion covers it and keeps what was covered. -/
theorem mem_covered_cover_of_expansion {symbol : Symbol} {expansion : Expansion}
    (member : expansion ∈ t.grammar.expansions symbol) :
    other ∈ (t.cover (Key.ofText symbol expansion.text)).covered ↔
      other ∈ t.covered ∨ other = Key.ofText symbol expansion.text := by
  have known : Key.ofText symbol expansion.text ∈ t.grammar.maximumCoverage :=
    Grammar.mem_maximumCoverage.mpr
      ⟨symbol, Grammar.mem_symbols_of_expansion member,
        Grammar.mem_keysOf.mpr ⟨expansion, member, rfl⟩⟩
  simp only [mem_covered_cover, known, and_true]

theorem mem_missing : key ∈ t.missing ↔ key ∈ t.grammar.maximumCoverage ∧ key ∉ t.covered := by
  simp only [missing, List.mem_filter, Std.ExtTreeSet.mem_toList, t.maximum_eq, isCovered,
    not_contains_iff]

/-- Covered keys belong to the grammar, so comparing numbers of keys finds a missing one. -/
theorem isComplete_iff : t.isComplete = true ↔ t.missing = [] := by
  constructor
  · intro complete
    by_contra some
    obtain ⟨key, listed⟩ := List.exists_mem_of_ne_nil _ some
    obtain ⟨known, uncovered⟩ := mem_missing.mp listed
    have distinct : (key :: t.covered.toList).Nodup :=
      List.nodup_cons.mpr ⟨fun member => uncovered (Std.ExtTreeSet.mem_toList.mp member),
        Grammar.nodup_keys t.covered⟩
    have inside : key :: t.covered.toList ⊆ t.maximum.toList := by
      intro other member
      rw [Std.ExtTreeSet.mem_toList]
      rcases List.mem_cons.mp member with rfl | member
      · rwa [t.maximum_eq]
      · exact t.covered_subset other (Std.ExtTreeSet.mem_toList.mp member)
    have bound := distinct.length_le_of_subset inside
    have sizes : t.covered.size = t.maximum.size := beq_iff_eq.mp complete
    rw [List.length_cons, Std.ExtTreeSet.length_toList, Std.ExtTreeSet.length_toList] at bound
    omega
  · intro empty
    have same : t.covered = t.maximum := by
      refine Std.ExtTreeSet.ext_mem fun key => ⟨t.covered_subset key, fun known => ?_⟩
      by_contra uncovered
      have listed := mem_missing.mpr ⟨t.maximum_eq ▸ known, uncovered⟩
      rw [empty] at listed
      exact List.not_mem_nil listed
    rw [isComplete, same]
    exact beq_self_eq_true _

/-- Every key is covered or missing. -/
theorem size_add_length_missing (t : Tracker) :
    t.covered.size + t.missing.length = t.maximum.size := by
  have covered : t.maximum.filter t.isCovered = t.covered := by
    refine Std.ExtTreeSet.ext_mem fun key => ?_
    simp only [Std.ExtTreeSet.mem_filter, Std.ExtTreeSet.get_eq, isCovered,
      Std.ExtTreeSet.contains_iff_mem, exists_prop, and_iff_right_iff_imp]
    exact t.covered_subset key
  have split : t.maximum.toList.length = _ := List.length_eq_length_filter_add t.isCovered
  rw [← Std.ExtTreeSet.toList_filter, covered, Std.ExtTreeSet.length_toList,
    Std.ExtTreeSet.length_toList] at split
  exact split.symm

/-- The missing keys are listed in the order of their texts, each once. -/
theorem pairwise_missing (t : Tracker) : (t.missing.map Key.text).Pairwise (· < ·) := by
  have ordered : t.missing.Pairwise fun left right => compare left right = .lt :=
    Std.ExtTreeSet.ordered_toList.filter _
  exact List.pairwise_map.mpr (ordered.imp compareOfLessAndEq_eq_lt.mp)

theorem isComplete_iff_covered :
    t.isComplete = true ↔ ∀ key ∈ t.grammar.maximumCoverage, key ∈ t.covered := by
  rw [isComplete_iff, List.eq_nil_iff_forall_not_mem]
  refine forall_congr' fun key => ?_
  rw [mem_missing, not_and, not_not]

theorem missing_length_lt (same : after.grammar = t.grammar)
    (kept : ∀ key ∈ t.covered, key ∈ after.covered)
    (gained : ∃ key ∈ after.covered, key ∉ t.covered) :
    after.missing.length < t.missing.length := by
  obtain ⟨key, now, before⟩ := gained
  have maximum : after.maximum = t.maximum := by rw [after.maximum_eq, t.maximum_eq, same]
  have listed : key ∈ t.maximum.toList := by
    rw [Std.ExtTreeSet.mem_toList, ← maximum]
    exact after.covered_subset key now
  simp only [missing, maximum, isCovered]
  refine Grammar.length_filter_lt (fun other _ missed => ?_) listed ?_ (not_contains_iff.mpr before)
  · rw [not_contains_iff] at missed ⊢
    exact fun covered => missed (kept other covered)
  · rw [Std.ExtTreeSet.contains_iff_mem.mpr now]
    rfl

theorem cover_of_mem (member : key ∈ t.covered) : t.cover key = t := by
  have same : t.covered.insert key = t.covered := by
    refine Std.ExtTreeSet.ext_mem fun other => ?_
    rw [Std.ExtTreeSet.mem_insert, Std.LawfulEqCmp.compare_eq_iff_eq]
    refine ⟨?_, .inr⟩
    rintro (rfl | before)
    · exact member
    · exact before
  unfold cover
  split
  · simp only [same]
  · rfl

theorem grammar_foldl_cover (keys : List Key) (t : Tracker) :
    (keys.foldl cover t).grammar = t.grammar := by
  induction keys generalizing t with
  | nil => rfl
  | cons key rest ih => rw [List.foldl_cons, ih, grammar_cover]

theorem mem_covered_foldl_cover {keys : List Key} : other ∈ (keys.foldl cover t).covered ↔
    other ∈ t.covered ∨ other ∈ keys ∧ other ∈ t.grammar.maximumCoverage := by
  induction keys generalizing t with
  | nil => simp
  | cons key rest ih =>
      rw [List.foldl_cons, ih, mem_covered_cover, grammar_cover, List.mem_cons]
      constructor
      · rintro ((before | ⟨rfl, known⟩) | ⟨listed, known⟩)
        · exact .inl before
        · exact .inr ⟨.inl rfl, known⟩
        · exact .inr ⟨.inr listed, known⟩
      · rintro (before | ⟨rfl | listed, known⟩)
        · exact .inl (.inl before)
        · exact .inl (.inr ⟨rfl, known⟩)
        · exact .inr ⟨listed, known⟩

theorem recordTree_snd (t : Tracker) (tree : Tree) :
    (t.recordTree tree).2 = tree.usedKeys.foldl cover t :=
  (List.foldl_hom Prod.snd fun _ _ => rfl).symm

/-- A tracker is its grammar and its covered keys. -/
theorem ext_covered (same : after.grammar = t.grammar)
    (covers : ∀ key, key ∈ after.covered ↔ key ∈ t.covered) :
    after = t := by
  have maximum : after.maximum = t.maximum := by rw [after.maximum_eq, t.maximum_eq, same]
  have covered : after.covered = t.covered := Std.ExtTreeSet.ext_mem covers
  cases after
  cases t
  simp only at same maximum covered
  subst same maximum covered
  rfl

/-- Covering the key of an expansion uses up a missing key, if it was not covered before. -/
theorem missing_cover_lt {symbol : Symbol} {expansion : Expansion}
    (member : expansion ∈ t.grammar.expansions symbol)
    (fresh : Key.ofText symbol expansion.text ∉ t.covered) :
    (t.cover (Key.ofText symbol expansion.text)).missing.length < t.missing.length := by
  have recorded : ∀ key, key ∈ (t.cover (Key.ofText symbol expansion.text)).covered ↔
      key ∈ t.covered ∨ key = Key.ofText symbol expansion.text :=
    fun key => mem_covered_cover_of_expansion member
  apply missing_length_lt (grammar_cover t _)
  · exact fun key before => (recorded key).mpr (.inl before)
  · exact ⟨_, (recorded _).mpr (.inr rfl), fresh⟩

end GrammarFuzz.Tracker
