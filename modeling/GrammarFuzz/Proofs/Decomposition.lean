import Mathlib.Data.List.Chain
import Mathlib.Data.Nat.Find
import GrammarFuzz.Proofs.Parts

/-! The parts of a text are its only lossless decomposition into references and the text between
them. References never overlap, so successive searches, each for the first one from where the last
one ended, find all that occur; cutting the text where they stand gives the parts. -/
namespace GrammarFuzz

/-- `<`, then characters other than `<`, `>` and the space U+0020, then `>`. -/
def IsReference (chars : List Char) : Prop :=
  ∃ name, chars = '<' :: (name ++ ['>']) ∧ ∀ c ∈ name, c ≠ '<' ∧ c ≠ '>' ∧ c ≠ ' '

theorem isNonterminal_iff_isReference {text : String} :
    isNonterminal text = true ↔ IsReference text.toList := by
  rw [isNonterminal_iff]
  refine exists_congr fun name => and_congr_right fun _ => ?_
  simp only [List.all_eq_true, isNameChar, Bool.and_eq_true, bne_iff_ne, and_assoc]

/-- Pieces that spell the text, with references kept apart from all other text. -/
structure Decomposes (text : String) (pieces : List Part) : Prop where
  whole : String.join (pieces.map Part.text) = text
  nonterminal {symbol : Symbol} : .nonterminal symbol ∈ pieces → IsReference symbol.toList
  terminal {content : String} : .terminal content ∈ pieces →
    content ≠ "" ∧ ∀ inner, inner <:+: content.toList → ¬IsReference inner
  /-- Of two neighbours one is a reference. -/
  apart : pieces.IsChain fun left right => left.symbol?.isSome = true ∨ right.symbol?.isSome = true

namespace Part

theorem references_of_quiet {text : String} (quiet : Quiet text.toList) : references text = [] := by
  by_cases empty : text = ""
  · subst empty
    rfl
  · have alone : Lexed [terminal text] := .terminal empty quiet (by simp) .nil
    have whole : parts text = [terminal text] := by simpa [Part.text] using parts_join alone
    rw [references, whole]
    rfl

/-- Without references a text has at most one part. -/
theorem quiet_of_references {text : String} (none : references text = []) : Quiet text.toList := by
  have unused : ∀ symbol, nonterminal symbol ∉ parts text := fun symbol listed =>
    List.not_mem_nil (none ▸ mem_references.mpr listed)
  have whole := join_parts text
  have lexed := lexed_parts text
  generalize parts text = pieces at whole unused lexed
  cases lexed with
  | nil =>
      subst whole
      rfl
  | nonterminal => exact absurd List.mem_cons_self (unused _)
  | @terminal content rest _ quiet apart lexed =>
      cases lexed with
      | nil =>
          obtain rfl : content = text := by simpa [Part.text] using whole
          exact quiet
      | nonterminal => exact absurd (List.mem_cons_of_mem _ List.mem_cons_self) (unused _)
      | terminal => exact absurd rfl (apart _)

/-- A text is quiet if no reference occurs in it. -/
theorem quiet_iff {text : String} : Quiet text.toList ↔
    ∀ inner, inner <:+: text.toList → ¬IsReference inner := by
  constructor
  · intro quiet inner occurs reference
    have closed : isNonterminal (String.ofList inner) = true := by
      rwa [isNonterminal_iff_isReference, String.toList_ofList]
    have used : String.ofList inner ∈ references text :=
      mem_references_iff_infix.mpr ⟨closed, by rwa [String.toList_ofList]⟩
    rw [references_of_quiet quiet] at used
    contradiction
  · intro clear
    refine quiet_of_references (List.eq_nil_iff_forall_not_mem.mpr fun symbol used => ?_)
    obtain ⟨closed, occurs⟩ := mem_references_iff_infix.mp used
    exact clear _ occurs (isNonterminal_iff_isReference.mp closed)

theorem Lexed.quiet {pieces : List Part} (lexed : Lexed pieces) {content : String}
    (member : Part.terminal content ∈ pieces) : content ≠ "" ∧ Quiet content.toList := by
  induction lexed with
  | nil => simp at member
  | nonterminal _ _ ih => exact ih (by simpa using member)
  | terminal nonempty quiet _ _ ih =>
      rcases List.mem_cons.mp member with same | member
      · exact Part.terminal.inj same ▸ ⟨nonempty, quiet⟩
      · exact ih member

theorem Lexed.isChain {pieces : List Part} (lexed : Lexed pieces) :
    pieces.IsChain fun left right => left.symbol?.isSome = true ∨ right.symbol?.isSome = true := by
  induction lexed with
  | nil => exact .nil
  | nonterminal _ _ ih => exact List.isChain_cons.mpr ⟨fun _ _ => .inl rfl, ih⟩
  | @terminal content rest _ _ apart _ ih =>
      refine List.isChain_cons.mpr ⟨fun next first => .inr ?_, ih⟩
      cases next with
      | terminal other => exact absurd first (apart other)
      | nonterminal symbol => rfl

end Part

theorem decomposes_parts (text : String) : Decomposes text (parts text) where
  whole := join_parts text
  nonterminal member := isNonterminal_iff_isReference.mp ((lexed_parts text).closed member)
  terminal member := ((lexed_parts text).quiet member).imp_right Part.quiet_iff.mp
  apart := (lexed_parts text).isChain

namespace Decomposes

variable {text : String} {pieces : List Part}

theorem lexed (decomposes : Decomposes text pieces) : Part.Lexed pieces := by
  obtain ⟨-, nonterminal, terminal, apart⟩ := decomposes
  induction pieces with
  | nil => exact .nil
  | cons piece rest ih =>
      obtain ⟨neighbour, apart⟩ := List.isChain_cons.mp apart
      have tail := ih (fun member => nonterminal (List.mem_cons_of_mem _ member))
        (fun member => terminal (List.mem_cons_of_mem _ member)) apart
      cases piece with
      | nonterminal symbol =>
          exact .nonterminal (isNonterminal_iff_isReference.mpr
            (nonterminal List.mem_cons_self)) tail
      | terminal content =>
          obtain ⟨nonempty, none⟩ := terminal List.mem_cons_self
          refine .terminal nonempty (Part.quiet_iff.mpr none) (fun other first => ?_) tail
          simpa [Part.symbol?] using neighbour _ first

theorem eq_parts (decomposes : Decomposes text pieces) : pieces = parts text := by
  rw [← decomposes.whole, parts_join decomposes.lexed]

end Decomposes

/-- A stretch of a text, by the positions where it starts and where the rest begins. -/
structure Span where
  start : Nat
  stop : Nat

namespace Span

variable {chars : List Char} {span : Span}

def slice (span : Span) (chars : List Char) : List Char := (chars.take span.stop).drop span.start

theorem slice_append_drop {start stop : Nat} (ordered : start ≤ stop) :
    slice ⟨start, stop⟩ chars ++ chars.drop stop = chars.drop start := by
  have later : chars.drop stop = (chars.drop start).drop (stop - start) := by
    rw [List.drop_drop, Nat.add_sub_cancel' ordered]
  rw [slice, List.drop_take, later, List.take_append_drop]

/-- What occurs within a stretch occurs in the text, within the same bounds. -/
theorem exists_within {inner : List Char} (within : span.stop ≤ chars.length)
    (occurs : inner <:+: span.slice chars) (some : inner ≠ []) :
    ∃ found : Span, span.start ≤ found.start ∧ found.stop ≤ span.stop ∧
      found.slice chars = inner := by
  obtain ⟨front, back, spelled⟩ := occurs
  have length := congrArg List.length spelled
  have positive := List.length_pos_iff.mpr some
  simp only [slice, List.length_append, List.length_drop, List.length_take] at length
  refine ⟨⟨span.start + front.length, span.start + front.length + inner.length⟩,
    by simp, by dsimp only; omega, ?_⟩
  have ordered : span.start ≤ span.stop := by omega
  rw [slice, List.drop_take, ← List.drop_drop, ← slice_append_drop ordered, ← spelled,
    Nat.add_sub_cancel_left]
  simp

end Span

/-- The stretch is a reference. -/
structure Occurs (chars : List Char) (span : Span) : Prop where
  within : span.stop ≤ chars.length
  reference : IsReference (span.slice chars)

namespace Occurs

variable {chars : List Char} {span other : Span}

/-- The brackets stand at the ends and nowhere else. -/
theorem brackets (occurs : Occurs chars span) :
    span.start + 1 < span.stop ∧ chars[span.start]? = some '<' ∧
    chars[span.stop - 1]? = some '>' ∧
    ∀ position, span.start < position → position + 1 < span.stop →
      chars[position]? ≠ some '<' ∧ chars[position]? ≠ some '>' := by
  obtain ⟨within, name, spelled, named⟩ := occurs
  have length := congrArg List.length spelled
  simp only [Span.slice, List.length_drop, List.length_take, List.length_cons, List.length_append,
    List.length_nil] at length
  have stop : span.stop = span.start + name.length + 2 := by omega
  have read (position : Nat) (inside : position < name.length + 2) :
      chars[span.start + position]? = ('<' :: (name ++ ['>']))[position]? := by
    rw [← spelled, Span.slice, List.getElem?_drop, List.getElem?_take_of_lt (by omega)]
  refine ⟨by omega, read 0 (by omega), ?_, fun position after before => ?_⟩
  · have last := read (name.length + 1) (by omega)
    rw [stop]
    simpa [← Nat.add_assoc] using last
  · obtain ⟨offset, rfl⟩ : ∃ offset, position = span.start + (offset + 1) :=
      ⟨position - span.start - 1, by omega⟩
    have inside : offset < name.length := by omega
    rw [read _ (by omega), List.getElem?_cons_succ, List.getElem?_append_left inside,
      List.getElem?_eq_getElem inside]
    obtain ⟨notOpen, notClosed, _⟩ := named _ (List.getElem_mem inside)
    exact ⟨fun same => notOpen (Option.some.inj same), fun same => notClosed (Option.some.inj same)⟩

/-- A reference that starts later starts after the first one ended. -/
theorem apart (occurs : Occurs chars span) (others : Occurs chars other)
    (later : span.start < other.start) :
    span.stop ≤ other.start := by
  obtain ⟨_, _, closes, inside⟩ := occurs.brackets
  obtain ⟨_, opens, _, _⟩ := others.brackets
  by_contra overlap
  by_cases last : other.start = span.stop - 1
  · rw [← last, opens] at closes
    simp at closes
  · exact (inside other.start later (by omega)).1 opens

theorem stop_le (occurs : Occurs chars span) (others : Occurs chars other)
    (same : span.start = other.start) :
    span.stop ≤ other.stop := by
  obtain ⟨_, _, _, inside⟩ := occurs.brackets
  obtain ⟨some, _, closes, _⟩ := others.brackets
  by_contra shorter
  exact (inside (other.stop - 1) (by omega) (by omega)).2 closes

theorem eq_of_start (occurs : Occurs chars span) (others : Occurs chars other)
    (same : span.start = other.start) :
    span = other := by
  have stop := Nat.le_antisymm (occurs.stop_le others same) (others.stop_le occurs same.symm)
  cases span
  cases other
  exact congrArg₂ Span.mk same stop

end Occurs

/-- Search after search, each for the reference that starts first where the last one ended or
later. -/
inductive Successive (chars : List Char) : Nat → List Span → Prop
  | none {last : Nat} (clear : ∀ span, Occurs chars span → ¬last ≤ span.start) :
      Successive chars last []
  | next {last : Nat} {span : Span} {spans : List Span} (after : last ≤ span.start)
      (occurs : Occurs chars span)
      (first : ∀ other, Occurs chars other → last ≤ other.start → span.start ≤ other.start) :
      Successive chars span.stop spans → Successive chars last (span :: spans)

/-- The text from one position to another as terminal text, if there is any. -/
def gap (chars : List Char) (start stop : Nat) : List Part :=
  if start < stop then [.terminal (String.ofList (Span.slice ⟨start, stop⟩ chars))] else []

/-- Cut a text, from a position on, at stretches that follow each other. -/
def cutAt (chars : List Char) (last : Nat) : List Span → List Part
  | [] => gap chars last chars.length
  | span :: spans =>
      gap chars last span.start ++ .nonterminal (String.ofList (span.slice chars)) ::
        cutAt chars span.stop spans

section Gap

variable {chars : List Char} {start stop : Nat}

theorem flatMap_gap (ordered : start ≤ stop) :
    (gap chars start stop).flatMap Part.chars = Span.slice ⟨start, stop⟩ chars := by
  unfold gap
  split
  · simp [Part.chars, Part.text]
  · obtain rfl : start = stop := by omega
    simp [Span.slice]

theorem lexed_gap (within : stop ≤ chars.length)
    (clear : ∀ span, Occurs chars span → start ≤ span.start → stop < span.stop) :
    Part.Lexed (gap chars start stop) := by
  unfold gap
  split
  · refine .terminal ?_ (Part.quiet_iff.mpr fun inner inside reference => ?_) (by simp) .nil
    · rw [ne_eq, String.ofList_eq_empty_iff, ← List.length_eq_zero_iff]
      simp only [Span.slice, List.length_drop, List.length_take]
      omega
    · rw [String.toList_ofList] at inside
      have some : inner ≠ [] := by
        obtain ⟨name, rfl, _⟩ := reference
        simp
      obtain ⟨found, after, before, rfl⟩ := Span.exists_within within inside some
      have past := clear found ⟨before.trans within, reference⟩ after
      dsimp only at before
      omega
  · exact .nil

theorem filterMap_gap : (gap chars start stop).filterMap Part.symbol? = [] := by
  unfold gap
  split <;> rfl

end Gap

namespace Successive

variable {chars : List Char} {last : Nat} {spans : List Span}

theorem lexed_cutAt (successive : Successive chars last spans) :
    Part.Lexed (cutAt chars last spans) := by
  induction successive with
  | none clear =>
      exact lexed_gap (Nat.le_refl _) fun span occurs after => absurd after (clear span occurs)
  | @next last span spans after occurs first _ ih =>
      obtain ⟨long, _⟩ := occurs.brackets
      have closed : isNonterminal (String.ofList (span.slice chars)) = true := by
        rw [isNonterminal_iff_isReference, String.toList_ofList]
        exact occurs.reference
      have clear : Part.Lexed (gap chars last span.start) := by
        apply lexed_gap
        · have within := occurs.within
          omega
        · intro other others later
          obtain ⟨long, _⟩ := others.brackets
          have := first other others later
          omega
      exact clear.append (.nonterminal closed ih)

theorem flatMap_cutAt (successive : Successive chars last spans) (within : last ≤ chars.length) :
    (cutAt chars last spans).flatMap Part.chars = chars.drop last := by
  induction successive with
  | none =>
      rw [cutAt, flatMap_gap within, ← Span.slice_append_drop within, List.drop_length,
        List.append_nil]
  | @next last span spans after occurs first _ ih =>
      obtain ⟨long, _⟩ := occurs.brackets
      have ordered : span.start ≤ span.stop := by omega
      rw [cutAt, List.flatMap_append, List.flatMap_cons, flatMap_gap after, ih occurs.within,
        Part.chars, Part.text, String.toList_ofList, Span.slice_append_drop ordered,
        Span.slice_append_drop after]

theorem filterMap_cutAt (chars : List Char) (last : Nat) (spans : List Span) :
    (cutAt chars last spans).filterMap Part.symbol? =
      spans.map fun span => String.ofList (span.slice chars) := by
  induction spans generalizing last with
  | nil => exact filterMap_gap
  | cons span spans ih => simp [cutAt, filterMap_gap, Part.symbol?, ih]

/-- The searches find every reference, wherever they begin. -/
theorem mem_iff (successive : Successive chars last spans) {span : Span} :
    span ∈ spans ↔ Occurs chars span ∧ last ≤ span.start := by
  induction successive with
  | none clear => simpa using clear span
  | @next last found spans after occurs first _ ih =>
      obtain ⟨long, _⟩ := occurs.brackets
      rw [List.mem_cons, ih]
      constructor
      · rintro (rfl | ⟨others, later⟩)
        · exact ⟨occurs, after⟩
        · exact ⟨others, by omega⟩
      · rintro ⟨others, later⟩
        rcases Nat.eq_or_lt_of_le (first span others later) with same | further
        · exact .inl (others.eq_of_start occurs same.symm)
        · exact .inr ⟨others, occurs.apart others further⟩

theorem pairwise (successive : Successive chars last spans) :
    spans.Pairwise fun left right => left.stop ≤ right.start := by
  induction successive with
  | none => exact .nil
  | next _ _ _ rest ih => exact .cons (fun _ member => (rest.mem_iff.mp member).2) ih

theorem unique {left right : List Span} (lefts : Successive chars last left)
    (rights : Successive chars last right) :
    left = right := by
  induction lefts generalizing right with
  | none clear =>
      cases rights with
      | none => rfl
      | next after occurs => exact absurd after (clear _ occurs)
  | next after occurs first _ ih =>
      cases rights with
      | none clear => exact absurd after (clear _ occurs)
      | next after' occurs' first' rest =>
          obtain rfl :=
            occurs.eq_of_start occurs' (Nat.le_antisymm (first _ occurs' after')
              (first' _ occurs after))
          rw [ih rest]

end Successive

/-- Each search ends further right, so the searches come to an end. -/
theorem exists_successive (chars : List Char) (last : Nat) :
    ∃ spans, Successive chars last spans := by
  classical
  induction remaining : chars.length - last using Nat.strong_induction_on generalizing last with
  | _ remaining ih =>
      by_cases some : ∃ start span, Occurs chars span ∧ last ≤ span.start ∧ span.start = start
      · obtain ⟨span, occurs, after, starts⟩ := Nat.find_spec some
        obtain ⟨long, _⟩ := occurs.brackets
        have within := occurs.within
        obtain ⟨spans, rest⟩ := ih _ (by omega) span.stop rfl
        refine ⟨span :: spans, .next after occurs (fun other others later => ?_) rest⟩
        rw [starts]
        exact Nat.find_min' some ⟨other, others, later, rfl⟩
      · exact ⟨[], .none fun span occurs after => some ⟨_, span, occurs, after, rfl⟩⟩

theorem Successive.cutAt_eq_parts {text : String} {spans : List Span}
    (successive : Successive text.toList 0 spans) :
    cutAt text.toList 0 spans = parts text := by
  have whole : String.join ((cutAt text.toList 0 spans).map Part.text) = text := by
    rw [← String.toList_inj, String.toList_join, List.flatMap_map]
    exact successive.flatMap_cutAt (Nat.zero_le _)
  rw [← parts_join successive.lexed_cutAt, whole]

theorem isNonterminal_iff_parts {text : String} :
    isNonterminal text = true ↔ parts text = [.nonterminal text] := by
  refine ⟨parts_of_isNonterminal, fun whole => ?_⟩
  exact (lexed_parts text).closed (whole ▸ List.mem_cons_self)

/-- A text is a nonterminal if the first reference in it is the whole of it. -/
theorem isNonterminal_iff_head? {text : String} {spans : List Span}
    (successive : Successive text.toList 0 spans) :
    isNonterminal text = true ↔ spans.head? = some ⟨0, text.toList.length⟩ := by
  have whole : Span.slice ⟨0, text.toList.length⟩ text.toList = text.toList := by simp [Span.slice]
  rw [isNonterminal_iff_isReference]
  constructor
  · intro reference
    have occurs : Occurs text.toList ⟨0, text.toList.length⟩ :=
      ⟨Nat.le_refl _, whole.symm ▸ reference⟩
    have member := successive.mem_iff.mpr ⟨occurs, Nat.zero_le _⟩
    cases successive with
    | none => simp at member
    | next _ found first =>
        have start := Nat.eq_zero_of_le_zero (first _ occurs (Nat.zero_le _))
        rw [List.head?_cons, found.eq_of_start occurs start]
  · intro first
    have occurs := (successive.mem_iff.mp (List.mem_of_mem_head? first)).1
    exact whole ▸ occurs.reference

/-- Splitting an expansion is its only lossless decomposition, and that of cutting it at the
references that occur in it. These are found from left to right, and none is overlooked. -/
theorem parts_decompose_uniquely (expansion : Expansion) :
    (∀ pieces, Decomposes expansion.text pieces ↔ pieces = expansion.parts) ∧
    (isNonterminal expansion.text = true ↔ expansion.parts = [.nonterminal expansion.text]) ∧
    expansion.references = expansion.parts.filterMap Part.symbol? ∧
    ∃ spans : List Span,
      spans.Pairwise (fun left right => left.stop ≤ right.start) ∧
      (∀ span, span ∈ spans ↔ Occurs expansion.text.toList span) ∧
      (∀ found, Successive expansion.text.toList 0 found ↔ found = spans) ∧
      expansion.parts = cutAt expansion.text.toList 0 spans ∧
      expansion.references = spans.map (fun span =>
        String.ofList (span.slice expansion.text.toList)) ∧
      (isNonterminal expansion.text = true ↔
        spans.head? = some ⟨0, expansion.text.toList.length⟩) := by
  obtain ⟨spans, successive⟩ := exists_successive expansion.text.toList 0
  have cut : cutAt expansion.text.toList 0 spans = expansion.parts := successive.cutAt_eq_parts
  refine ⟨fun pieces => ?_, isNonterminal_iff_parts, rfl, spans, successive.pairwise,
    fun span => ?_, fun found => ?_, cut.symm, ?_, isNonterminal_iff_head? successive⟩
  · exact ⟨Decomposes.eq_parts, fun same => same ▸ decomposes_parts expansion.text⟩
  · rw [successive.mem_iff, and_iff_left (Nat.zero_le _)]
  · exact ⟨fun other => other.unique successive, fun same => same ▸ successive⟩
  · rw [← Successive.filterMap_cutAt _ 0, cut]
    rfl

end GrammarFuzz
