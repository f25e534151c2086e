import GrammarFuzz.Language.Grammar

/-! The parts of a text. `Lexed` describes lists of parts without the scanner: references
are nonterminals, terminal stretches are nonempty, complete no reference and never meet.
Every text is split into such a list, and every such list is what its own concatenation is
split into, so references can be replaced within a text without disturbing the rest. -/
namespace GrammarFuzz

theorem isNonterminal_iff {text : String} : isNonterminal text = true ↔
    ∃ name : List Char, text.toList = '<' :: (name ++ ['>']) ∧ name.all isNameChar = true := by
  unfold isNonterminal
  constructor
  · intro closed
    split at closed
    · rename_i name opened
      have split := List.takeWhile_append_dropWhile (p := isNameChar) (l := name)
      rw [beq_iff_eq.mp closed] at split
      exact ⟨name.takeWhile isNameChar, by rw [opened, split], List.all_takeWhile⟩
    · contradiction
  · rintro ⟨name, spelled, named⟩
    have stops : ['>'].dropWhile isNameChar = ['>'] := by decide
    simp only [spelled, beq_iff_eq]
    rw [List.dropWhile_append_of_pos (List.all_eq_true.mp named), stops]

namespace Part

/-- Read on without emitting anything: whether a `<` waits for its name to be closed at the
end, or nothing if a reference was closed on the way. -/
def track : Bool → List Char → Option Bool
  | waiting, [] => some waiting
  | waiting, c :: rest =>
      if c = '<' then track true rest
      else if waiting && c == '>' then none
      else track (waiting && c != ' ') rest

/-- No reference is closed within the text. -/
def Quiet (chars : List Char) : Prop := (track false chars).isSome = true

theorem track_append (waiting : Bool) (front back : List Char) :
    track waiting (front ++ back) = (track waiting front).bind (track · back) := by
  induction front generalizing waiting with
  | nil => rfl
  | cons c front ih =>
      simp only [List.cons_append, track]
      split
      · exact ih true
      · split
        · rfl
        · exact ih _

theorem Quiet.front {front back : List Char} (quiet : Quiet (front ++ back)) : Quiet front := by
  unfold Quiet at *
  rw [track_append] at quiet
  cases reached : track false front with
  | none => simp [reached] at quiet
  | some waiting => rfl

inductive Lexed : List Part → Prop
  | nil : Lexed []
  | nonterminal {symbol : Symbol} {rest : List Part} (closed : isNonterminal symbol = true) :
      Lexed rest → Lexed (nonterminal symbol :: rest)
  | terminal {text : String} {rest : List Part} (nonempty : text ≠ "") (quiet : Quiet text.toList)
      (apart : ∀ other, rest.head? ≠ some (terminal other)) :
      Lexed rest → Lexed (terminal text :: rest)

def chars (part : Part) : List Char := part.text.toList

/-- What was read and not yet emitted, in reverse. -/
def unread (collected : List Char) : Option (List Char) → List Char
  | none => collected
  | some name => name ++ '<' :: collected

theorem flatMap_flush (collected : List Char) :
    (flush collected).flatMap chars = collected.reverse := by
  unfold flush
  split
  · simp [List.isEmpty_iff.mp ‹_›]
  · simp [chars, text]

theorem flatMap_scan (rest collected : List Char) (candidate : Option (List Char)) :
    (scan rest collected candidate).flatMap chars =
      (unread collected candidate).reverse ++ rest := by
  fun_induction scan rest collected candidate with
  | case1 | case2 => simp [flatMap_flush, unread]
  | case3 _ _ ih | case4 _ _ _ _ ih | case5 _ _ _ ih | case7 _ _ _ _ _ ih =>
      simpa [unread] using ih
  | case6 rest collected name _ ih =>
      simp only [unread, List.reverse_nil, List.nil_append] at ih
      simp [flatMap_flush, unread, chars, text, ih]
  | case8 _ _ _ _ _ _ _ ih => simpa [unread] using ih

theorem lexed_flush {collected : List Char} (quiet : Quiet collected.reverse) :
    Lexed (flush collected) := by
  unfold flush
  split
  · exact .nil
  · rename_i some
    refine .terminal ?_ (by simpa using quiet) (by simp) .nil
    simpa [← String.toList_inj, List.isEmpty_iff] using some

theorem lexed_flush_append {collected : List Char} {symbol : Symbol} {rest : List Part}
    (quiet : Quiet collected.reverse) (lexed : Lexed (nonterminal symbol :: rest)) :
    Lexed (flush collected ++ nonterminal symbol :: rest) := by
  unfold flush
  split
  · exact lexed
  · rename_i some
    refine .terminal ?_ (by simpa using quiet) (by simp) lexed
    simpa [← String.toList_inj, List.isEmpty_iff] using some

/-- The invariant of the scanner: it waits exactly when the unread characters leave it
waiting, and a name in progress has only name characters. -/
theorem lexed_scan (rest collected : List Char) (candidate : Option (List Char))
    (state : track false (unread collected candidate).reverse = some candidate.isSome)
    (named : ∀ name, candidate = some name → name.all isNameChar = true) :
    Lexed (scan rest collected candidate) := by
  fun_induction scan rest collected candidate with
  | case1 collected => exact lexed_flush (by simp [Quiet, unread] at *; simp [state])
  | case2 collected name =>
      exact lexed_flush (by unfold unread at state; simp only [Quiet, state]; rfl)
  | case3 rest collected ih =>
      refine ih ?_ (by simp)
      simp only [unread, List.nil_append, List.reverse_cons] at *
      rw [track_append, state]
      rfl
  | case4 c rest collected other ih =>
      refine ih ?_ (by simp)
      simp only [unread, List.reverse_cons] at *
      rw [track_append, state]
      simp [track, other]
  | case5 rest collected name ih =>
      refine ih ?_ (by simp)
      simp only [unread, List.nil_append] at *
      rw [List.reverse_cons, track_append, state]
      rfl
  | case6 rest collected name _ ih =>
      have quiet : Quiet (collected.reverse ++ '<' :: name.reverse) := by
        simpa [Quiet, unread] using congrArg Option.isSome state
      refine lexed_flush_append quiet.front (.nonterminal ?_ (ih rfl (by simp)))
      refine isNonterminal_iff.mpr ⟨name.reverse, by simp, ?_⟩
      simpa using named name rfl
  | case7 rest collected name _ _ ih =>
      refine ih ?_ (by simp)
      simp only [unread] at *
      rw [List.reverse_cons, track_append, state]
      rfl
  | case8 c rest collected name opens closes space ih =>
      have nameChar : isNameChar c = true := by simp [isNameChar, opens, closes, space]
      apply ih
      · simp only [unread, List.cons_append] at *
        rw [List.reverse_cons, track_append, state]
        simp [track, opens, closes, space]
      · rintro _ ⟨⟩
        simp [nameChar, named name rfl]

/-- Characters that close no reference before the text ends or a `<` starts over are read
as terminal text. -/
theorem scan_quiet (front rest collected : List Char) (candidate : Option (List Char))
    (quiet : (track candidate.isSome front).isSome = true)
    (next : rest = [] ∨ rest.head? = some '<') :
    scan (front ++ rest) collected candidate =
      scan rest (front.reverse ++ unread collected candidate) none := by
  induction front generalizing collected candidate with
  | nil =>
      cases candidate with
      | none => rfl
      | some name =>
          rcases next with rfl | opened
          · simp [scan, unread]
          · obtain ⟨tail, rfl⟩ := List.head?_eq_some_iff.mp opened
            simp [scan, unread]
  | cons c front ih =>
      cases candidate with
      | none =>
          simp only [track, Option.isSome_none, Bool.false_and, Bool.false_eq_true,
            if_false] at quiet
          simp only [List.cons_append, scan]
          split at quiet
          · rw [if_pos ‹_›, ih _ _ (by simpa using quiet)]
            simp [unread, ‹c = '<'›]
          · rw [if_neg ‹_›, ih _ _ (by simpa using quiet)]
            simp [unread]
      | some name =>
          simp only [track, Option.isSome_some, Bool.true_and] at quiet
          simp only [List.cons_append, scan]
          split at quiet
          · rw [if_pos ‹_›, ih _ _ (by simpa using quiet)]
            simp [unread, ‹c = '<'›]
          · split at quiet
            · simp at quiet
            · rename_i opens closes
              rw [if_neg opens, if_neg (by simpa using closes)]
              by_cases space : c = ' '
              · rw [if_pos space, ih _ _ (by simpa [space] using quiet)]
                simp [unread, space]
              · have waits : (c != ' ') = true := by simpa using space
                rw [if_neg space, ih _ _ (by simpa [waits] using quiet)]
                simp [unread]

theorem scan_name (name rest collected read : List Char) (named : name.all isNameChar = true) :
    scan (name ++ '>' :: rest) collected (some read) =
      flush collected ++
        nonterminal (String.ofList ('<' :: (read.reverse ++ name ++ ['>']))) ::
          scan rest [] none := by
  induction name generalizing read with
  | nil => simp [scan]
  | cons c name ih =>
      simp only [List.all_cons, Bool.and_eq_true, isNameChar, bne_iff_ne] at named
      obtain ⟨⟨⟨opens, closes⟩, space⟩, named⟩ := named
      simp only [List.cons_append, scan, if_neg opens, if_neg closes, if_neg space]
      rw [ih _ (by simpa [isNameChar] using named)]
      simp

theorem scan_nonterminal {symbol : Symbol} (closed : isNonterminal symbol = true)
    (rest collected : List Char) :
    scan (symbol.toList ++ rest) collected none =
      flush collected ++ nonterminal symbol :: scan rest [] none := by
  obtain ⟨name, spelled, named⟩ := isNonterminal_iff.mp closed
  have read := scan_name name rest collected [] named
  have same : String.ofList ('<' :: ([].reverse ++ name ++ ['>'])) = symbol := by
    rw [← String.toList_inj, spelled]
    simp
  rw [same] at read
  simpa [spelled, scan] using read

theorem scan_chars {pieces : List Part} (lexed : Lexed pieces) :
    scan (pieces.flatMap chars) [] none = pieces := by
  induction lexed with
  | nil => rfl
  | @nonterminal symbol rest closed _ ih =>
      rw [List.flatMap_cons, chars, text, scan_nonterminal closed, ih]
      rfl
  | @terminal content rest nonempty quiet apart lexed ih =>
      have some : content.toList.reverse.isEmpty = false := by
        simpa [List.isEmpty_eq_false_iff] using nonempty
      have emitted : flush content.toList.reverse = [.terminal content] := by
        simp [flush, some]
      rw [List.flatMap_cons, chars, text]
      cases lexed with
      | nil =>
          rw [List.flatMap_nil, scan_quiet _ _ _ none quiet (.inl rfl)]
          simpa [scan, unread] using emitted
      | @nonterminal symbol rest closed lexed =>
          have opened : (symbol.toList ++ rest.flatMap chars).head? = Option.some '<' := by
            obtain ⟨name, spelled, _⟩ := isNonterminal_iff.mp closed
            simp [spelled]
          rw [List.flatMap_cons, chars, text, scan_nonterminal closed] at ih
          rw [List.flatMap_cons, chars, text, scan_quiet _ _ _ none quiet (.inr opened),
            scan_nonterminal closed, unread, List.append_nil, emitted]
          simpa [flush] using ih
      | @terminal other => exact absurd rfl (apart other)

end Part

theorem lexed_parts (text : String) : Part.Lexed (parts text) :=
  Part.lexed_scan _ _ _ rfl (by simp)

/-- Pieces that could come from a text are the parts of their concatenation. -/
theorem parts_join {pieces : List Part} (lexed : Part.Lexed pieces) :
    parts (String.join (pieces.map Part.text)) = pieces := by
  rw [parts, String.toList_join, List.flatMap_map]
  exact Part.scan_chars lexed

theorem parts_of_isNonterminal {symbol : Symbol} (closed : isNonterminal symbol = true) :
    parts symbol = [.nonterminal symbol] := by
  have lexed : Part.Lexed [.nonterminal symbol] := .nonterminal closed .nil
  have joined : String.join ([Part.nonterminal symbol].map Part.text) = symbol := by
    simp [Part.text]
  rw [← parts_join lexed, joined]

theorem references_of_isNonterminal {symbol : Symbol} (closed : isNonterminal symbol = true) :
    references symbol = [symbol] := by
  rw [references, parts_of_isNonterminal closed]
  rfl

/-- Nothing is lost by splitting a text. -/
theorem join_parts (text : String) : String.join ((parts text).map Part.text) = text := by
  have whole := Part.flatMap_scan text.toList [] none
  simp only [Part.unread, List.reverse_nil, List.nil_append] at whole
  rw [← String.toList_inj, String.toList_join, List.flatMap_map]
  exact whole

namespace Part

theorem Lexed.closed {pieces : List Part} (lexed : Lexed pieces) {symbol : Symbol}
    (member : Part.nonterminal symbol ∈ pieces) : isNonterminal symbol = true := by
  induction lexed with
  | nil => simp at member
  | nonterminal closed _ ih =>
      rcases List.mem_cons.mp member with same | member
      · exact Part.nonterminal.inj same ▸ closed
      · exact ih member
  | terminal _ _ _ _ ih => exact ih (by simpa using member)

theorem track_name {name : List Char} (named : name.all isNameChar = true) :
    track true (name ++ ['>']) = none := by
  induction name with
  | nil => rfl
  | cons c name ih =>
      simp only [List.all_cons, Bool.and_eq_true, isNameChar, bne_iff_ne] at named
      obtain ⟨⟨⟨opens, closes⟩, space⟩, named⟩ := named
      have waits : (c != ' ') = true := by simpa using space
      simpa [track, opens, closes, waits] using ih (by simpa [isNameChar] using named)

theorem isNonterminal_of_quiet {text : String} (quiet : Quiet text.toList) :
    isNonterminal text = false := by
  refine Bool.eq_false_iff.mpr fun closed => ?_
  obtain ⟨name, spelled, named⟩ := isNonterminal_iff.mp closed
  simp [Quiet, spelled, track, track_name named] at quiet

/-- Terminal stretches are no symbols, whatever brackets they contain. -/
theorem Lexed.unclosed {pieces : List Part} (lexed : Lexed pieces) {text : String}
    (member : Part.terminal text ∈ pieces) : isNonterminal text = false := by
  induction lexed with
  | nil => simp at member
  | nonterminal _ _ ih => exact ih (by simpa using member)
  | terminal _ quiet _ _ ih =>
      rcases List.mem_cons.mp member with same | member
      · exact Part.terminal.inj same ▸ isNonterminal_of_quiet quiet
      · exact ih member

def rename (f : Symbol → Symbol) : Part → Part
  | terminal text => terminal text
  | nonterminal symbol => nonterminal (f symbol)

theorem map_rename_of_terminal {f : Symbol → Symbol} {pieces : List Part}
    (final : ∀ symbol, .nonterminal symbol ∉ pieces) : pieces.map (rename f) = pieces := by
  refine (List.map_congr_left fun part member => ?_).trans (List.map_id pieces)
  cases part with
  | terminal text => rfl
  | nonterminal symbol => exact absurd member (final symbol)

/-- The same terminal text, with references in the same places; those on the right are
nonterminals. -/
inductive Alike : List Part → List Part → Prop
  | nil : Alike [] []
  | terminal {text : String} {left right : List Part} :
      Alike left right → Alike (terminal text :: left) (terminal text :: right)
  | nonterminal {before after : Symbol} {left right : List Part}
      (closed : isNonterminal after = true) :
      Alike left right → Alike (nonterminal before :: left) (nonterminal after :: right)

theorem Lexed.alike {left right : List Part} (lexed : Lexed left) (same : Alike left right) :
    Lexed right := by
  induction same with
  | nil => exact .nil
  | @nonterminal before after left right closed _ ih =>
      cases lexed with
      | nonterminal _ rest => exact .nonterminal closed (ih rest)
  | @terminal text left right same ih =>
      cases lexed with
      | terminal nonempty quiet apart rest =>
          refine .terminal nonempty quiet (fun other => ?_) (ih rest)
          cases same with
          | nil => simp
          | nonterminal => simp
          | @terminal content => exact absurd rfl (apart content)

theorem alike_rename {f : Symbol → Symbol} {pieces : List Part}
    (closed : ∀ symbol, .nonterminal symbol ∈ pieces → isNonterminal (f symbol) = true) :
    Alike pieces (pieces.map (rename f)) := by
  induction pieces with
  | nil => exact .nil
  | cons part rest ih =>
      have tail := ih fun symbol member => closed symbol (List.mem_cons_of_mem part member)
      cases part with
      | terminal text => exact .terminal tail
      | nonterminal symbol => exact .nonterminal (closed symbol List.mem_cons_self) tail

theorem rename_alike {f : Symbol → Symbol} {pieces : List Part}
    (closed : ∀ symbol, .nonterminal symbol ∈ pieces → isNonterminal symbol = true) :
    Alike (pieces.map (rename f)) pieces := by
  induction pieces with
  | nil => exact .nil
  | cons part rest ih =>
      have tail := ih fun symbol member => closed symbol (List.mem_cons_of_mem part member)
      cases part with
      | terminal text => exact .terminal tail
      | nonterminal symbol => exact .nonterminal (closed symbol List.mem_cons_self) tail

end Part

theorem mem_references {text : String} {symbol : Symbol} :
    symbol ∈ references text ↔ Part.nonterminal symbol ∈ parts text := by
  rw [references, List.mem_filterMap]
  constructor
  · rintro ⟨part, member, found⟩
    cases part with
    | terminal content => simp [Part.symbol?] at found
    | nonterminal name =>
        obtain rfl : name = symbol := by simpa [Part.symbol?] using found
        exact member
  · exact fun member => ⟨_, member, rfl⟩

theorem Part.Lexed.append {left right : List Part} {symbol : Symbol} (lexed : Part.Lexed left)
    (rest : Part.Lexed (.nonterminal symbol :: right)) :
    Part.Lexed (left ++ .nonterminal symbol :: right) := by
  induction lexed with
  | nil => exact rest
  | nonterminal closed _ ih => exact .nonterminal closed ih
  | @terminal text following nonempty quiet apart _ ih =>
      refine .terminal nonempty quiet (fun other => ?_) ih
      cases following with
      | nil => simp
      | cons part _ => exact apart other

/-- A nonterminal starts with a bracket that ends every candidate before it, and ends with one that
leaves none open, so what surrounds it is split as if it stood alone. -/
theorem parts_append_nonterminal (front back : String) {symbol : Symbol}
    (closed : isNonterminal symbol = true) :
    parts (front ++ symbol ++ back) = parts front ++ .nonterminal symbol :: parts back := by
  have lexed := (lexed_parts front).append (.nonterminal closed (lexed_parts back))
  have spelled : String.join ((parts front ++ .nonterminal symbol :: parts back).map Part.text) =
      front ++ symbol ++ back := by
    rw [List.map_append, List.map_cons, String.join_append, String.join_cons, join_parts,
      join_parts, Part.text, String.append_assoc]
  rw [← spelled, parts_join lexed]

/-- The references of a text are the nonterminals that occur in it, whatever surrounds them. -/
theorem mem_references_iff_infix {text : String} {symbol : Symbol} :
    symbol ∈ references text ↔ isNonterminal symbol = true ∧ symbol.toList <:+: text.toList := by
  rw [mem_references]
  constructor
  · intro member
    obtain ⟨front, back, split⟩ := List.append_of_mem member
    have whole := congrArg String.toList (join_parts text)
    rw [String.toList_join, List.flatMap_map, split, List.flatMap_append,
      List.flatMap_cons] at whole
    exact ⟨(lexed_parts text).closed member, _, _, (List.append_assoc _ _ _).trans whole⟩
  · rintro ⟨closed, front, back, whole⟩
    have spelled : String.ofList front ++ symbol ++ String.ofList back = text := by
      rw [← String.toList_inj, ← whole]
      simp
    rw [← spelled, parts_append_nonterminal _ _ closed]
    simp

namespace Expansion

/-- Replace every reference by its image; terminal text stays as it is. -/
def rename (f : Symbol → Symbol) (expansion : Expansion) : Expansion :=
  ⟨String.join ((expansion.parts.map (Part.rename f)).map Part.text)⟩

variable {f f' : Symbol → Symbol} {expansion : Expansion}

/-- Renaming references to nonterminals changes the references and no other part. -/
theorem parts_rename (closed : ∀ symbol ∈ expansion.references, isNonterminal (f symbol) = true) :
    (expansion.rename f).parts = expansion.parts.map (Part.rename f) :=
  parts_join ((lexed_parts _).alike
    (Part.alike_rename fun symbol member => closed symbol (mem_references.mpr member)))

theorem map_rename_congr (same : ∀ symbol ∈ expansion.references, f symbol = f' symbol) :
    expansion.parts.map (Part.rename f) = expansion.parts.map (Part.rename f') := by
  refine List.map_congr_left fun part member => ?_
  cases part with
  | terminal text => rfl
  | nonterminal symbol => exact congrArg Part.nonterminal (same symbol (mem_references.mpr member))

theorem rename_congr (same : ∀ symbol ∈ expansion.references, f symbol = f' symbol) :
    expansion.rename f = expansion.rename f' := by
  simp only [rename, map_rename_congr same]

theorem rename_id : expansion.rename id = expansion := by
  have fixed : Part.rename id = id := by
    funext part
    cases part <;> rfl
  simp only [rename, fixed, List.map_id, parts, join_parts]

end Expansion
end GrammarFuzz
