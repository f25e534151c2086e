import Mathlib.Data.List.Forall2
import GrammarFuzz.Json.Token
import GrammarFuzz.Json.Value

/-! How JSON text spells its tokens, said without a reader: a character of a text has several
spellings, and blanks may stand between any two tokens. Reading finds the tokens that a text
spells, and a text that is read without a fault spells what is read. -/
namespace GrammarFuzz.Json

def HexDigit (c : Char) (digit : Nat) : Prop :=
  digit < 16 ∧ (c = digit.digitChar ∨ c = digit.digitChar.toUpper)

/-- Four digits in either case, and their number. -/
def HexNumber (digits : List Char) (number : Nat) : Prop :=
  digits.length = 4 ∧ ∃ values, List.Forall₂ HexDigit digits values ∧
    values.foldl (· * 16 + ·) 0 = number

/-- A character within a text may stand for itself, unless it is a quote, a backslash or a
control character; and it may be written by a letter, by its number or, beyond U+FFFF, by the
numbers of a surrogate pair. -/
inductive Writes (c : Char) : List Char → Prop
  | itself (free : c ≠ '"' ∧ c ≠ '\\' ∧ 0x20 ≤ c.toNat) : Writes c [c]
  | letter {letter : Char} (listed : (letter, c) ∈
      [('"', '"'), ('\\', '\\'), ('/', '/'), ('b', '\x08'),
      ('f', '\x0c'), ('n', '\n'), ('r', '\r'), ('t', '\t')]) : Writes c ['\\', letter]
  | number {digits : List Char} (number : HexNumber digits c.toNat) :
      Writes c ('\\' :: 'u' :: digits)
  | pair {digits digits' : List Char} {high low : Nat} (first : HexNumber digits high)
      (second : HexNumber digits' low) (isHigh : 0xD800 ≤ high ∧ high ≤ 0xDBFF)
      (isLow : 0xDC00 ≤ low ∧ low ≤ 0xDFFF)
      (code : c.toNat = 0x10000 + (high - 0xD800) * 0x400 + (low - 0xDC00)) :
      Writes c ('\\' :: 'u' :: (digits ++ '\\' :: 'u' :: digits'))

inductive Spelled : Token → List Char → Prop
  | punctuation {c : Char} {token : Token}
      (listed : (c, token) ∈ [('\x7b', .openRecord), ('\x7d', .closeRecord),
        ('[', .openList), (']', .closeList), (':', .colon), (',', Token.comma)]) :
      Spelled token [c]
  | text {content : String} {pieces : List (List Char)}
      (writes : List.Forall₂ Writes content.toList pieces) :
      Spelled (.text content) ('"' :: (pieces.flatten ++ ['"']))

/-- A text spells tokens, with blanks anywhere between, before and after them. -/
inductive Spells : List Token → List Char → Prop
  | ended : Spells [] []
  | blank {tokens : List Token} {c : Char} {rest : List Char}
      (blank : c ∈ [' ', '\n', '\t', '\r']) :
      Spells tokens rest → Spells tokens (c :: rest)
  | token {token : Token} {tokens : List Token} {written rest : List Char}
      (spelled : Spelled token written) :
      Spells tokens rest → Spells (token :: tokens) (written ++ rest)

theorem mem_of_lookup {α β : Type} [BEq α] [LawfulBEq α] {table : List (α × β)}
    {key : α} {value : β} (found : table.lookup key = some value) : (key, value) ∈ table := by
  obtain ⟨front, back, rfl, _⟩ := List.lookup_eq_some_iff.mp found
  exact List.mem_append_right front List.mem_cons_self

/-! Reading what is spelled. -/

-- The equations of the reader are made here, once for all the lemmas below.
attribute [local simp] tokensFrom

theorem hexDigit?_of_hexDigit {c : Char} {digit : Nat} (spelled : HexDigit c digit) :
    hexDigit? c = some digit := by
  have all : ∀ digit : Fin 16, hexDigit? digit.val.digitChar = some digit.val ∧
      hexDigit? digit.val.digitChar.toUpper = some digit.val := by decide +kernel
  obtain ⟨bound, rfl | rfl⟩ := spelled
  · exact (all ⟨digit, bound⟩).1
  · exact (all ⟨digit, bound⟩).2

/-- Go on after a number. -/
def resume : Option Mode → List Char → List Token
  | some mode, rest => tokensFrom mode rest
  | none, _ => [.brokenText .malformed]

theorem tokensFrom_hex (read : List Char) (high : Option Nat) (rest : List Char)
    {digits : List Char} {values : List Nat} (spelled : List.Forall₂ HexDigit digits values) :
    ∀ {due : Nat} (value : Nat), digits.length = due + 1 →
      tokensFrom (.hex read (due + 1) value high) (digits ++ rest) =
        resume (afterHex read (values.foldl (· * 16 + ·) value) high) rest := by
  induction spelled with
  | nil => exact fun _ none => nomatch none
  | @cons c digit digits values first later ih =>
      intro due value length
      rw [List.cons_append, tokensFrom, hexDigit?_of_hexDigit first]
      cases due with
      | zero =>
          obtain rfl : digits = [] := List.length_eq_zero_iff.mp (by simpa using length)
          cases later
          simp only [List.foldl_cons, List.foldl_nil]
          cases afterHex read (value * 16 + digit) high <;> rfl
      | succ due => exact ih (value * 16 + digit) (by simpa using length)

theorem tokensFrom_number (read : List Char) (high : Option Nat) (rest : List Char)
    {digits : List Char} {number : Nat} (spelled : HexNumber digits number) :
    tokensFrom (.hex read 4 0 high) (digits ++ rest) = resume (afterHex read number high) rest := by
  obtain ⟨length, values, spelled, rfl⟩ := spelled
  exact tokensFrom_hex read high rest spelled 0 length

theorem hasFourBytes_append {digits : List Char} (rest : List Char) (length : digits.length = 4) :
    hasFourBytes (digits ++ rest) = true := by
  obtain ⟨a, b, c, d, rfl⟩ := List.length_eq_four.mp length
  have first := Char.utf8Size_pos a
  have second := Char.utf8Size_pos b
  have third := Char.utf8Size_pos c
  have fourth := Char.utf8Size_pos d
  simp only [hasFourBytes, List.cons_append, List.take_succ_cons, List.take_zero, List.foldl_cons,
    List.foldl_nil]
  exact decide_eq_true (by omega)

theorem tokensFrom_u (read rest : List Char) {digits : List Char} {number : Nat}
    (spelled : HexNumber digits number) :
    tokensFrom (.inText read) ('\\' :: 'u' :: (digits ++ rest)) =
      resume (afterHex read number none) rest := by
  have unlisted : plainEscapes.lookup 'u' = none := by decide
  rw [tokensFrom, if_neg (by decide), if_pos rfl, tokensFrom, unlisted]
  simp only [bne_self_eq_false, hasFourBytes_append rest spelled.1, if_true,
    Bool.false_eq_true, if_false]
  exact tokensFrom_number read none rest spelled

theorem tokensFrom_pair (read rest : List Char) (high : Nat) {digits : List Char} {number : Nat}
    (spelled : HexNumber digits number) :
    tokensFrom (.pairSlash read high) ('\\' :: 'u' :: (digits ++ rest)) =
      resume (afterHex read number (some high)) rest := by
  rw [tokensFrom, if_pos rfl, tokensFrom]
  simp only [bne_self_eq_false, hasFourBytes_append rest spelled.1, if_true,
    Bool.false_eq_true, if_false]
  exact tokensFrom_number read (some high) rest spelled

theorem afterHex_char (read : List Char) (c : Char) :
    afterHex read c.toNat none = some (.inText (c :: read)) := by
  have valid : c.toNat < 0xD800 ∨ 0xDFFF < c.toNat ∧ c.toNat < 0x110000 := c.valid
  rw [afterHex, if_neg (by omega), if_neg (by omega), Char.ofNat_toNat]

theorem tokensFrom_writes {c : Char} {written : List Char} (writes : Writes c written)
    (read rest : List Char) :
    tokensFrom (.inText read) (written ++ rest) = tokensFrom (.inText (c :: read)) rest := by
  cases writes with
  | itself free =>
      obtain ⟨quote, slash, visible⟩ := free
      rw [List.singleton_append, tokensFrom, if_neg quote, if_neg slash, if_neg (by omega)]
  | letter listed =>
      have all : ∀ pair ∈ plainEscapes, plainEscapes.lookup pair.1 = some pair.2 := by decide
      rw [List.cons_append, tokensFrom, if_neg (by decide), if_pos rfl,
        List.singleton_append, tokensFrom]
      rw [all _ listed]
  | number number => exact (tokensFrom_u read rest number).trans (by rw [afterHex_char, resume])
  | @pair digits digits' high low first second isHigh isLow code =>
      have waits : afterHex read high none = some (.pairSlash read high) := by
        rw [afterHex, if_neg (by omega), if_pos isHigh]
      have pairs : afterHex read low (some high) = some (.inText (c :: read)) := by
        rw [afterHex, if_pos isLow, ← code, Char.ofNat_toNat]
      simp only [List.cons_append, List.append_assoc]
      rw [tokensFrom_u read _ first, waits, resume, tokensFrom_pair read rest high second,
        pairs, resume]

theorem tokensFrom_text {content : List Char} {pieces : List (List Char)}
    (writes : List.Forall₂ Writes content pieces) (rest : List Char) : ∀ read,
      tokensFrom (.inText read) (pieces.flatten ++ '"' :: rest) =
        .text (String.ofList (read.reverse ++ content)) :: tokensFrom .between rest := by
  induction writes with
  | nil =>
      intro read
      rw [List.flatten_nil, List.nil_append, tokensFrom, if_pos rfl, List.append_nil]
  | @cons c written content pieces first _ ih =>
      intro read
      rw [List.flatten_cons, List.append_assoc, tokensFrom_writes first, ih, List.reverse_cons,
        List.append_assoc, List.singleton_append]

theorem tokensFrom_spelled {token : Token} {written : List Char} (spelled : Spelled token written)
    (rest : List Char) :
    tokensFrom .between (written ++ rest) = token :: tokensFrom .between rest := by
  cases spelled with
  | @punctuation c token listed =>
      have all : ∀ pair ∈ punctuation, isBlank pair.1 = false ∧ pair.1 ≠ '"' ∧
          punctuation.lookup pair.1 = some pair.2 := by decide
      obtain ⟨visible, unquoted, found⟩ := all _ listed
      rw [List.singleton_append, tokensFrom, if_neg (by simp [visible]), if_neg unquoted, found]
  | @text content pieces writes =>
      rw [List.cons_append, tokensFrom, if_neg (by decide), if_pos rfl, List.append_assoc,
        List.singleton_append, tokensFrom_text writes rest]
      simp

/-- Reading finds the tokens that a text spells. -/
theorem Spells.tokensFrom_eq {tokens : List Token} {text : List Char}
    (spells : Spells tokens text) :
    tokensFrom .between text = tokens := by
  induction spells with
  | ended => rfl
  | @blank tokens c rest blank _ ih =>
      have blank : isBlank c = true := by simpa [isBlank, or_assoc] using blank
      rw [tokensFrom, if_pos blank, ih]
  | token spelled _ ih => rw [tokensFrom_spelled spelled, ih]

/-! Spelling what is read. -/

/-- A token that nothing is read after. -/
def Token.isFault : Token → Bool
  | .brokenText _ | .other _ => true
  | _ => false

def Clean (tokens : List Token) : Prop := ∀ token ∈ tokens, token.isFault = false

theorem not_clean_broken {fault : Fault} : ¬Clean [.brokenText fault] :=
  fun clean => nomatch clean _ List.mem_cons_self

theorem hexDigit_of_hexDigit? {c : Char} {digit : Nat} (found : hexDigit? c = some digit) :
    HexDigit c digit := by
  have all : ∀ code : Fin 128, ∀ digit ∈ hexDigit? (Char.ofNat code.val), digit < 16 ∧
      (Char.ofNat code.val = digit.digitChar ∨ Char.ofNat code.val = digit.digitChar.toUpper) := by
        decide +kernel
  have below {top : Char} (le : c ≤ top) (ascii : top.toNat < 128) : c.toNat < 128 :=
    Nat.lt_of_le_of_lt (UInt32.le_iff_toNat_le.mp le) ascii
  have ascii : c.toNat < 128 := by
    unfold hexDigit? at found
    split at found
    · rename_i number
      exact below number.2 (by decide)
    · split at found
      · rename_i lower
        exact below lower.2 (by decide)
      · split at found
        · rename_i upper
          exact below upper.2 (by decide)
        · contradiction
  have spelled := all ⟨c.toNat, ascii⟩ digit
  rw [Char.ofNat_toNat] at spelled
  exact spelled found

theorem digit_of_clean {read text : List Char} {due value : Nat} {high : Option Nat}
    (clean : Clean (tokensFrom (.hex read due value high) text)) :
    ∃ c digit rest, HexDigit c digit ∧ text = c :: rest := by
  rcases text with _ | ⟨c, rest⟩
  · exact absurd clean not_clean_broken
  rw [tokensFrom] at clean
  cases found : hexDigit? c with
  | none =>
      rw [found] at clean
      exact absurd clean not_clean_broken
  | some digit => exact ⟨c, digit, rest, hexDigit_of_hexDigit? found, rfl⟩

theorem hex_of_clean {read : List Char} {high : Option Nat} (due : Nat) :
    ∀ {value : Nat} {text : List Char},
    Clean (tokensFrom (.hex read (due + 1) value high) text) → ∃ digits values rest,
      digits.length = due + 1 ∧ List.Forall₂ HexDigit digits values ∧ text = digits ++ rest := by
  induction due with
  | zero =>
      intro value text clean
      obtain ⟨c, digit, rest, spelled, rfl⟩ := digit_of_clean clean
      exact ⟨[c], [digit], rest, rfl, .cons spelled .nil, rfl⟩
  | succ due ih =>
      intro value text clean
      obtain ⟨c, digit, rest, spelled, rfl⟩ := digit_of_clean clean
      rw [tokensFrom, hexDigit?_of_hexDigit spelled] at clean
      simp only [Nat.add_sub_cancel] at clean
      rw [if_pos (by omega)] at clean
      obtain ⟨digits, values, rest, length, later, rfl⟩ := ih clean
      exact ⟨c :: digits, digit :: values, rest, by simp [length], .cons spelled later, rfl⟩

theorem number_of_clean {read text : List Char} {high : Option Nat}
    (clean : Clean (tokensFrom (.hex read 4 0 high) text)) :
    ∃ digits number rest, HexNumber digits number ∧ text = digits ++ rest := by
  obtain ⟨digits, values, rest, length, spelled, rfl⟩ := hex_of_clean 3 clean
  exact ⟨digits, _, rest, ⟨length, values, spelled, rfl⟩, rfl⟩

theorem HexNumber.lt {digits : List Char} {number : Nat} (spelled : HexNumber digits number) :
    number < 0x10000 := by
  obtain ⟨length, values, spelled, rfl⟩ := spelled
  obtain ⟨a, b, c, d, rfl⟩ := List.length_eq_four.mp length
  obtain _ | ⟨⟨first, _⟩, _ | ⟨⟨second, _⟩, _ | ⟨⟨third, _⟩, _ | ⟨⟨fourth, _⟩, _ | _⟩⟩⟩⟩ := spelled
  simp only [List.foldl_cons, List.foldl_nil]
  omega

theorem hex_of_u {read rest : List Char} {high : Option Nat} (clean : Clean (
      if hasFourBytes rest then tokensFrom (.hex read 4 0 high) rest else [.brokenText .ended])) :
    ∃ digits number after, HexNumber digits number ∧ rest = digits ++ after := by
  by_cases enough : hasFourBytes rest = true
  · rw [if_pos enough] at clean
    exact number_of_clean clean
  · rw [if_neg enough] at clean
    exact absurd clean not_clean_broken

theorem pair_of_clean {read text : List Char} {high : Nat}
    (clean : Clean (tokensFrom (.pairSlash read high) text)) :
    ∃ digits low after, HexNumber digits low ∧ text = '\\' :: 'u' :: (digits ++ after) := by
  rcases text with _ | ⟨slash, text⟩
  · exact absurd clean not_clean_broken
  rw [tokensFrom] at clean
  by_cases slashed : slash = '\\'
  · rw [if_pos slashed] at clean
    rcases text with _ | ⟨letter, rest⟩
    · exact absurd clean not_clean_broken
    rw [tokensFrom] at clean
    by_cases u : letter = 'u'
    · subst slashed u
      obtain ⟨digits, low, after, spelled, rfl⟩ := hex_of_u (by simpa using clean)
      exact ⟨digits, low, after, spelled, rfl⟩
    · rw [if_pos (by simpa using u)] at clean
      exact absurd clean not_clean_broken
  · rw [if_neg slashed] at clean
    exact absurd clean not_clean_broken

theorem exists_char {number : Nat} (valid : number.isValidChar) : ∃ c : Char, c.toNat = number :=
  ⟨Char.ofNatAux number valid, rfl⟩

/-- A number is that of a character or of the first half of a pair. -/
theorem writes_of_number {read rest digits : List Char} {number : Nat}
    (spelled : HexNumber digits number)
    (clean : Clean (resume (afterHex read number none) rest)) : ∃ c tail after,
      Writes c ('\\' :: 'u' :: (digits ++ tail)) ∧ rest = tail ++ after := by
  by_cases isLow : 0xDC00 ≤ number ∧ number ≤ 0xDFFF
  · rw [afterHex, if_pos isLow] at clean
    exact absurd clean not_clean_broken
  by_cases isHigh : 0xD800 ≤ number ∧ number ≤ 0xDBFF
  · rw [afterHex, if_neg isLow, if_pos isHigh, resume] at clean
    obtain ⟨digits', low, after, spelled', rfl⟩ := pair_of_clean clean
    rw [tokensFrom_pair read after number spelled'] at clean
    by_cases isLow' : 0xDC00 ≤ low ∧ low ≤ 0xDFFF
    · obtain ⟨c, code⟩ : ∃ c : Char, c.toNat = 0x10000 + (number - 0xD800) * 0x400 +
          (low - 0xDC00) :=
        exists_char (.inr (by omega))
      exact ⟨c, '\\' :: 'u' :: digits', after, .pair spelled spelled' isHigh isLow' code, rfl⟩
    · rw [afterHex, if_neg isLow'] at clean
      exact absurd clean not_clean_broken
  · have bound := spelled.lt
    have valid : number.isValidChar := by
      unfold Nat.isValidChar
      omega
    obtain ⟨c, rfl⟩ := exists_char valid
    exact ⟨c, [], rest, by simpa using Writes.number spelled, rfl⟩

/-- Within a text either the closing quote comes next or a character is spelled. -/
theorem writes_of_clean {read text : List Char} (clean : Clean (tokensFrom (.inText read) text)) :
    (∃ rest, text = '"' :: rest) ∨ ∃ c written rest, Writes c written ∧ text = written ++ rest := by
  rcases text with _ | ⟨first, text⟩
  · exact absurd clean not_clean_broken
  by_cases quote : first = '"'
  · exact .inl ⟨text, by rw [quote]⟩
  refine .inr ?_
  rw [tokensFrom, if_neg quote] at clean
  by_cases slash : first = '\\'
  · subst slash
    rw [if_pos rfl] at clean
    rcases text with _ | ⟨letter, rest⟩
    · exact absurd clean not_clean_broken
    rw [tokensFrom] at clean
    cases found : plainEscapes.lookup letter with
    | some c => exact ⟨c, ['\\', letter], rest, .letter (mem_of_lookup found), rfl⟩
    | none =>
        by_cases u : letter = 'u'
        · subst u
          simp only [found, bne_self_eq_false, Bool.false_eq_true, if_false] at clean
          obtain ⟨digits, number, after, spelled, rfl⟩ := hex_of_u clean
          rw [if_pos (hasFourBytes_append after spelled.1),
            tokensFrom_number read none after spelled] at clean
          obtain ⟨c, tail, after, writes, rfl⟩ := writes_of_number spelled clean
          exact ⟨c, _, after, writes, by simp⟩
        · simp only [found] at clean
          rw [if_pos (by simpa using u)] at clean
          exact absurd clean not_clean_broken
  · rw [if_neg slash] at clean
    by_cases control : first.toNat < 0x20
    · rw [if_pos control] at clean
      exact absurd clean not_clean_broken
    · exact ⟨first, [first], text, .itself ⟨quote, slash, by omega⟩, rfl⟩

theorem Writes.length_pos {c : Char} {written : List Char} (writes : Writes c written) :
    0 < written.length := by
  cases writes <;> simp

theorem text_of_clean {read text : List Char} (clean : Clean (tokensFrom (.inText read) text)) :
    ∃ content pieces rest, List.Forall₂ Writes content pieces ∧
      text = pieces.flatten ++ '"' :: rest := by
  induction size : text.length using Nat.strongRecOn generalizing read text with
  | ind size ih =>
      subst size
      rcases writes_of_clean clean with ⟨rest, rfl⟩ | ⟨c, written, after, writes, rfl⟩
      · exact ⟨[], [], rest, .nil, rfl⟩
      · rw [tokensFrom_writes writes] at clean
        have shorter : after.length < (written ++ after).length := by
          rw [List.length_append]
          exact Nat.lt_add_of_pos_left writes.length_pos
        obtain ⟨content, pieces, rest, spelled, rfl⟩ := ih _ shorter clean rfl
        exact ⟨c :: content, written :: pieces, rest, .cons writes spelled, by simp⟩

/-- What comes first between tokens is a blank or a token, if not the end. -/
theorem spelled_of_clean {c : Char} {text : List Char}
    (clean : Clean (tokensFrom .between (c :: text))) :
    c ∈ [' ', '\n', '\t', '\r'] ∨ ∃ token written rest, Spelled token written ∧
      c :: text = written ++ rest := by
  by_cases blank : isBlank c = true
  · exact .inl (by simpa [isBlank, or_assoc] using blank)
  refine .inr ?_
  rw [tokensFrom, if_neg blank] at clean
  by_cases quote : c = '"'
  · subst quote
    rw [if_pos rfl] at clean
    obtain ⟨content, pieces, rest, writes, rfl⟩ := text_of_clean clean
    exact ⟨.text (String.ofList content), _, rest, .text (by simpa using writes), by simp⟩
  · rw [if_neg quote] at clean
    cases found : punctuation.lookup c with
    | some token => exact ⟨token, [c], text, .punctuation (mem_of_lookup found), rfl⟩
    | none =>
        rw [found] at clean
        exact nomatch clean _ List.mem_cons_self

theorem Spelled.length_pos {token : Token} {written : List Char} (spelled : Spelled token written) :
    0 < written.length := by
  cases spelled <;> simp

theorem Spelled.isFault {token : Token} {written : List Char} (spelled : Spelled token written) :
    token.isFault = false := by
  have all : ∀ pair ∈ Json.punctuation, pair.2.isFault = false := by decide
  cases spelled with
  | punctuation listed => exact all _ listed
  | text writes => rfl

theorem spells_of_clean {text : List Char} (clean : Clean (tokensFrom .between text)) :
    Spells (tokensFrom .between text) text := by
  induction size : text.length using Nat.strongRecOn generalizing text with
  | ind size ih =>
      subst size
      cases text with
      | nil => exact .ended
      | cons c text =>
          rcases spelled_of_clean clean with blank | ⟨token, written, rest, spelled, split⟩
          · have skipped : tokensFrom .between (c :: text) = tokensFrom .between text := by
              rw [tokensFrom, if_pos (by simpa [isBlank, or_assoc] using blank)]
            rw [skipped] at clean ⊢
            exact .blank blank (ih _ (Nat.lt_succ_self text.length) clean rfl)
          · have shorter : rest.length < (c :: text).length := by
              rw [split, List.length_append]
              exact Nat.lt_add_of_pos_left spelled.length_pos
            rw [split, tokensFrom_spelled spelled] at clean ⊢
            exact .token spelled (ih _ shorter (fun token inside =>
              clean token (List.mem_cons_of_mem _ inside)) rfl)

/-- A text spells tokens exactly if they are read from it, and none of them is a fault. -/
theorem spells_iff {read : List Token} {text : String} :
    Spells read text.toList ↔ tokens text = read ∧ Clean read := by
  constructor
  · intro spells
    refine ⟨spells.tokensFrom_eq, ?_⟩
    generalize text.toList = characters at spells
    induction spells with
    | ended => exact fun _ none => nomatch none
    | blank _ _ ih => exact ih
    | token spelled _ ih => exact List.forall_mem_cons.mpr ⟨spelled.isFault, ih⟩
  · rintro ⟨rfl, clean⟩
    exact spells_of_clean clean

/-! Writing. -/

theorem Spelled.spells {token : Token} {written : List Char} (spelled : Spelled token written) :
    Spells [token] written := by
  simpa using Spells.token spelled .ended

theorem Spells.append {tokens tokens' : List Token} {text text' : List Char}
    (spells : Spells tokens text)
    (spells' : Spells tokens' text') : Spells (tokens ++ tokens') (text ++ text') := by
  induction spells with
  | ended => exact spells'
  | blank blank _ ih => exact .blank blank ih
  | token spelled _ ih =>
      rw [List.append_assoc]
      exact .token spelled ih

theorem intercalate_cons {α : Type} (separator first : List α) (rest : List (List α)) :
    separator.intercalate (first :: rest) = first ++ rest.flatMap (separator ++ ·) := by
  induction rest generalizing first with
  | nil => simp
  | cons next rest ih =>
      rw [List.intercalate_cons_cons, ih, List.flatMap_cons, List.append_assoc, List.append_assoc]

theorem Spells.intercalate {separator : List Token} {between : List Char}
    (separates : Spells separator between) {groups : List (List Token)} {texts : List (List Char)}
    (spells : List.Forall₂ Spells groups texts) :
    Spells (separator.intercalate groups) (between.intercalate texts) := by
  cases spells with
  | nil => exact .ended
  | cons first rest =>
      rw [intercalate_cons, intercalate_cons]
      refine first.append ?_
      induction rest with
      | nil => exact .ended
      | cons next _ ih => exact (separates.append next).append ih

theorem writes_escape (c : Char) : Writes c (escape c) := by
  unfold escape
  cases found : shortEscapes.lookup c with
  | some letter =>
      have all : ∀ pair ∈ shortEscapes, (pair.2, pair.1) ∈ plainEscapes := by decide
      exact .letter (all (c, letter) (mem_of_lookup found))
  | none =>
      by_cases control : c.toNat < 0x20
      · have zero : HexDigit '0' 0 := ⟨by decide, .inl rfl⟩
        have sixteens : HexDigit (c.toNat / 16).digitChar (c.toNat / 16) := ⟨by omega, .inl rfl⟩
        have ones : HexDigit (c.toNat % 16).digitChar (c.toNat % 16) := ⟨by omega, .inl rfl⟩
        simp only [if_pos control]
        refine .number ⟨rfl, _, .cons zero (.cons zero (.cons sixteens (.cons ones .nil))), ?_⟩
        simp only [List.foldl_cons, List.foldl_nil]
        omega
      · simp only [if_neg control]
        refine .itself ⟨?_, ?_, by omega⟩
        · rintro rfl
          exact absurd found (by decide)
        · rintro rfl
          exact absurd found (by decide)

theorem spells_quote (content : String) : Spells [.text content] (quote content).toList := by
  have writes : List.Forall₂ Writes content.toList (content.toList.map escape) :=
    List.forall₂_map_right_iff.mpr (List.forall₂_same.mpr fun c _ => writes_escape c)
  rw [quote, String.toList_ofList, List.flatMap_def]
  exact (Spelled.text writes).spells

theorem Value.compactItems_eq (items : List Value) : compactItems items = items.map compact := by
  induction items with
  | nil => rfl
  | cons item rest ih => rw [compactItems, ih, List.map_cons]

theorem Value.compactFields_eq (fields : List (String × Value)) :
    compactFields fields = fields.map fun field => quote field.1 ++ ":" ++ field.2.compact := by
  induction fields with
  | nil => rfl
  | cons field rest ih => rw [compactFields, ih, List.map_cons]

end GrammarFuzz.Json
