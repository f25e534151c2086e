import Mathlib.Data.List.Induction
import GrammarFuzz.Proofs.Spelling
import GrammarFuzz.Proofs.Validity

/-! Grammars as documents. The texts that are read as entries are the JSON texts that spell a
record of lists of texts, with whatever escapes and blanks; what is made of them is what is
built of the entries in their order; and a valid grammar is read back from the document that is
written of it. -/
namespace GrammarFuzz

namespace Document

open Json (Token Fault)

/-- Groups of tokens with commas between them, in brackets. -/
def enclosed (opening closing : Token) (groups : List (List Token)) : List Token :=
  opening :: ([Token.comma].intercalate groups ++ [closing])

def listTokens (items : List String) : List Token :=
  enclosed .openList .closeList (items.map fun item => [.text item])

def entryTokens (entry : String × List String) : List Token :=
  .text entry.1 :: .colon :: listTokens entry.2

def recordTokens (entries : List (String × List String)) : List Token :=
  enclosed .openRecord .closeRecord (entries.map entryTokens)

/-- The text is a JSON record of lists of texts, with these entries in this order. -/
def Spells (entries : List (String × List String)) (text : String) : Prop :=
  Json.Spells (recordTokens entries) text.toList

variable {key : String} {entries : List (String × List String)}

/-! Reading. -/

theorem entriesFrom_items (items : List String) (rest : List Token) : ∀ read,
    entriesFrom entries (.afterItem key read)
      (items.flatMap (fun item => [.comma, .text item]) ++ .closeList :: rest) =
      entriesFrom ((key, read.reverse ++ items) :: entries) .afterEntry rest := by
  induction items with
  | nil =>
      intro read
      rw [List.flatMap_nil, List.nil_append, entriesFrom, List.append_nil]
  | cons item items ih =>
      intro read
      simp only [List.flatMap_cons, List.cons_append, List.nil_append, entriesFrom]
      rw [ih, List.reverse_cons, List.append_assoc, List.singleton_append]

theorem listTokens_append (items : List String) (rest : List Token) : listTokens items ++ rest =
    match items with
    | [] => .openList :: .closeList :: rest
    | first :: others =>
        .openList :: .text first :: (others.flatMap (fun item => [.comma, .text item]) ++
            .closeList :: rest) := by
  cases items with
  | nil => rfl
  | cons first others =>
      simp only [listTokens, enclosed, List.map_cons, Json.intercalate_cons, List.flatMap_map,
        List.cons_append, List.append_assoc, List.nil_append]

theorem entriesFrom_list (items : List String) (rest : List Token) :
    entriesFrom entries (.list key) (listTokens items ++ rest) =
      entriesFrom ((key, items) :: entries) .afterEntry rest := by
  rw [listTokens_append]
  cases items with
  | nil => rfl
  | cons first others =>
      simp only [entriesFrom]
      exact entriesFrom_items others rest [first]

theorem entriesFrom_entry (entry : String × List String) (rest : List Token) {due : Due}
    (keyed : due = .firstKey ∨ due = .key) :
    entriesFrom entries due (entryTokens entry ++ rest) =
      entriesFrom (entry :: entries) .afterEntry rest := by
  obtain ⟨key, items⟩ := entry
  rcases keyed with rfl | rfl <;> exact entriesFrom_list items rest

theorem entriesFrom_entries (more : List (String × List String)) (rest : List Token) : ∀ entries,
    entriesFrom entries .afterEntry (more.flatMap (fun entry => .comma :: entryTokens entry) ++
      .closeRecord :: rest) =
      .ok (entries.reverse ++ more, rest) := by
  induction more with
  | nil =>
      intro entries
      rw [List.flatMap_nil, List.nil_append, entriesFrom, List.append_nil]
  | cons entry more ih =>
      intro entries
      rw [List.flatMap_cons, List.cons_append, List.cons_append, List.append_assoc, entriesFrom,
        entriesFrom_entry entry _ (.inr rfl), ih, List.reverse_cons, List.append_assoc,
        List.singleton_append]

theorem recordTokens_append (entries : List (String × List String)) (rest : List Token) :
    recordTokens entries ++ rest =
      match entries with
      | [] => .openRecord :: .closeRecord :: rest
      | first :: others => .openRecord :: (entryTokens first ++
          (others.flatMap (fun entry => .comma :: entryTokens entry) ++ .closeRecord :: rest)) := by
  cases entries with
  | nil => rfl
  | cons first others =>
      simp only [recordTokens, enclosed, List.map_cons, Json.intercalate_cons, List.flatMap_map,
        List.cons_append, List.append_assoc, List.nil_append]

theorem entriesFrom_record (entries : List (String × List String)) (rest : List Token) :
    entriesFrom [] .record (recordTokens entries ++ rest) = .ok (entries, rest) := by
  rw [recordTokens_append]
  cases entries with
  | nil => rfl
  | cons first others =>
      exact (entriesFrom_entry first _ (.inl rfl)).trans (entriesFrom_entries others rest [first])

/-! What is read. -/

section Read

variable {result : List (String × List String) × List Token}

theorem items_of_read : ∀ {tokens : List Token} {read : List String},
    entriesFrom entries (.afterItem key read) tokens = .ok result →
    ∃ (items : List String) (rest : List Token),
      tokens = items.flatMap (fun item => [.comma, .text item]) ++ .closeList :: rest
  | .closeList :: rest, _, _ => ⟨[], rest, rfl⟩
  | .comma :: .text item :: tokens, read, ok => by
      have later : entriesFrom entries (.afterItem key (item :: read)) tokens = .ok result := ok
      obtain ⟨items, rest, rfl⟩ := items_of_read later
      exact ⟨item :: items, rest, rfl⟩

theorem list_of_read : ∀ {tokens : List Token},
    entriesFrom entries (.list key) tokens = .ok result →
    ∃ items rest, tokens = listTokens items ++ rest
  | .openList :: .closeList :: rest, _ => ⟨[], rest, rfl⟩
  | .openList :: .text first :: tokens, ok => by
      have later : entriesFrom entries (.afterItem key [first]) tokens = .ok result := ok
      obtain ⟨others, rest, rfl⟩ := items_of_read later
      exact ⟨first :: others, rest, (listTokens_append (first :: others) rest).symm⟩

theorem entry_of_read {due : Due} (keyed : due = .firstKey ∨ due = .key) {tokens : List Token}
    (ok : entriesFrom entries due tokens = .ok result) :
    (∃ rest, due = .firstKey ∧ tokens = .closeRecord :: rest) ∨
      ∃ entry rest, tokens = entryTokens entry ++ rest := by
  rcases keyed with rfl | rfl
  · match tokens, ok with
    | .closeRecord :: rest, _ => exact .inl ⟨rest, rfl, rfl⟩
    | .text key :: .colon :: tokens, ok =>
        obtain ⟨items, rest, rfl⟩ := list_of_read ok
        exact .inr ⟨(key, items), rest, rfl⟩
  · match tokens, ok with
    | .text key :: .colon :: tokens, ok =>
        obtain ⟨items, rest, rfl⟩ := list_of_read ok
        exact .inr ⟨(key, items), rest, rfl⟩

theorem entries_of_read {tokens : List Token}
    (ok : entriesFrom entries .afterEntry tokens = .ok result) :
    ∃ (more : List (String × List String)) (rest : List Token),
      tokens = more.flatMap (fun entry => .comma :: entryTokens entry) ++ .closeRecord :: rest := by
  induction size : tokens.length using Nat.strongRecOn generalizing tokens entries with
  | ind size ih =>
      subst size
      match tokens, ok with
      | .closeRecord :: rest, _ => exact ⟨[], rest, rfl⟩
      | .comma :: tokens, ok =>
          have later : entriesFrom entries .key tokens = .ok result := ok
          rcases entry_of_read (.inr rfl) later with ⟨_, other, _⟩ | ⟨entry, after, rfl⟩
          · cases other
          · rw [entriesFrom_entry entry after (.inr rfl)] at later
            have shorter : after.length < (.comma :: (entryTokens entry ++ after)).length := by
              rw [List.length_cons, List.length_append]
              omega
            obtain ⟨more, rest, rfl⟩ := ih _ shorter later rfl
            exact ⟨entry :: more, rest, by simp⟩

theorem record_of_read : ∀ {tokens : List Token}, entriesFrom [] .record tokens = .ok result →
    ∃ entries rest, tokens = recordTokens entries ++ rest
  | .openRecord :: tokens, ok => by
      have later : entriesFrom [] .firstKey tokens = .ok result := ok
      rcases entry_of_read (.inl rfl) later with ⟨rest, _, rfl⟩ | ⟨entry, after, rfl⟩
      · exact ⟨[], rest, rfl⟩
      · rw [entriesFrom_entry entry after (.inl rfl)] at later
        obtain ⟨more, rest, rfl⟩ := entries_of_read later
        exact ⟨entry :: more, rest, (recordTokens_append (entry :: more) rest).symm⟩

end Read

theorem entriesFrom_eq_ok {tokens rest : List Token} :
    entriesFrom [] .record tokens = .ok (entries, rest) ↔
      tokens = recordTokens entries ++ rest := by
  constructor
  · intro ok
    obtain ⟨found, after, rfl⟩ := record_of_read ok
    rw [entriesFrom_record] at ok
    cases ok
    rfl
  · rintro rfl
    exact entriesFrom_record entries rest

theorem clean_enclosed {opening closing : Token} {groups : List (List Token)}
    (opens : opening.isFault = false)
    (closes : closing.isFault = false) (clean : ∀ group ∈ groups, Json.Clean group) :
    Json.Clean (enclosed opening closing groups) := by
  refine List.forall_mem_cons.mpr ⟨opens,
    List.forall_mem_append.mpr ⟨?_, List.forall_mem_singleton.mpr closes⟩⟩
  cases groups with
  | nil => exact fun _ none => nomatch none
  | cons first rest =>
      rw [Json.intercalate_cons]
      refine List.forall_mem_append.mpr ⟨clean first List.mem_cons_self, fun token inside => ?_⟩
      obtain ⟨group, listed, inside⟩ := List.mem_flatMap.mp inside
      rcases List.mem_cons.mp inside with rfl | inside
      · rfl
      · exact clean group (List.mem_cons_of_mem first listed) token inside

theorem clean_recordTokens (entries : List (String × List String)) :
    Json.Clean (recordTokens entries) := by
  refine clean_enclosed rfl rfl fun group listed => ?_
  obtain ⟨entry, _, rfl⟩ := List.mem_map.mp listed
  refine List.forall_mem_cons.mpr ⟨rfl,
    List.forall_mem_cons.mpr ⟨rfl, clean_enclosed rfl rfl fun group listed => ?_⟩⟩
  obtain ⟨item, _, rfl⟩ := List.mem_map.mp listed
  exact List.forall_mem_singleton.mpr rfl

/-- The texts that are read as entries are those that spell them. -/
theorem spells_iff_read {text : String} :
    Spells entries text ↔ entriesFrom [] .record (Json.tokens text) = .ok (entries, []) := by
  rw [Spells, Json.spells_iff, entriesFrom_eq_ok, List.append_nil,
    and_iff_left (clean_recordTokens entries)]

/-! Writing. -/

theorem spells_enclosed {opening closing : Token} {before after : List Char}
    {groups : List (List Token)} {texts : List (List Char)} (opens : Json.Spells [opening] before)
    (closes : Json.Spells [closing] after) (spells : List.Forall₂ Json.Spells groups texts) :
    Json.Spells (enclosed opening closing groups) (before ++ [','].intercalate texts ++ after) := by
  have comma : Json.Spells [.comma] [','] := (Json.Spelled.punctuation (by decide)).spells
  have inside := (opens.append (comma.intercalate spells)).append closes
  rwa [List.append_assoc] at inside

/-- Values one by one spell what belongs to them. -/
theorem forall₂_spells {α : Type} {items : List α} {group : α → List Token}
    {written : α → List Char} (spells : ∀ item, Json.Spells (group item) (written item)) :
    List.Forall₂ Json.Spells (items.map group) (items.map written) := by
  rw [List.forall₂_map_left_iff, List.forall₂_map_right_iff]
  exact List.forall₂_same.mpr fun item _ => spells item

theorem spells_list (items : List String) :
    Json.Spells (listTokens items) (Json.Value.compact (.list (items.map .text))).toList := by
  have written : (Json.Value.compact (.list (items.map .text))).toList =
      ['['] ++ [','].intercalate (items.map fun item => (Json.quote item).toList) ++ [']'] := by
    rw [Json.Value.compact, Json.Value.compactItems_eq, String.toList_append, String.toList_append,
      String.toList_intercalate, List.map_map, List.map_map]
    rfl
  rw [written]
  exact spells_enclosed (Json.Spelled.punctuation (by decide)).spells
    (Json.Spelled.punctuation (by decide)).spells
    (forall₂_spells Json.spells_quote)

/-- A record of lists of texts, as a value. -/
def toValue (entries : List (String × List String)) : Json.Value :=
  .record (entries.map fun entry => (entry.1, .list (entry.2.map .text)))

theorem spells_compact (entries : List (String × List String)) :
    Spells entries (toValue entries).compact := by
  have written : (toValue entries).compact.toList =
      ['\x7b'] ++
        [','].intercalate (entries.map fun entry =>
          (Json.quote entry.1).toList ++
            ([':'] ++ (Json.Value.compact (.list (entry.2.map .text))).toList)) ++
        ['\x7d'] := by
    rw [toValue, Json.Value.compact, Json.Value.compactFields_eq, String.toList_append,
      String.toList_append, String.toList_intercalate, List.map_map, List.map_map]
    simp [Function.comp_def]
  rw [Spells, written]
  refine spells_enclosed (Json.Spelled.punctuation (by decide)).spells
    (Json.Spelled.punctuation (by decide)).spells
    (forall₂_spells fun entry => ?_)
  have colon : Json.Spells [.colon] [':'] := (Json.Spelled.punctuation (by decide)).spells
  exact (Json.spells_quote entry.1).append (colon.append (spells_list entry.2))

end Document

/-! Entries and rules. -/

namespace Grammar

variable {g : Grammar} {symbol : Symbol}

/-- Of the entries for a symbol the last one counts. -/
theorem expansions?_ofList (entries : List (Symbol × List String)) :
    expansions? ⟨Rules.ofList entries⟩ symbol =
      (entries.reverse.find? (·.1 == symbol)).map (·.2.map Expansion.mk) := by
  induction entries using List.reverseRecOn with
  | nil => rfl
  | append_singleton front entry ih =>
      have added : Grammar.mk (Rules.ofList (front ++ [entry])) =
          (Grammar.mk (Rules.ofList front)).setRule entry.1 (entry.2.map Expansion.mk) := by
        rw [Rules.ofList, List.foldl_append]
        rfl
      rw [added, expansions?_setRule, ih, List.reverse_append, List.reverse_singleton,
        List.singleton_append]
      by_cases same : entry.1 = symbol
      · rw [if_pos same, List.find?_cons_of_pos (by simpa using same)]
        rfl
      · rw [if_neg same, List.find?_cons_of_neg (by simpa using same)]

/-- The rules of a grammar as the entries that are written of them. -/
def entries (g : Grammar) : List (Symbol × List String) :=
  g.rules.toList.map fun rule => (rule.1, rule.2.map Expansion.text)

theorem toDocument_eq (g : Grammar) : g.toDocument = (Document.toValue g.entries).compact := by
  rw [toDocument, toValue, Document.toValue, entries, List.map_map]
  simp [Function.comp_def]

theorem mem_entries {entry : Symbol × List String} :
    entry ∈ g.entries ↔ entry.1 ∈ g.symbols ∧
    entry.2 = (g.expansions entry.1).map Expansion.text := by
  obtain ⟨symbol, texts⟩ := entry
  simp only [entries, List.mem_map, Prod.mk.injEq, Prod.exists, mem_rules_toList]
  constructor
  · rintro ⟨_, _, ⟨member, rfl⟩, rfl, rfl⟩
    exact ⟨member, rfl⟩
  · rintro ⟨member, rfl⟩
    exact ⟨symbol, _, ⟨member, rfl⟩, rfl, rfl⟩

/-- Adding the rules of a grammar again gives the grammar. -/
theorem ofList_entries (g : Grammar) : Grammar.mk (Rules.ofList g.entries) = g := by
  refine ext_expansions? fun symbol => ?_
  rw [expansions?_ofList]
  cases found : g.entries.reverse.find? (·.1 == symbol) with
  | none =>
      have absent : symbol ∉ g.symbols := by
        intro member
        have listed : (symbol, (g.expansions symbol).map Expansion.text) ∈ g.entries.reverse :=
          List.mem_reverse.mpr (mem_entries.mpr ⟨member, rfl⟩)
        exact absurd (beq_self_eq_true symbol) (List.find?_eq_none.mp found _ listed)
      rw [expansions?_of_not_mem absent]
      rfl
  | some entry =>
      obtain ⟨member, texts⟩ :=
        mem_entries.mp (List.mem_reverse.mp (List.mem_of_find?_eq_some found))
      have same : entry.1 = symbol := by simpa using List.find?_some found
      subst same
      rw [expansions?_of_mem member, Option.map_some, texts, List.map_map]
      exact congrArg some (List.map_id _)

/-- What a document is read as: what is built of its entries. -/
theorem ofDocument_of_spells {entries : List (Symbol × List String)} {text : String}
    (spells : Document.Spells entries text) :
    ofDocument text = (build (Rules.ofList entries)).mapError .invalid := by
  rw [ofDocument, Document.spells_iff_read.mp spells]
  cases built : build (Rules.ofList entries) with
  | error error =>
      simp only [built]
      rfl
  | ok g =>
      simp only [built]
      rfl

/-- Grammars agree with their documents. A valid grammar is read back from what is written of
it. Whatever JSON text spells entries is read as what is built of them in their order, with the
same defect if there is one, where the last entry for a symbol counts; and no other text is read
as a grammar. -/
theorem document_roundTrip :
    (∀ g : Grammar, g.Valid → ofDocument g.toDocument = .ok g) ∧
    (∀ entries text, Document.Spells entries text →
      ofDocument text = (build (Rules.ofList entries)).mapError .invalid ∧
      ∀ symbol, (Rules.ofList entries)[symbol]? =
        (entries.reverse.find? (·.1 == symbol)).map (·.2.map Expansion.mk)) ∧
    ∀ text g, ofDocument text = .ok g →
      ∃ entries, Document.Spells entries text ∧ build (Rules.ofList entries) = .ok g := by
  refine ⟨fun g valid => ?_, fun entries text spells => ?_, fun text g accepted => ?_⟩
  · have spells : Document.Spells g.entries g.toDocument := by
      rw [toDocument_eq]
      exact Document.spells_compact g.entries
    have built : build (Rules.ofList g.entries) = .ok g :=
      build_eq_ok.mpr ⟨(ofList_entries g).symm, valid⟩
    rw [ofDocument_of_spells spells, built]
    rfl
  · exact ⟨ofDocument_of_spells spells, fun symbol => expansions?_ofList entries⟩
  · obtain ⟨entries, read, built⟩ := ofDocument_eq_ok.mp accepted
    exact ⟨entries, Document.spells_iff_read.mpr read, built⟩

/-- A control character, a quote and a character beyond U+FFFF. -/
def unusual : Grammar := ⟨Rules.ofList [("<start>", ["<q>", ""]), ("<q>", ["\x01/\"😀"])]⟩

def unusualEntries : List (Symbol × List String) :=
  [("<start>", ["x"]), ("<q>", ["\x01/\"😀"]), ("<start>", ["<q>", ""])]

def unusualText : String :=
  " \x7b\"<start>\": [\"x\"],\n\"<q>\":[\"\\u0001\\/\\\"\\uD83D\\ude00\"]," ++
  "\"\\u003Cstart>\" : [ \"<q>\",\t\"\" ]\x7d\n"

theorem unusual_roundTrip : unusual.Valid ∧ ofDocument unusual.toDocument = .ok unusual ∧
    Document.Spells unusualEntries unusualText ∧ ofDocument unusualText = .ok unusual ∧
    (∃ entries, Document.Spells entries unusual.toDocument ∧
      build (Rules.ofList entries) = .ok unusual) ∧
    ofDocument "\x7b\"<start>\":[\"<q>\"]\x7d" =
      .error (.invalid (.invalid (.undefinedSymbol "<q>" "<start>"))) := by
  obtain ⟨writes, reads, only⟩ := document_roundTrip
  have valid : unusual.Valid := by decide +kernel
  have spelled : Document.Spells unusualEntries unusualText :=
    Document.spells_iff_read.mpr (by decide +kernel)
  have built : build (Rules.ofList unusualEntries) = .ok unusual :=
    build_eq_ok.mpr ⟨by decide +kernel, valid⟩
  have dangling : Document.Spells [("<start>", ["<q>"])] "\x7b\"<start>\":[\"<q>\"]\x7d" :=
    Document.spells_iff_read.mpr (by decide +kernel)
  have refused : build (Rules.ofList [("<start>", ["<q>"])]) =
      .error (.invalid (.undefinedSymbol "<q>" "<start>")) := by
    decide +kernel
  refine ⟨valid, writes unusual valid, spelled, ?_, only _ _ (writes unusual valid), ?_⟩
  · rw [(reads _ _ spelled).1, built]
    rfl
  · rw [(reads _ _ dangling).1, refused]
    rfl

end Grammar
end GrammarFuzz
