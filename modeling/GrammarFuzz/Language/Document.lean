import GrammarFuzz.Json.Token
import GrammarFuzz.Json.Value
import GrammarFuzz.Language.Valid

/-! Grammars as JSON documents: one record, with a list of expansion texts for each
symbol. Reading goes from left to right, and the first problem counts. -/
namespace GrammarFuzz

inductive DocumentError where
  /-- It is not a record of lists of texts. -/
  | notRules (fault : Json.Fault)
  /-- It is one, but the rules have a defect. -/
  | invalid (error : GrammarError)
  deriving DecidableEq

namespace Document

open Json (Token Fault)

/-- What is due next in a document. Lists are kept in reverse. -/
inductive Due where
  | record
  | firstKey
  | key
  | colon (key : String)
  | list (key : String)
  | firstItem (key : String)
  | item (key : String) (items : List String)
  | afterItem (key : String) (items : List String)
  | afterEntry

/-- The fault of a token where a value of some other kind is due. Brackets are refused as
soon as they open; texts and others after they were read. -/
def misplaced : Token → Fault
  | .openRecord | .openList | .text _ => .wrongKind
  | .brokenText fault | .other fault => fault
  | .closeRecord | .closeList | .colon | .comma => .malformed

/-- Read entries up to the closing bracket, and answer them with the tokens after it. -/
def entriesFrom (entries : List (String × List String)) :
    Due → List Token → Except Fault (List (String × List String) × List Token)
  | _, [] => .error .ended
  | .record, .openRecord :: rest => entriesFrom entries .firstKey rest
  | .record, token :: _ => .error (misplaced token)
  | .firstKey, .closeRecord :: rest => .ok (entries.reverse, rest)
  | .firstKey, .text key :: rest => entriesFrom entries (.colon key) rest
  | .firstKey, .brokenText fault :: _ => .error fault
  | .key, .text key :: rest => entriesFrom entries (.colon key) rest
  | .key, .brokenText fault :: _ => .error fault
  | .colon key, .colon :: rest => entriesFrom entries (.list key) rest
  | .list key, .openList :: rest => entriesFrom entries (.firstItem key) rest
  | .list _, token :: _ => .error (misplaced token)
  | .firstItem key, .closeList :: rest => entriesFrom ((key, []) :: entries) .afterEntry rest
  | .firstItem key, .text item :: rest => entriesFrom entries (.afterItem key [item]) rest
  | .firstItem _, token :: _ => .error (misplaced token)
  | .item key items, .text item :: rest => entriesFrom entries (.afterItem key (item :: items)) rest
  | .item _ _, token :: _ => .error (misplaced token)
  | .afterItem key items, .comma :: rest => entriesFrom entries (.item key items) rest
  | .afterItem key items, .closeList :: rest =>
      entriesFrom ((key, items.reverse) :: entries) .afterEntry rest
  | .afterEntry, .comma :: rest => entriesFrom entries .key rest
  | .afterEntry, .closeRecord :: rest => .ok (entries.reverse, rest)
  | _, _ :: _ => .error .malformed

end Document

namespace Grammar

/-- Read a grammar. The rules are checked as soon as the record is closed; only blanks
may follow it. -/
def ofDocument (text : String) : Except DocumentError Grammar :=
  match Document.entriesFrom [] .record (Json.tokens text) with
  | .error fault => .error (.notRules fault)
  | .ok (entries, rest) =>
      match build (Rules.ofList entries) with
      | .error error => .error (.invalid error)
      | .ok g => if rest.isEmpty then .ok g else .error (.notRules .malformed)

def toValue (g : Grammar) : Json.Value :=
  .record (g.rules.toList.map fun rule => (rule.1, .list (rule.2.map fun e => .text e.text)))

def toDocument (g : Grammar) : String := g.toValue.compact

end Grammar
end GrammarFuzz
