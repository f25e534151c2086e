/-! Split expansion text at its nonterminal references. A reference is `<`, then
any characters but `<`, `>` and the space U+0020, then `>`; the leftmost reading
wins and references never overlap. All other text is terminal. -/
namespace GrammarFuzz

/-- A symbol is identified by its text. -/
abbrev Symbol := String

/-- A stretch of expansion text: literal text, or a reference to a symbol. -/
inductive Part where
  | terminal (text : String)
  | nonterminal (symbol : Symbol)
  deriving DecidableEq

namespace Part

def text : Part → String
  | terminal text => text
  | nonterminal symbol => symbol

def symbol? : Part → Option Symbol
  | terminal _ => none
  | nonterminal symbol => some symbol

end Part

/-- Characters allowed between the brackets of a reference. Tabs, line ends and
non-ASCII spaces are allowed; only U+0020 is not. -/
def isNameChar (c : Char) : Bool := c != '<' && c != '>' && c != ' '

/-- The whole text is one reference. -/
def isNonterminal (text : String) : Bool :=
  match text.toList with
  | '<' :: name => name.dropWhile isNameChar == ['>']
  | _ => false

namespace Part

/-- The terminal part for text collected in reverse; no part is empty. -/
def flush (collected : List Char) : List Part :=
  if collected.isEmpty then [] else [terminal (String.ofList collected.reverse)]

/-- One pass over the text. `collected` is terminal text not yet emitted, and
`candidate` the characters since the last `<` while they may still become a
reference; both are in reverse. A `<` or a space ends a candidate without a
reference, so its characters fall back into the terminal text. -/
def scan : List Char → List Char → Option (List Char) → List Part
  | [], collected, none => flush collected
  | [], collected, some name => flush (name ++ '<' :: collected)
  | c :: rest, collected, none =>
      if c = '<' then scan rest collected (some []) else scan rest (c :: collected) none
  | c :: rest, collected, some name =>
      if c = '<' then scan rest (name ++ '<' :: collected) (some [])
      else if c = '>' then
        flush collected ++
          nonterminal (String.ofList ('<' :: (name.reverse ++ ['>']))) :: scan rest [] none
      else if c = ' ' then scan rest (' ' :: (name ++ '<' :: collected)) none
      else scan rest collected (some (c :: name))

end Part

def parts (text : String) : List Part := Part.scan text.toList [] none

/-- The references of a text, in order of occurrence. -/
def references (text : String) : List Symbol := (parts text).filterMap Part.symbol?

end GrammarFuzz
