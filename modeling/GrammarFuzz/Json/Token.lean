import GrammarFuzz.Json.Scalar

/-! Tokens of JSON text. One pass reads the text character by character; it stops at the
first value that is no text, since no document of this program can go on after one. -/
namespace GrammarFuzz.Json

inductive Token where
  | openRecord
  | closeRecord
  | openList
  | closeList
  | colon
  | comma
  | text (content : String)
  /-- A text with a fault; the last token. -/
  | brokenText (fault : Fault)
  /-- Any other value, with the fault it is refused with; the last token. -/
  | other (fault : Fault)
  deriving DecidableEq

/-- Where the pass stands. Characters read of a text are kept in reverse. -/
inductive Mode where
  | between
  | inText (read : List Char)
  | escaped (read : List Char)
  /-- Within the four digits of `\u`: how many are still due and their value so far, and
  the first half of a surrogate pair if one was read before. -/
  | hex (read : List Char) (due : Nat) (value : Nat) (high : Option Nat)
  /-- After the first half of a pair, where a backslash is due. -/
  | pairSlash (read : List Char) (high : Nat)
  /-- After that backslash, where a `u` is due. -/
  | pairLetter (read : List Char) (high : Nat)

def punctuation : List (Char × Token) :=
  [('\x7b', .openRecord), ('\x7d', .closeRecord), ('[', .openList), (']', .closeList),
    (':', .colon), (',', .comma)]

def isBlank (c : Char) : Bool := c == ' ' || c == '\n' || c == '\t' || c == '\r'

def plainEscapes : List (Char × Char) :=
  [('"', '"'), ('\\', '\\'), ('/', '/'), ('b', '\x08'), ('f', '\x0c'), ('n', '\n'), ('r', '\r'),
    ('t', '\t')]

def hexDigit? (c : Char) : Option Nat :=
  if '0' ≤ c ∧ c ≤ '9' then some (c.toNat - '0'.toNat)
  else if 'a' ≤ c ∧ c ≤ 'f' then some (c.toNat - 'a'.toNat + 10)
  else if 'A' ≤ c ∧ c ≤ 'F' then some (c.toNat - 'A'.toNat + 10)
  else none

/-- At least four bytes of UTF-8 are left. With fewer, an escape is cut off by the end of
the text, whatever those bytes are. -/
def hasFourBytes (rest : List Char) : Bool :=
  4 ≤ (rest.take 4).foldl (fun size c => size + c.utf8Size) 0

/-- What follows the last digit of `\u`: the character, or the wait for the second half
of a pair. A second half without a first, or a first without a second, is a fault. -/
def afterHex (read : List Char) (value : Nat) : Option Nat → Option Mode
  | none =>
      if 0xDC00 ≤ value ∧ value ≤ 0xDFFF then none
      else if 0xD800 ≤ value ∧ value ≤ 0xDBFF then some (.pairSlash read value)
      else some (.inText (Char.ofNat value :: read))
  | some high =>
      if 0xDC00 ≤ value ∧ value ≤ 0xDFFF then
        some (.inText
          (Char.ofNat (0x10000 + (high - 0xD800) * 0x400 + (value - 0xDC00)) :: read))
      else none

/-- Read tokens from a mode on. -/
def tokensFrom : Mode → List Char → List Token
  | .between, [] => []
  | .between, c :: rest =>
      if isBlank c then tokensFrom .between rest
      else if c = '"' then tokensFrom (.inText []) rest
      else
        match punctuation.lookup c with
        | some token => token :: tokensFrom .between rest
        | none => [.other (scalarFault (c :: rest))]
  | _, [] => [.brokenText .ended]
  | .inText read, c :: rest =>
      if c = '"' then .text (String.ofList read.reverse) :: tokensFrom .between rest
      else if c = '\\' then tokensFrom (.escaped read) rest
      else if c.toNat < 0x20 then [.brokenText .malformed]
      else tokensFrom (.inText (c :: read)) rest
  | .escaped read, c :: rest =>
      match plainEscapes.lookup c with
      | some character => tokensFrom (.inText (character :: read)) rest
      | none =>
          if c != 'u' then [.brokenText .malformed]
          else if hasFourBytes rest then tokensFrom (.hex read 4 0 none) rest
          else [.brokenText .ended]
  | .hex read due value high, c :: rest =>
      match hexDigit? c with
      | none => [.brokenText .malformed]
      | some digit =>
          let value := value * 16 + digit
          if 1 < due then tokensFrom (.hex read (due - 1) value high) rest
          else
            match afterHex read value high with
            | some mode => tokensFrom mode rest
            | none => [.brokenText .malformed]
  | .pairSlash read high, c :: rest =>
      if c = '\\' then tokensFrom (.pairLetter read high) rest else [.brokenText .malformed]
  | .pairLetter read high, c :: rest =>
      if c != 'u' then [.brokenText .malformed]
      else if hasFourBytes rest then tokensFrom (.hex read 4 0 (some high)) rest
      else [.brokenText .ended]

def tokens (text : String) : List Token := tokensFrom .between text.toList

end GrammarFuzz.Json
