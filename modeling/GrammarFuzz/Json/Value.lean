import GrammarFuzz.Number.Decimal

/-! JSON values and their two written forms: compact, without any blank, and spread over
lines with two blanks per level. -/
namespace GrammarFuzz.Json

inductive Value where
  | text (content : String)
  | natural (number : Nat)
  | decimal (number : Float)
  | flag (isSet : Bool)
  | list (items : List Value)
  | record (fields : List (String × Value))

def shortEscapes : List (Char × Char) :=
  [('"', '"'), ('\\', '\\'), ('\x08', 'b'), ('\t', 't'), ('\n', 'n'), ('\x0c', 'f'), ('\r', 'r')]

/-- Only quotes, backslashes and characters below U+0020 are escaped, the last by four
hexadecimal digits where no short escape exists. -/
def escape (c : Char) : List Char :=
  match shortEscapes.lookup c with
  | some letter => ['\\', letter]
  | none =>
      if c.toNat < 0x20 then
        ['\\', 'u', '0', '0', Nat.digitChar (c.toNat / 16), Nat.digitChar (c.toNat % 16)]
      else [c]

def quote (text : String) : String :=
  String.ofList ('"' :: (text.toList.flatMap escape ++ ['"']))

/-- A decimal with its point: a whole number of up to sixteen digits ends in `.0`, the
point stands among the digits or after up to five zeros, and anything else has an
exponent. -/
def writeDecimal (d : Number.Decimal) : String :=
  let digits := Nat.toDigits 10 d.digits
  let point : Int := digits.length + d.exponent
  let zeros (count : Int) : List Char := List.replicate count.toNat '0'
  if 0 ≤ d.exponent ∧ point ≤ 16 then String.ofList (digits ++ zeros d.exponent) ++ ".0"
  else if 0 < point ∧ point ≤ 16 then
    String.ofList (digits.take point.toNat ++ '.' :: digits.drop point.toNat)
  else if -5 < point ∧ point ≤ 0 then String.ofList ('0' :: '.' :: (zeros (-point) ++ digits))
  else
    let tail := digits.drop 1
    String.ofList (digits.take 1 ++ (if tail.isEmpty then [] else '.' :: tail)) ++
      "e" ++ toString (point - 1)

namespace Value

mutual

def compact : Value → String
  | text content => quote content
  | natural number => toString number
  | decimal number => writeDecimal (.shortest number)
  | flag isSet => if isSet then "true" else "false"
  | list items => "[" ++ ",".intercalate (compactItems items) ++ "]"
  | record fields => "\x7b" ++ ",".intercalate (compactFields fields) ++ "\x7d"

def compactItems : List Value → List String
  | [] => []
  | item :: rest => compact item :: compactItems rest

def compactFields : List (String × Value) → List String
  | [] => []
  | (name, value) :: rest => (quote name ++ ":" ++ compact value) :: compactFields rest

end

/-- Lines between brackets, one level deeper than the brackets. -/
def block (opening closing : String) (margin : String) (lines : List String) : String :=
  if lines.isEmpty then opening ++ closing
  else opening ++ "\n" ++ ",\n".intercalate (lines.map (margin ++ "  " ++ ·)) ++
    "\n" ++ margin ++ closing

mutual

/-- The spread form, where `margin` stands before every line but the first. -/
def spreadFrom (margin : String) : Value → String
  | list items => block "[" "]" margin (spreadItems (margin ++ "  ") items)
  | record fields => block "\x7b" "\x7d" margin (spreadFields (margin ++ "  ") fields)
  | text content => quote content
  | natural number => toString number
  | decimal number => writeDecimal (.shortest number)
  | flag isSet => if isSet then "true" else "false"

def spreadItems (margin : String) : List Value → List String
  | [] => []
  | item :: rest => spreadFrom margin item :: spreadItems margin rest

def spreadFields (margin : String) : List (String × Value) → List String
  | [] => []
  | (name, value) :: rest =>
      (quote name ++ ": " ++ spreadFrom margin value) :: spreadFields margin rest

end

def spread (value : Value) : String := spreadFrom "" value

end Value
end GrammarFuzz.Json
