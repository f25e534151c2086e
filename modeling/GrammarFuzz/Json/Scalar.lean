import GrammarFuzz.Number.Word

/-! Numbers and names in JSON text. No document of this program holds one, so only the
fault that reading one ends in is of interest: a wrong kind of value if it is well
formed, and what spoils it otherwise. -/
namespace GrammarFuzz.Json

/-- What is wrong with a text. -/
inductive Fault where
  /-- It ends inside a value. -/
  | ended
  /-- A well-formed value stands where one of another kind is due. -/
  | wrongKind
  /-- Anything else. -/
  | malformed
  deriving DecidableEq

/-- Read the rest of `null`, `true` or `false` letter by letter. -/
def nameFault : List Char → List Char → Fault
  | [], _ => .wrongKind
  | _ :: _, [] => .ended
  | letter :: letters, c :: rest => if c = letter then nameFault letters rest else .malformed

/-- A natural number rounded to 53 significant bits, a half to the even one. -/
def round53 (n : Nat) : Nat :=
  let shift := Nat.log2 n - 52
  let unit := 1 <<< shift
  let twice := 2 * (n % unit)
  let whole := n / unit
  let up := if unit < twice ∨ (unit = twice ∧ whole % 2 = 1) then 1 else 0
  (whole + up) * unit

/-- The number `significand * 10 ^ exponent` leaves the range of binary64. Both factors are
rounded before they are multiplied, and their product overflows from half a last place
above the largest number on. -/
def overflows (significand : Nat) (exponent : Int) : Bool :=
  if significand = 0 then false
  else if 308 < exponent then true
  else if exponent < 0 then false
  else
    (1 <<< 1024) - (1 <<< 970) ≤ round53 significand * round53 (Nat.pow 10 exponent.toNat)

def finish (significand : Nat) (exponent : Int) : Fault :=
  if overflows significand exponent then .malformed else .wrongKind

/-- Read the digits of an exponent after the first. An exponent beyond 31 bits overflows
at once unless it is negative or the significand is zero. -/
def exponentDigits (significand : Nat) (start : Int) (negative : Bool) :
    Nat → List Char → Fault
  | read, c :: rest =>
      match Number.digit? c with
      | some digit =>
          let read := read * 10 + digit
          if read < 1 <<< 31 then exponentDigits significand start negative read rest
          else if significand = 0 ∨ negative then .wrongKind else .malformed
      | none => finish significand (if negative then start - read else start + read)
  | read, [] => finish significand (if negative then start - read else start + read)

/-- Read what follows `e`: a sign or none, and at least one digit. -/
def exponentFault (significand : Nat) (start : Int) (text : List Char) : Fault :=
  let (negative, digits) := match text with
    | '+' :: rest => (false, rest)
    | '-' :: rest => (true, rest)
    | rest => (false, rest)
  match digits with
  | [] => .ended
  | c :: rest =>
      match Number.digit? c with
      | some digit => exponentDigits significand start negative digit rest
      | none => .malformed

/-- Read what may follow the digits. -/
def afterDigits (significand : Nat) (exponent : Int) : List Char → Fault
  | c :: rest =>
      if c = 'e' ∨ c = 'E' then exponentFault significand exponent rest
      else finish significand exponent
  | [] => finish significand exponent

/-- Read the digits after the point, `places` of which were read. The significand stops
growing at 64 bits; the digits after that are skipped. -/
def fractionDigits (exponent : Int) : Nat → Nat → List Char → Fault
  | significand, places, c :: rest =>
      match Number.digit? c with
      | some digit =>
          let grown := significand * 10 + digit
          if grown < UInt64.size then fractionDigits exponent grown (places + 1) rest
          else afterDigits significand (exponent - places)
            ((c :: rest).dropWhile fun c => (Number.digit? c).isSome)
      | none =>
          if places = 0 then .malformed
          else afterDigits significand (exponent - places) (c :: rest)
  | significand, places, [] =>
      if places = 0 then .ended else finish significand (exponent - places)

/-- Read the digits before the point. Once the significand would leave 64 bits, `extra`
counts the digits that are skipped. -/
def wholeDigits : Nat → Option Nat → List Char → Fault
  | significand, extra, c :: rest =>
      match Number.digit? c, extra with
      | some digit, none =>
          let grown := significand * 10 + digit
          if grown < UInt64.size then wholeDigits grown none rest
          else wholeDigits significand (some 1) rest
      | some _, some extra => wholeDigits significand (some (extra + 1)) rest
      | none, _ =>
          if c = '.' then fractionDigits (extra.getD 0) significand 0 rest
          else afterDigits significand (extra.getD 0) (c :: rest)
  | significand, extra, [] => finish significand (extra.getD 0)

/-- Read a number without its sign. A zero in front stands alone. -/
def magnitudeFault : List Char → Fault
  | [] => .ended
  | c :: rest =>
      match Number.digit? c with
      | none => .malformed
      | some 0 =>
          match rest with
          | next :: _ => if (Number.digit? next).isSome then .malformed else wholeDigits 0 none rest
          | [] => .wrongKind
      | some digit => wholeDigits digit none rest

/-- Read a number or a name; nothing else starts a value that is neither a text nor a
bracket. -/
def scalarFault : List Char → Fault
  | [] => .ended
  | 'n' :: rest => nameFault ['u', 'l', 'l'] rest
  | 't' :: rest => nameFault ['r', 'u', 'e'] rest
  | 'f' :: rest => nameFault ['a', 'l', 's', 'e'] rest
  | '-' :: rest => magnitudeFault rest
  | text => magnitudeFault text

end GrammarFuzz.Json
