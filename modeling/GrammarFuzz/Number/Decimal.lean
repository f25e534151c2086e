/-! Exact decimal texts of binary64 numbers. A finite number is taken apart into
`mantissa * 2 ^ exponent`; everything after that is arithmetic on naturals. Signs are
left out: the numbers written here are counts, shares and means. -/
namespace GrammarFuzz.Number

/-- The magnitude `mantissa * 2 ^ exponent` of a finite binary64 number. -/
structure Binary where
  mantissa : Nat
  exponent : Int
  deriving DecidableEq

namespace Binary

def ofFloat (x : Float) : Binary :=
  let bits := x.toBits.toNat
  let stored := bits / (1 <<< 52) % (1 <<< 11)
  let fraction := bits % (1 <<< 52)
  if stored = 0 then ⟨fraction, -1074⟩ else ⟨(1 <<< 52) + fraction, Int.ofNat stored - 1075⟩

/-- The magnitude times `scale` as a quotient of naturals. -/
def quotient (b : Binary) (scale : Nat) : Nat × Nat :=
  ((b.mantissa * scale) <<< b.exponent.toNat, 1 <<< (-b.exponent).toNat)

end Binary

/-- A quotient rounded to the nearest natural, a half to the even one. -/
def roundDiv (numerator denominator : Nat) : Nat :=
  let whole := numerator / denominator
  let twice := 2 * (numerator % denominator)
  if twice < denominator then whole
  else if denominator < twice then whole + 1
  else whole + whole % 2

def tenths (x : Float) : String :=
  let (numerator, denominator) := (Binary.ofFloat x).quotient 10
  let rounded := roundDiv numerator denominator
  toString (rounded / 10) ++ "." ++ toString (rounded % 10)

/-- The magnitude `digits * 10 ^ exponent`. -/
structure Decimal where
  digits : Nat
  exponent : Int
  deriving DecidableEq

namespace Decimal

/-- The magnitude times `2 ^ shift` as a quotient of naturals. -/
def quotient (d : Decimal) (shift : Int) : Nat × Nat :=
  ((d.digits * Nat.pow 10 d.exponent.toNat) <<< shift.toNat,
    Nat.pow 10 (-d.exponent).toNat <<< (-shift).toNat)

/-- The decimal lies in the interval of reals that round to the number. In quarters of
the last binary place the number is `4 * mantissa`; the interval reaches two quarters
up and two down, but only one down where the places below are half as wide. Its ends
belong to it when the mantissa is even. -/
def readsBackAs (d : Decimal) (b : Binary) : Bool :=
  let (numerator, denominator) := d.quotient (2 - b.exponent)
  let down := if b.mantissa = 1 <<< 52 && b.exponent != -1074 then 1 else 2
  let low := (4 * b.mantissa - down) * denominator
  let high := (4 * b.mantissa + 2) * denominator
  if b.mantissa % 2 = 0 then low ≤ numerator && numerator ≤ high
  else low < numerator && numerator < high

/-- The greatest power of ten that is at most the quotient. -/
def order (numerator denominator : Nat) : Int :=
  if denominator ≤ numerator then ((Nat.toDigits 10 (numerator / denominator)).length : Int) - 1
  else
    match (List.range 400).find?
        (fun places => denominator ≤ numerator * Nat.pow 10 (places + 1)) with
    | some places => -(places + 1 : Int)
    | none => 0

/-- The decimal of at most `count` digits nearest to the number, if it reads back: of the
two neighbours on the grid the nearer one, and of two equally near the even one. -/
def ofCount? (b : Binary) (count : Nat) : Option Decimal :=
  let (numerator, denominator) := b.quotient 1
  let exponent := order numerator denominator + 1 - count
  let up := numerator * Nat.pow 10 (-exponent).toNat
  let down := denominator * Nat.pow 10 exponent.toNat
  let below : Decimal := ⟨up / down, exponent⟩
  let above : Decimal :=
    if up / down + 1 = Nat.pow 10 count then ⟨1, exponent + count⟩ else ⟨up / down + 1, exponent⟩
  let nearest := if roundDiv up down = below.digits then [below, above] else [above, below]
  nearest.find? (·.readsBackAs b)

/-- The fewest digits that read back as the number; seventeen always do. -/
def shortest (x : Float) : Decimal :=
  let b := Binary.ofFloat x
  if b.mantissa = 0 then ⟨0, 0⟩
  else ((List.range' 1 17).findSome? (ofCount? b)).getD ⟨0, 0⟩

end Decimal
end GrammarFuzz.Number
