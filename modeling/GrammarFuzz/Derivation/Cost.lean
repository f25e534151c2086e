import GrammarFuzz.Language.Grammar

/-! Derivation cost: the least number of expansion steps to a text without references,
where no symbol may come up again below itself. Costs are capped at `infinite`, which
also stands for expansions that cannot finish that way. -/
namespace GrammarFuzz

/-- A 64-bit count: `infinite` is the largest, and sums stop there. -/
abbrev Cost := Nat

def Cost.infinite : Cost := UInt64.size - 1

namespace Grammar

/-- One step plus the cost of every reference, given the cost of each; infinite if a
reference is among the symbols already `seen` above. -/
def stepCost (costOf : Symbol → Cost) (seen : SymbolSet) (expansion : Expansion) : Cost :=
  if expansion.references.any seen.contains then Cost.infinite
  else expansion.references.foldl
    (fun total symbol => min Cost.infinite (total + costOf symbol)) 1

/-- The cheapest expansion of a symbol, looking at most `depth` symbols down. A symbol
without a rule costs nothing. -/
def costWithin (g : Grammar) : Nat → SymbolSet → Symbol → Cost
  | 0, _, _ => Cost.infinite
  | depth + 1, seen, symbol =>
      match g.expansions? symbol with
      | none => 0
      | some expansions =>
          let below := seen.insert symbol
          expansions.foldl
            (fun least expansion => min least (stepCost (g.costWithin depth below) below expansion))
            Cost.infinite

/-- The cost of a symbol below the symbols `seen`. Each level adds one symbol with a
rule to those seen, and the last may be one without, so the depth suffices. -/
def symbolCost (g : Grammar) (symbol : Symbol) (seen : SymbolSet) : Cost :=
  g.costWithin (g.size + 1) seen symbol

def expansionCost (g : Grammar) (expansion : Expansion) (seen : SymbolSet) : Cost :=
  stepCost (fun symbol => g.symbolCost symbol seen) seen expansion

/-- The first `count` symbols found breadth first, given those queued so far (`queued`,
all of them) and those not yet followed (`waiting`). -/
def breadthFirstFrom (g : Grammar) : Nat → List Symbol → List Symbol → List Symbol
  | 0, queued, _ => queued
  | _ + 1, queued, [] => queued
  | count + 1, queued, symbol :: waiting =>
      let found := (g.references symbol).foldl
        (fun found child =>
          if queued.contains child || found.contains child then found else found ++ [child]) []
      g.breadthFirstFrom count (queued ++ found) (waiting ++ found)

def breadthFirst (g : Grammar) (start : Symbol) : List Symbol :=
  g.breadthFirstFrom (g.size + 1) [start] [start]

/-- The nearest symbol reachable from `start` that cannot finish deriving. -/
def unproductive? (g : Grammar) (start : Symbol) : Option Symbol :=
  (g.breadthFirst start).find? (fun symbol => g.symbolCost symbol ∅ == Cost.infinite)

end Grammar
end GrammarFuzz
