import Std.Data.ExtTreeMap
import Std.Data.ExtTreeSet
import GrammarFuzz.Language.Part

/-! Context-free grammars: each symbol has an ordered list of expansions. Rules are
kept in code point order of their symbols, which is the order of every listing. -/
namespace GrammarFuzz

/-- One alternative for a symbol, identified by its text. -/
structure Expansion where
  text : String
  deriving DecidableEq

namespace Expansion

def parts (expansion : Expansion) : List Part := GrammarFuzz.parts expansion.text

def references (expansion : Expansion) : List Symbol := GrammarFuzz.references expansion.text

end Expansion

/-- Finite sets of symbols, with extensional equality. -/
abbrev SymbolSet := Std.ExtTreeSet Symbol

abbrev Rules := Std.ExtTreeMap Symbol (List Expansion)

/-- A rule set. `Grammar.Valid` says when it can be derived from. -/
structure Grammar where
  rules : Rules
  deriving DecidableEq

inductive Defect where
  | undefinedSymbol (symbol referencedBy : Symbol)
  | noExpansions (symbol : Symbol)
  | notANonterminal (symbol : Symbol)
  deriving DecidableEq

inductive GrammarError where
  | invalid (defect : Defect)
  | unknownSymbol (symbol : Symbol)
  | unknownExpansion (symbol : Symbol) (text : String)
  deriving DecidableEq

def Defect.message : Defect → String
  | undefinedSymbol symbol referencedBy =>
      "'" ++ symbol ++ "' is referenced by '" ++ referencedBy ++ "' but has no rule"
  | noExpansions symbol => "'" ++ symbol ++ "' has no expansions"
  | notANonterminal symbol => "rule key '" ++ symbol ++ "' is not a nonterminal"

def GrammarError.message : GrammarError → String
  | invalid defect => "Invalid grammar: " ++ defect.message
  | unknownSymbol symbol => "Unknown symbol: " ++ symbol
  | unknownExpansion symbol text => "Unknown expansion '" ++ text ++ "' of symbol " ++ symbol

namespace Rules

/-- Add rules in order; a repeated symbol replaces its earlier rule. -/
def ofList (entries : List (Symbol × List String)) : Rules :=
  entries.foldl (fun rules entry => rules.insert entry.1 (entry.2.map Expansion.mk)) ∅

end Rules

namespace Grammar

def expansions? (g : Grammar) (symbol : Symbol) : Option (List Expansion) := g.rules[symbol]?

/-- The expansions of a symbol; none when it has no rule. -/
def expansions (g : Grammar) (symbol : Symbol) : List Expansion := g.rules.getD symbol []

def require (g : Grammar) (symbol : Symbol) : Except GrammarError (List Expansion) :=
  match g.expansions? symbol with
  | some expansions => .ok expansions
  | none => .error (.unknownSymbol symbol)

def contains (g : Grammar) (symbol : Symbol) : Bool := g.rules.contains symbol

def symbols (g : Grammar) : List Symbol := g.rules.keys

def size (g : Grammar) : Nat := g.rules.size

def expansionCount (g : Grammar) : Nat :=
  g.rules.foldl (fun count _ expansions => count + expansions.length) 0

/-- The symbols that a symbol's rule refers to, in order of occurrence. -/
def references (g : Grammar) (symbol : Symbol) : List Symbol :=
  (g.expansions symbol).flatMap Expansion.references

def setRule (g : Grammar) (symbol : Symbol) (expansions : List Expansion) : Grammar :=
  ⟨g.rules.insert symbol expansions⟩

/-- A symbol with a number before its closing bracket: `<digit>` numbered 2 is `<digit-2>`. -/
def numbered (base : Symbol) (number : Nat) : Symbol :=
  let chars := base.toList
  let stem := if chars.getLast? = some '>' then chars.dropLast else chars
  String.ofList stem ++ "-" ++ toString number ++ ">"

/-- A symbol without a rule: `base` itself if it is free, otherwise `base` with the
least positive number that is free. Of `size + 1` numbered names one is free, since
they differ from each other. -/
def newSymbol (g : Grammar) (base : Symbol) : Symbol :=
  if g.contains base then
    match (List.range' 1 (g.size + 1)).find? (fun number => !g.contains (numbered base number)) with
    | some number => numbered base number
    | none => base
  else base

end Grammar
end GrammarFuzz
