import GrammarFuzz.Language.Valid
import GrammarFuzz.Derivation.Key

/-! Which symbols and keys lie below a symbol. The walk follows references depth
first, in order of occurrence, and enters each symbol at most once; since a symbol
entered late may use up the depth left for those below it, the order is part of what
a bounded walk finds. -/
namespace GrammarFuzz.Grammar

/-- The symbols entered from `symbol` within `depth` levels, added to those entered
before. At depth zero nothing is entered. -/
def visit (g : Grammar) : Nat → SymbolSet → Symbol → SymbolSet
  | 0, entered, _ => entered
  | depth + 1, entered, symbol =>
      (g.references symbol).foldl
        (fun entered child =>
          if entered.contains child then entered else visit g depth entered child)
        (entered.insert symbol)

/-- The symbols entered from `symbol` alone. A walk never nests deeper than the number
of symbols, so that number stands for no limit. -/
def reached (g : Grammar) (depth : Option Nat) (symbol : Symbol) : SymbolSet :=
  g.visit (depth.getD g.size) ∅ symbol

/-- The keys of all expansions within `depth` levels below `symbol`, its own included. -/
def keysWithin (g : Grammar) (depth : Option Nat) (symbol : Symbol) : KeySet :=
  Std.ExtTreeSet.ofList ((g.reached depth symbol).toList.flatMap g.keysOf)

/-- The same as `keysWithin`, for a symbol that must have a rule. -/
def maximumCoverageFrom (g : Grammar) (symbol : Symbol) (depth : Option Nat) :
    Except GrammarError KeySet :=
  match g.require symbol with
  | .ok _ => .ok (g.keysWithin depth symbol)
  | .error error => .error error

/-- The symbols with a rule that no derivation from `start` can use. -/
def unreachable (g : Grammar) (start : Symbol) : Except GrammarError (List Symbol) :=
  match g.require start with
  | .ok _ =>
      let kept := g.reached none start
      .ok (g.symbols.filter (fun symbol => !kept.contains symbol))
  | .error error => .error error

/-- Drop the rules of unreachable symbols, and list those symbols. -/
def trim (g : Grammar) (start : Symbol) : Except GrammarError (List Symbol × Grammar) :=
  match g.unreachable start with
  | .ok dropped =>
      let kept := g.reached none start
      .ok (dropped, ⟨g.rules.filter (fun symbol _ => kept.contains symbol)⟩)
  | .error error => .error error

end GrammarFuzz.Grammar
