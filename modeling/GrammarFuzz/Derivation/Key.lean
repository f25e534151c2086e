import GrammarFuzz.Derivation.Tree

/-! Expansion keys: the unit of coverage. A key says that a symbol was expanded in
some way, wherever in a derivation that happened. -/
namespace GrammarFuzz

/-- A key is its text, so that keys read from elsewhere need not belong to a grammar. -/
structure Key where
  text : String
  deriving DecidableEq

namespace Key

instance : Ord Key := ⟨fun left right => compare left.text right.text⟩

instance : Std.TransOrd Key where
  eq_swap {left right} := Std.OrientedOrd.eq_swap (a := left.text) (b := right.text)
  isLE_trans {left middle right} := Std.TransOrd.isLE_trans (a := left.text) (b := middle.text)
    (c := right.text)

instance : Std.LawfulEqOrd Key where
  eq_of_compare {left right} same := by
    cases left
    cases right
    exact congrArg Key.mk (Std.LawfulEqOrd.eq_of_compare same)

def separator : String := " -> "

def ofText (symbol : Symbol) (text : String) : Key := ⟨symbol ++ separator ++ text⟩

/-- The key of a symbol expanded to a sequence of children, by the text they yield. -/
def ofChildren (symbol : Symbol) (children : List Tree) : Key :=
  ofText symbol (Tree.forestText children)

/-- Cut a text before and after the first `" -> "`. -/
def cut : List Char → List Char × Option (List Char)
  | [] => ([], none)
  | c :: rest =>
      if separator.toList.isPrefixOf (c :: rest) then
        ([], some (rest.drop (separator.length - 1)))
      else
        let (front, back) := cut rest
        (c :: front, back)

/-- What stands before the first separator; no nonterminal contains one. -/
def symbol (key : Key) : Symbol := String.ofList (cut key.text.toList).1

/-- What stands after the first separator; empty when there is none. -/
def expansion (key : Key) : String := String.ofList ((cut key.text.toList).2.getD [])

end Key

/-- Finite sets of keys, with extensional equality, listed in code point order. -/
abbrev KeySet := Std.ExtTreeSet Key

namespace Grammar

def keysOf (g : Grammar) (symbol : Symbol) : List Key :=
  (g.expansions symbol).map (fun expansion => Key.ofText symbol expansion.text)

/-- Every key of a grammar: the most that can be covered. -/
def maximumCoverage (g : Grammar) : KeySet :=
  Std.ExtTreeSet.ofList (g.symbols.flatMap g.keysOf)

end Grammar
end GrammarFuzz
