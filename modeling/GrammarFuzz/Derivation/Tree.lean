import GrammarFuzz.Language.Grammar

/-! Derivation trees. A pending node has not been expanded yet; a node without
children is a leaf. -/
namespace GrammarFuzz

inductive Tree where
  | pending (symbol : Symbol)
  | node (symbol : Symbol) (children : List Tree)

namespace Tree

mutual

def decideEq : (left right : Tree) → Decidable (left = right)
  | pending left, pending right => decidable_of_iff (left = right) (by simp)
  | pending _, node _ _ => isFalse (by simp)
  | node _ _, pending _ => isFalse (by simp)
  | node left lefts, node right rights =>
      have := decideForestEq lefts rights
      decidable_of_iff (left = right ∧ lefts = rights) (by simp)

def decideForestEq : (left right : List Tree) → Decidable (left = right)
  | [], [] => isTrue rfl
  | [], _ :: _ => isFalse (by simp)
  | _ :: _, [] => isFalse (by simp)
  | left :: lefts, right :: rights =>
      have := decideEq left right
      have := decideForestEq lefts rights
      decidable_of_iff (left = right ∧ lefts = rights) (by simp)

end

instance : DecidableEq Tree := decideEq

abbrev leaf (text : String) : Tree := node text []

def symbol : Tree → Symbol
  | pending symbol => symbol
  | node symbol _ => symbol

def children : Tree → List Tree
  | pending _ => []
  | node _ children => children

def isPending : Tree → Bool
  | pending _ => true
  | node _ _ => false

mutual

/-- The text of the leaves from left to right; a pending node stands for its symbol. -/
def text : Tree → String
  | pending symbol => symbol
  | node symbol [] => symbol
  | node _ (child :: rest) => text child ++ forestText rest

def forestText : List Tree → String
  | [] => ""
  | child :: rest => text child ++ forestText rest

end

/-- The expansion a node was given, rebuilt from its children's symbols. Pending nodes
and leaves were given none. -/
def expansionText? (tree : Tree) : Option String :=
  if tree.children.isEmpty then none else some (String.join (tree.children.map symbol))

mutual

def pendingCount : Tree → Nat
  | pending _ => 1
  | node _ children => forestPendingCount children

def forestPendingCount : List Tree → Nat
  | [] => 0
  | child :: rest => pendingCount child + forestPendingCount rest

end

mutual

def hasPending : Tree → Bool
  | pending _ => true
  | node _ children => forestHasPending children

def forestHasPending : List Tree → Bool
  | [] => false
  | child :: rest => hasPending child || forestHasPending rest

end

end Tree

def Part.toTree : Part → Tree
  | .terminal text => .leaf text
  | .nonterminal symbol => .pending symbol

/-- The children of a node expanded this way: references become pending nodes and
terminal text becomes leaves. The empty expansion is one empty leaf, so that an
expanded node always has a child. -/
def Expansion.toChildren (expansion : Expansion) : List Tree :=
  if expansion.text.isEmpty then [.leaf ""] else expansion.parts.map Part.toTree

end GrammarFuzz
