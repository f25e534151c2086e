import GrammarFuzz.Derivation.Key

/-! Coverage of one grammar. A tracker holds the keys of its grammar and those covered
so far; covered keys are always keys of the grammar, so comparing numbers of keys is
enough to see that coverage is complete. -/
namespace GrammarFuzz

inductive CoverageState where
  | none
  | partly
  | full
  deriving DecidableEq

structure Tracker where
  grammar : Grammar
  maximum : KeySet
  covered : KeySet
  maximum_eq : maximum = grammar.maximumCoverage
  covered_subset : ∀ key ∈ covered, key ∈ maximum

mutual

/-- The keys used in a tree, parents first. A node whose symbol is not a nonterminal is
skipped with all that is below it; a pending node and a leaf use no key. -/
def Tree.usedKeys : Tree → List Key
  | .pending _ => []
  | .node symbol children =>
      if isNonterminal symbol then
        (if children.isEmpty then []
          else [Key.ofText symbol (String.join (children.map Tree.symbol))]) ++
        Tree.forestUsedKeys children
      else []

def Tree.forestUsedKeys : List Tree → List Key
  | [] => []
  | child :: rest => Tree.usedKeys child ++ Tree.forestUsedKeys rest

end

namespace Tracker

def new (g : Grammar) : Tracker :=
  ⟨g, g.maximumCoverage, ∅, rfl, fun _ absent => absurd absent Std.ExtTreeSet.not_mem_empty⟩

def reset (t : Tracker) : Tracker :=
  { t with
    covered := ∅
    covered_subset := fun _ absent => absurd absent Std.ExtTreeSet.not_mem_empty }

def isCovered (t : Tracker) (key : Key) : Bool := t.covered.contains key

/-- The key belongs to the grammar and is not covered yet. -/
def isNew (t : Tracker) (key : Key) : Bool := !t.isCovered key && t.maximum.contains key

/-- Cover a key; keys of other grammars are ignored. -/
def cover (t : Tracker) (key : Key) : Tracker :=
  if known : key ∈ t.maximum then
    { t with
      covered := t.covered.insert key
      covered_subset := fun other inserted => by
        rcases Std.ExtTreeSet.mem_insert.mp inserted with same | before
        · exact Std.LawfulEqOrd.eq_of_compare same ▸ known
        · exact t.covered_subset other before }
  else t

def recordKey (t : Tracker) (key : Key) : Bool × Tracker := (t.isNew key, t.cover key)

def recordText (t : Tracker) (symbol : Symbol) (text : String) : Bool × Tracker :=
  t.recordKey (Key.ofText symbol text)

def recordChildren (t : Tracker) (symbol : Symbol) (children : List Tree) : Bool × Tracker :=
  t.recordKey (Key.ofChildren symbol children)

def recordKeys (t : Tracker) (keys : List Key) : Nat × Tracker :=
  keys.foldl
    (fun (added, t) key =>
      let (isNew, t) := t.recordKey key
      (added + isNew.toNat, t))
    (0, t)

def recordTree (t : Tracker) (tree : Tree) : Nat × Tracker := t.recordKeys tree.usedKeys

def missing (t : Tracker) : List Key := t.maximum.toList.filter (fun key => !t.isCovered key)

def isComplete (t : Tracker) : Bool := t.covered.size == t.maximum.size

/-- The covered part of the grammar, from 0 to 1; all of an empty one. -/
def fraction (t : Tracker) : Float :=
  if t.maximum.isEmpty then 1.0 else Float.ofNat t.covered.size / Float.ofNat t.maximum.size

def state (t : Tracker) : CoverageState :=
  if t.covered.isEmpty && !t.maximum.isEmpty then .none
  else if t.isComplete then .full
  else .partly

end Tracker
end GrammarFuzz
