import GrammarFuzz.Coverage.Tracker
import GrammarFuzz.Reference.Visit

/-! What a candidate could newly cover: its own key and all that lies within some depth
below its children. What lies below a symbol depends on the grammar alone, so it is
remembered between choices. -/
namespace GrammarFuzz

/-- Keys below a symbol, remembered by symbol and depth. -/
abbrev ReachMemory := Std.ExtTreeMap Symbol (Std.ExtTreeMap Nat KeySet)

namespace Lookahead

def known? (memory : ReachMemory) (symbol : Symbol) (depth : Nat) : Option KeySet :=
  (memory.getD symbol ∅)[depth]?

def remember (memory : ReachMemory) (symbol : Symbol) (depth : Nat) (keys : KeySet) : ReachMemory :=
  memory.insert symbol ((memory.getD symbol ∅).insert depth keys)

/-- The keys within `depth` levels below a symbol; none below a symbol without a rule. -/
def below (g : Grammar) (depth : Nat) (symbol : Symbol) : StateM ReachMemory KeySet :=
  fun memory =>
    if g.contains symbol then
      match known? memory symbol depth with
      | some keys => (keys, memory)
      | none =>
          let keys := g.keysWithin (some depth) symbol
          (keys, remember memory symbol depth keys)
    else (∅, memory)

/-- The uncovered keys among the own key of `symbol` expanded to `children` and those
within `depth` levels below the children. -/
def newCoverage (t : Tracker) (symbol : Symbol) (depth : Nat) (children : List Tree) :
    StateM ReachMemory KeySet := do
  let reaches ← children.mapM (fun child => below t.grammar depth child.symbol)
  let all := reaches.foldl Std.ExtTreeSet.union {Key.ofChildren symbol children}
  pure (all.filter (fun key => !t.isCovered key))

/-- Look one level deeper until some candidate offers a new key, starting at `depth` and
for at most `levels` depths; then every candidate's new keys at that depth. -/
def search (t : Tracker) (symbol : Symbol) (candidates : List (List Tree)) :
    Nat → Nat → StateM ReachMemory (Option (List KeySet))
  | 0, _ => pure none
  | levels + 1, depth => do
      let offers ← candidates.mapM (newCoverage t symbol depth)
      if offers.any (!·.isEmpty) then pure (some offers)
      else search t symbol candidates levels (depth + 1)

/-- Every candidate's new keys at the least depth where some candidate has one. No
symbol is further away than the number of symbols. -/
def newCoverages (t : Tracker) (symbol : Symbol) (candidates : List (List Tree)) :
    StateM ReachMemory (Option (List KeySet)) :=
  search t symbol candidates t.grammar.size 1

end Lookahead
end GrammarFuzz
