import GrammarFuzz.Language.Part

/-! The settings of a generator. -/
namespace GrammarFuzz

/-- The symbol that derivations start from unless another is named. -/
def startSymbol : Symbol := "<start>"

structure Config where
  seed : UInt64 := 42
  start : Symbol := startSymbol
  /-- Grow a tree by costly expansions until this many nodes are pending. -/
  minPending : Nat := 0
  /-- Expand at random while fewer nodes than this are pending. -/
  maxPending : Nat := 10
  maxGenerations : Nat := 1000
  deriving DecidableEq

namespace Config

def minimal : Config := { maxPending := 3, maxGenerations := 100 }

end Config
end GrammarFuzz
