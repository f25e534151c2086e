import GrammarFuzz.Random.Chance

/-! A word source that repeats a given list of words. -/
namespace GrammarFuzz

/-- The words of one round, those left of the current round, and how many were drawn. -/
structure Script where
  words : List UInt64
  left : List UInt64
  drawn : Nat

namespace Script

def ofWords (words : List UInt64) : Script := ⟨words, words, 0⟩

/-- The next word, starting over at the end; zero if there are no words at all. -/
def next (script : Script) : UInt64 × Script :=
  match script.left, script.words with
  | word :: left, _ => (word, { script with left, drawn := script.drawn + 1 })
  | [], word :: left => (word, { script with left, drawn := script.drawn + 1 })
  | [], [] => (0, { script with drawn := script.drawn + 1 })

/-- Once a whole round was rejected no later word is accepted. -/
instance : WordSource Script where
  next := next
  patience script := script.words.length + 1

end Script
end GrammarFuzz
