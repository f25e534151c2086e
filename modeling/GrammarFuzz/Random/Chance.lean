/-! Uniform choices. Everything that chooses is written over `Chance`, so that what
holds of it holds for every sequence of choices; the word sources choose by scaling a
64-bit word and rejecting the words that would make some numbers likelier. -/
namespace GrammarFuzz

/-- A source of choices: asked for a number below `count`, it answers one. -/
class Chance (γ : Type) where
  pick : (count : Nat) → 0 < count → γ → Fin count × γ

/-- A source of 64-bit words. `patience` bounds how many words one choice may reject. -/
class WordSource (γ : Type) where
  next : γ → UInt64 × γ
  patience : γ → Nat

namespace WordSource

/-- The largest accepted low half: `count` shifted up to fill the word, less one. Below
it every number has equally many words. -/
def zone (count : Nat) : Nat := count <<< (63 - Nat.log2 count) - 1

/-- Scale words until the low half of the product is within the zone, and answer its
high half; zero when patience runs out. -/
def choose {γ : Type} [WordSource γ] (count : Nat) (positive : 0 < count) :
    Nat → γ → Fin count × γ
  | 0, source => (⟨0, positive⟩, source)
  | tries + 1, source =>
      let (word, source) := next source
      let product := word.toNat * count
      if product % UInt64.size ≤ zone count then
        (⟨product / UInt64.size, Nat.div_lt_of_lt_mul
          (Nat.mul_lt_mul_of_pos_right word.toNat_lt_size positive)⟩, source)
      else choose count positive tries source

instance {γ : Type} [WordSource γ] : Chance γ where
  pick count positive source := choose count positive (patience source) source

end WordSource
end GrammarFuzz
