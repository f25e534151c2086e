import GrammarFuzz.Coverage.Lookahead
import GrammarFuzz.Random.Chance

/-! Which candidate a pending node is expanded with. Each strategy names the candidates
it prefers, one of them is picked uniformly, and only the picked candidate's own key is
recorded. -/
namespace GrammarFuzz

inductive StrategyKind where
  | tracking
  /-- Prefers candidates whose own key is not covered. -/
  | immediate
  /-- Prefers the candidates that lead to the most uncovered keys nearby. -/
  | foresight
  deriving DecidableEq

namespace StrategyKind

def all : List StrategyKind := [tracking, immediate, foresight]

def name : StrategyKind → String
  | tracking => "tracking"
  | immediate => "immediate"
  | foresight => "foresight"

def ofName? (name : String) : Option StrategyKind := all.find? (·.name == name)

def unknownMessage (name : String) : String :=
  "unknown strategy '" ++ name ++ "' (expected tracking, immediate or foresight)"

end StrategyKind

/-- A kind, what it has covered, and what a foresight strategy remembers. -/
structure Strategy where
  kind : StrategyKind
  tracker : Tracker
  memory : ReachMemory

namespace Strategy

def withTracker (kind : StrategyKind) (tracker : Tracker) : Strategy := ⟨kind, tracker, ∅⟩

def new (kind : StrategyKind) (g : Grammar) : Strategy := withTracker kind (.new g)

abbrev grammar (s : Strategy) : Grammar := s.tracker.grammar

def reset (s : Strategy) : Strategy := { s with tracker := s.tracker.reset }

/-- The positions that satisfy a test; all of them if none does. -/
def orAll {count : Nat} (test : Fin count → Bool) : List (Fin count) :=
  let passing := (List.finRange count).filter test
  if passing.isEmpty then List.finRange count else passing

def leaders (offers : List KeySet) (count : Nat) : List (Fin count) :=
  let best := offers.foldl (fun most offer => max most offer.size) 0
  orAll (fun position => (offers[position.val]?.map (·.size)) == some best)

def preferred (s : Strategy) (symbol : Symbol) (candidates : List (List Tree)) :
    StateM ReachMemory (List (Fin candidates.length)) :=
  match s.kind with
  | .tracking => pure (List.finRange candidates.length)
  | .immediate => pure <|
      orAll (fun position => !s.tracker.isCovered (Key.ofChildren symbol candidates[position]))
  | .foresight => do
      match ← Lookahead.newCoverages s.tracker symbol candidates with
      | some offers => pure (leaders offers candidates.length)
      | none => pure (List.finRange candidates.length)

/-- Choose a candidate for a pending node and record its key. Without candidates there
is no choice, and nothing is drawn. -/
def choose {γ : Type} [Chance γ] (s : Strategy) (symbol : Symbol)
    (candidates : List (List Tree)) (source : γ) :
    Option (Fin candidates.length × Strategy × γ) :=
  let (positions, memory) := (s.preferred symbol candidates).run s.memory
  if some? : 0 < positions.length then
    let (place, source) := Chance.pick positions.length some? source
    let position := positions[place]
    let tracker := s.tracker.cover (Key.ofChildren symbol candidates[position])
    some (position, { s with tracker, memory }, source)
  else none

end Strategy
end GrammarFuzz
