import GrammarFuzz.Generation.Expand

/-! Campaigns: derive inputs until coverage is complete. -/
namespace GrammarFuzz

structure Campaign where
  inputs : Array String := #[]
  /-- The inputs' lengths in bytes of UTF-8, summed. -/
  totalLength : Nat := 0
  complete : Bool := false
  deriving DecidableEq

namespace Campaign

def generations (campaign : Campaign) : Nat := campaign.inputs.size

def add (campaign : Campaign) (input : String) : Campaign :=
  { campaign with
    inputs := campaign.inputs.push input
    totalLength := campaign.totalLength + input.utf8ByteSize }

end Campaign

namespace Fuzzer

variable {γ : Type} [Chance γ]

/-- Add inputs to a campaign while coverage is incomplete, `generations` more at most. -/
def extend (budget : Nat) : Nat → Fuzzer γ → Campaign → Outcome Campaign × Fuzzer γ
  | generations, f, campaign =>
      if f.tracker.isComplete then (.done { campaign with complete := true }, f)
      else
        match generations with
        | 0 => (.done { campaign with complete := false }, f)
        | generations + 1 =>
            match f.fuzz budget with
            | (.done input, f) => extend budget generations f (campaign.add input)
            | (.failed error, f) => (.failed error, f)
            | (.unfinished, f) => (.unfinished, f)

/-- Derive inputs until coverage is complete or `maxGenerations` inputs are derived.
Coverage already achieved is kept. -/
def untilCovered (f : Fuzzer γ) (budget maxGenerations : Nat) : Outcome Campaign × Fuzzer γ :=
  extend budget maxGenerations f {}

/-- The summed lengths of `trials` campaigns that each start without coverage. -/
def summedLength (budget : Nat) : Nat → Fuzzer γ → Nat → Outcome Nat × Fuzzer γ
  | 0, f, sum => (.done sum, f)
  | trials + 1, f, sum =>
      match f.resetCoverage.untilCovered budget f.config.maxGenerations with
      | (.done campaign, f) => summedLength budget trials f (sum + campaign.totalLength)
      | (.failed error, f) => (.failed error, f)
      | (.unfinished, f) => (.unfinished, f)

/-- The mean total length of `trials` campaigns; zero for no trials. -/
def averageLength (f : Fuzzer γ) (budget trials : Nat) : Outcome Float × Fuzzer γ :=
  if trials = 0 then (.done 0.0, f)
  else
    match summedLength budget trials f 0 with
    | (.done sum, f) => (.done (Float.ofNat sum / Float.ofNat trials), f)
    | (.failed error, f) => (.failed error, f)
    | (.unfinished, f) => (.unfinished, f)

end Fuzzer
end GrammarFuzz
