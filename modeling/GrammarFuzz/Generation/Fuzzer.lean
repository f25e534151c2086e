import GrammarFuzz.Coverage.Strategy
import GrammarFuzz.Derivation.Cost
import GrammarFuzz.Generation.Config
import GrammarFuzz.Random.ChaCha

/-! A fuzzer derives trees of a grammar and covers the expansions it uses. It is made
only for a start symbol from which every derivation can be finished. -/
namespace GrammarFuzz

/-- Settings, strategy (with the grammar and its coverage) and source of choices. -/
structure Fuzzer (γ : Type) where
  config : Config
  strategy : Strategy
  source : γ

/-- How an attempt to derive ends. `unfinished` means that the step budget ran out: some
settings ask for trees that no sequence of steps, or no likely one, arrives at. -/
inductive Outcome (α : Type) where
  | done (value : α)
  | failed (error : GrammarError)
  | unfinished
  deriving DecidableEq

inductive FuzzerError where
  | grammar (error : GrammarError)
  | unproductive (symbol : Symbol)
  deriving DecidableEq

def FuzzerError.message : FuzzerError → String
  | grammar error => error.message
  | unproductive symbol => "Symbol " ++ symbol ++ " cannot derive any finite string"

namespace Fuzzer

variable {γ : Type}

/-- A fuzzer over any source of choices. The start symbol must have a rule, and no symbol
reachable from it may be without a finite derivation. -/
def ofSource (source : γ) (strategy : Strategy) (config : Config) : Except FuzzerError (Fuzzer γ) :=
  match strategy.grammar.require config.start with
  | .error error => .error (.grammar error)
  | .ok _ =>
      match strategy.grammar.unproductive? config.start with
      | some symbol => .error (.unproductive symbol)
      | none => .ok ⟨config, strategy, source⟩

/-- A fuzzer with a fresh strategy and the cipher seeded by its settings. -/
def new (g : Grammar) (kind : StrategyKind) (config : Config) :
    Except FuzzerError (Fuzzer ChaCha) :=
  ofSource (ChaCha.ofSeed config.seed) (.new kind g) config

abbrev grammar (f : Fuzzer γ) : Grammar := f.strategy.grammar

abbrev tracker (f : Fuzzer γ) : Tracker := f.strategy.tracker

def resetCoverage (f : Fuzzer γ) : Fuzzer γ := { f with strategy := f.strategy.reset }

/-- The start symbol, pending. -/
def initialTree (f : Fuzzer γ) : Tree := .pending f.config.start

end Fuzzer
end GrammarFuzz
