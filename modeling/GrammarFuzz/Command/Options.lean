import GrammarFuzz.Command.Source
import GrammarFuzz.Number.Word

/-! The command line. Arguments are read from left to right, a later one overriding an
earlier one; an option takes the next argument as its value, whatever it looks like. -/
namespace GrammarFuzz

/-- A rule to duplicate, and the text of one expansion if only that is meant. -/
structure Duplication where
  symbol : Symbol
  only? : Option String
  deriving DecidableEq

structure Options where
  grammar : GrammarSource := .ofArgument "expr"
  kind : StrategyKind := .foresight
  config : Config := {}
  trials : Nat := 0
  duplications : List Duplication := []
  depth? : Option Nat := none
  output? : Option String := none
  json : Bool := false
  verbose : Bool := false
  deriving DecidableEq

inductive Request where
  | run (options : Options)
  | help
  | unknownStrategy (name : String)
  deriving DecidableEq

namespace Duplication

/-- An argument `SYM=EXP` is cut at its first equals sign. -/
def ofArgument (argument : String) : Duplication :=
  let chars := argument.toList
  match chars.dropWhile (· != '=') with
  | [] => ⟨argument, none⟩
  | _ :: expansion =>
      ⟨String.ofList (chars.takeWhile (· != '=')), some (String.ofList expansion)⟩

end Duplication

namespace Options

/-- What an option with a value does; none for a strategy of unknown name. -/
abbrev Setter := String → Options → Option Options

/-- A number, or the default when the value is malformed. -/
def count (default : Nat) (value : String) : Nat := (Number.readWord? value).getD default

def setters : List (String × Setter) := [
  ("--grammar", fun value o => some { o with grammar := .ofArgument value }),
  ("--strategy", fun value o => (StrategyKind.ofName? value).map ({ o with kind := · })),
  ("--seed", fun value o =>
    some { o with config := { o.config with seed := UInt64.ofNat (count 42 value) } }),
  ("--min-nonterminals", fun value o =>
    some { o with config := { o.config with minPending := count 0 value } }),
  ("--max-nonterminals", fun value o =>
    some { o with config := { o.config with maxPending := count 10 value } }),
  ("--generations", fun value o =>
    some { o with config := { o.config with maxGenerations := count 1000 value } }),
  ("--trials", fun value o => some { o with trials := count 0 value }),
  ("--duplicate", fun value o =>
    some { o with duplications := o.duplications ++ [.ofArgument value] }),
  ("--depth", fun value o => some { o with depth? := Number.readWord? value }),
  ("--output", fun value o => some { o with output? := some value })]

def flags : List (String × (Options → Options)) :=
  [("--json", ({ · with json := true })), ("--verbose", ({ · with verbose := true }))]

/-- Read arguments into options, and list those that are ignored. An option at the end
without a value has no effect; help and an unknown strategy end the reading. -/
def read (o : Options) : List String → Request × List String
  | [] => (.run o, [])
  | argument :: rest =>
      match setters.lookup argument with
      | some set =>
          match rest with
          | [] => (.run o, [])
          | value :: rest =>
              match set value o with
              | some o => read o rest
              | none => (.unknownStrategy value, [])
      | none =>
          match flags.lookup argument with
          | some set => read (set o) rest
          | none =>
              if argument = "--help" ∨ argument = "-h" then (.help, [])
              else
                let (request, ignored) := read o rest
                (request, argument :: ignored)

def ofArguments (arguments : List String) : Request × List String := read {} arguments

def help : List String := [
  "Grammar Coverage Fuzzer",
  "",
  "USAGE:",
  "    cargo run -p gramcov-fuzzer --bin gramcov-runner -- [OPTIONS]",
  "",
  "OPTIONS:",
  "    --grammar <NAME|FILE>    Built-in grammar (digit, expr, cgi, url) or JSON file (default: expr)",
  "    --strategy <NAME>        tracking, immediate or foresight (default: foresight)",
  "    --seed <N>               Random seed for reproducibility (default: 42)",
  "    --min-nonterminals <N>   Grow trees to N pending nodes first (default: 0)",
  "    --max-nonterminals <N>   Stop random expansion at N pending nodes (default: 10)",
  "    --generations <N>        Give up after N inputs (default: 1000)",
  "    --trials <N>             Also compare average input length over N trials per strategy",
  "    --duplicate <SYM[=EXP]>  Duplicate the context of SYM, or of one of its expansions",
  "    --depth <N>              Depth limit for --duplicate (default: unbounded)",
  "    --output <FILE>          Write the report to FILE instead of stdout",
  "    --json                   Output a JSON report instead of text",
  "    --verbose                Print debug logging",
  "    --help, -h               Print this help",
  "",
  "EXIT STATUS:",
  "    0 when every reachable expansion was covered, 1 otherwise"]

end Options
end GrammarFuzz
