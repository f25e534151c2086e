import GrammarFuzz.Generation.Campaign
import GrammarFuzz.Json.Value

/-! What a campaign achieved, as text for readers and as JSON for programs. -/
namespace GrammarFuzz

namespace Campaign

def toValue (campaign : Campaign) : Json.Value :=
  .record [
    ("inputs", .list (campaign.inputs.toList.map .text)),
    ("total_length", .natural campaign.totalLength),
    ("complete", .flag campaign.complete)]

end Campaign

structure Report where
  /-- The name of the strategy. -/
  strategy : String
  seed : UInt64
  generations : Nat
  totalLength : Nat
  /-- The number of keys of the grammar. -/
  total : Nat
  covered : Nat
  fraction : Float
  /-- The keys never covered, in order. -/
  missing : List Key

namespace Report

def new (strategy : String) (seed : UInt64) (campaign : Campaign) (tracker : Tracker) : Report where
  strategy := strategy
  seed := seed
  generations := campaign.generations
  totalLength := campaign.totalLength
  total := tracker.maximum.size
  covered := tracker.covered.size
  fraction := tracker.fraction
  missing := tracker.missing

def isComplete (report : Report) : Bool := report.missing.isEmpty

def ruler : String := "═══════════════════════════════════════════════════════════════"

/-- A title between lines of a box, followed by an empty line. -/
def banner (title : String) : List String :=
  ["╔══════════════════════════════════════════════════════════════╗",
    "║" ++ title ++ "║",
    "╚══════════════════════════════════════════════════════════════╝",
    ""]

def lines (report : Report) : List String :=
  banner "                 Grammar Coverage Report                      " ++
  ["Strategy:    " ++ report.strategy,
    "Seed:        " ++ toString report.seed.toNat,
    "Generations: " ++ toString report.generations,
    "Input bytes: " ++ toString report.totalLength,
    "",
    "Covered: " ++ toString report.covered ++ "/" ++ toString report.total ++ " expansions (" ++
      Number.tenths (report.fraction * 100.0) ++ "%)"] ++
  (if report.missing.isEmpty then []
    else "" :: "Missing:" :: report.missing.map (fun key => "  " ++ key.text)) ++
  ["",
    ruler,
    if report.isComplete then "✓ Full coverage"
    else "✗ " ++ toString report.missing.length ++ " expansions never covered",
    ruler]

/-- The report for readers. -/
def text (report : Report) : String := "\n".intercalate report.lines

def toValue (report : Report) : Json.Value :=
  .record [
    ("strategy", .text report.strategy),
    ("seed", .natural report.seed.toNat),
    ("generations", .natural report.generations),
    ("total_length", .natural report.totalLength),
    ("total", .natural report.total),
    ("covered", .natural report.covered),
    ("fraction", .decimal report.fraction),
    ("missing", .list (report.missing.map fun key => .text key.text))]

/-- The report for programs. -/
def json (report : Report) : String := report.toValue.spread

end Report
end GrammarFuzz
