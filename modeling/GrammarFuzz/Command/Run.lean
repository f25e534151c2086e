import GrammarFuzz.Command.Options
import GrammarFuzz.Generation.Report
import GrammarFuzz.Reference.Duplicate

/-! A run of the command: what it prints, what it writes and how it exits, as values. A
run is drafted in full before anything is written, so that all but the writing itself
can be reasoned about; what follows the report is printed only if it could be written. -/
namespace GrammarFuzz

namespace Run

/-- Duplicate contexts in the order given, and drop the rules that the start symbol cannot
reach, such as those whose every use was duplicated. -/
def prepare (options : Options) (g : Grammar) : Except GrammarError Grammar := do
  let copied ← options.duplications.foldlM
    (fun g duplication => g.duplicateContext duplication.symbol duplication.only? options.depth?) g
  let (_, kept) ← copied.trim options.config.start
  pure kept

/-- A finished run: the lines before the report, the report, the lines after it, and
whether coverage is complete. The lines after it may break off with an error. -/
structure Draft where
  opening : List String
  report : String
  closing : List String
  failure? : Option CommandError
  complete : Bool

/-- How drafting ends: with a draft, with an error after some lines, or not within the
step budget. -/
inductive Drafting where
  | drafted (draft : Draft)
  | failed (printed : List String) (error : CommandError)
  | unfinished

def alignRight (width : Nat) (text : String) : String :=
  String.ofList (List.replicate (width - text.length) ' ') ++ text

def alignLeft (width : Nat) (text : String) : String :=
  text ++ String.ofList (List.replicate (width - text.length) ' ')

def numberedLines : Nat → List String → List String
  | _, [] => []
  | number, input :: rest =>
      (alignRight 5 (toString number) ++ "  " ++ input) :: numberedLines (number + 1) rest

/-- One line per strategy with its average input length; none if the budget runs out. -/
def comparison (budget : Nat) (options : Options) (g : Grammar) :
    List StrategyKind → Option (List String × Option CommandError)
  | [] => some ([], none)
  | kind :: rest =>
      match Fuzzer.new g kind options.config with
      | .error error => some ([], some (.fuzzer error))
      | .ok f =>
          match (f.averageLength budget options.trials).1 with
          | .unfinished => none
          | .failed error => some ([], some (.fuzzer (.grammar error)))
          | .done average =>
              let line := "  " ++ alignLeft 10 kind.name ++ " " ++ Number.tenths average
              (comparison budget options g rest).map fun (lines, failure?) =>
                (line :: lines, failure?)

/-- The lines after a text report: the comparison, if trials are asked for. -/
def closing (budget : Nat) (options : Options) (g : Grammar) :
    Option (List String × Option CommandError) :=
  if options.trials = 0 ∨ options.json then some ([], none)
  else
    (comparison budget options g StrategyKind.all).map fun (lines, failure?) =>
      ("" ::
        ("Average input length until full coverage (" ++ toString options.trials ++ " trials):") ::
        lines, failure?)

def heading (options : Options) (g : Grammar) : List String :=
  ["Grammar:  " ++ options.grammar.display,
    "Symbols:  " ++ toString g.size ++ " (" ++ toString g.expansionCount ++ " expansions, " ++
      toString (g.keysWithin none options.config.start).size ++ " reachable)",
    ""]

/-- Fuzz a grammar until it is covered and report. -/
def draft (budget : Nat) (options : Options) (g : Grammar) : Drafting :=
  match Fuzzer.new g options.kind options.config with
  | .error error => .failed [] (.fuzzer error)
  | .ok f =>
      let heading := if options.json then [] else heading options g
      match f.untilCovered budget options.config.maxGenerations with
      | (.unfinished, _) => .unfinished
      | (.failed error, _) => .failed heading (.fuzzer (.grammar error))
      | (.done campaign, f) =>
          let report := Report.new options.kind.name options.config.seed campaign f.tracker
          match closing budget options g with
          | none => .unfinished
          | some (closing, failure?) => .drafted {
              opening := heading ++
                (if options.json then [] else numberedLines 1 campaign.inputs.toList ++ [""])
              report := if options.json then report.json else report.text
              closing := closing
              failure? := failure?
              complete := report.isComplete }

end Run

structure Transcript where
  exit : UInt8
  stdout : String
  stderr : String
  deriving DecidableEq

/-- A run as it meets the files around it: it ends, or asks for a grammar or for a file to
be written and goes on with the answer. -/
inductive Interaction where
  | ended (transcript : Transcript)
  | unfinished
  | load (source : GrammarSource) (next : Except CommandError Grammar → Interaction)
  | write (path text : String) (next : Except FileError Unit → Interaction)

namespace Interaction

/-- Play a run among the files of a directory; no transcript if the budget ran out. -/
def within (files : Files) : Interaction → Option Transcript × Files
  | ended transcript => (some transcript, files)
  | unfinished => (none, files)
  | load source next => within files (next (source.load files.bytes?))
  | write path text next =>
      match files.write path text with
      | .ok files => within files (next (.ok ()))
      | .error error => within files (next (.error error))

end Interaction

namespace Run

def joinLines (lines : List String) : String := String.join (lines.map (· ++ "\n"))

/-- End with an exit code, the lines printed, and an error after the warnings. -/
def stop (exit : UInt8) (lines warnings : List String) (message : String) : Interaction :=
  .ended ⟨exit, joinLines lines, joinLines (warnings ++ ["ERROR: " ++ message])⟩

def banner (options : Options) : List String :=
  if options.json then []
  else Report.banner "              Grammar Coverage Fuzzer                         "

/-- End after the report with the lines of a draft that follow it. -/
def close (lines warnings : List String) (draft : Draft) : Interaction :=
  let lines := lines ++ draft.closing
  match draft.failure? with
  | some error => stop 1 lines warnings error.message
  | none => .ended ⟨if draft.complete then 0 else 1, joinLines lines, joinLines warnings⟩

/-- Print the report of a draft or have it written, and go on. -/
def publish (options : Options) (warnings : List String) (draft : Draft) : Interaction :=
  let opening := banner options ++ draft.opening
  match options.output? with
  | none => close (opening ++ [draft.report]) warnings draft
  | some path =>
      .write path draft.report fun
        | .error error => stop 1 opening warnings error.message
        | .ok () =>
            let notice := if options.json then [] else ["Report: " ++ path]
            close (opening ++ notice) warnings draft

/-- The command with its arguments, at most `budget` steps for each phase of a tree. -/
def command (budget : Nat) (arguments : List String) : Interaction :=
  let (request, ignored) := Options.ofArguments arguments
  let warnings := ignored.map ("Ignoring unknown argument: " ++ ·)
  match request with
  | .help => .ended ⟨0, joinLines Options.help, joinLines warnings⟩
  | .unknownStrategy name => stop 2 [] warnings (StrategyKind.unknownMessage name)
  | .run options =>
      .load options.grammar fun
        | .error error => stop 1 (banner options) warnings error.message
        | .ok g =>
            match prepare options g with
            | .error error => stop 1 (banner options) warnings error.message
            | .ok g =>
                match draft budget options g with
                | .unfinished => .unfinished
                | .failed printed error => stop 1 (banner options ++ printed) warnings error.message
                | .drafted draft => publish options warnings draft

end Run
end GrammarFuzz
