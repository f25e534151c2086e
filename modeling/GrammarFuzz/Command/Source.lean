import GrammarFuzz.Command.Files
import GrammarFuzz.Generation.Fuzzer
import GrammarFuzz.Language.Document
import GrammarFuzz.Language.Standard

/-! Where a grammar comes from: a standard grammar by name, or a file that holds a
document. -/
namespace GrammarFuzz

inductive GrammarSource where
  | standard (name : String)
  | file (path : String)
  deriving DecidableEq

inductive CommandError where
  | fuzzer (error : FuzzerError)
  | file (error : FileError)
  | document (error : DocumentError)
  | unknownGrammar (name : String)
  deriving DecidableEq

def DocumentError.message : DocumentError → String
  | notRules .ended => "unexpected end of input"
  | notRules .wrongKind => "expected a map from symbols to lists of expansions"
  | notRules .malformed => "malformed JSON"
  | invalid error => error.message

namespace CommandError

def message : CommandError → String
  | fuzzer error => error.message
  | file error => error.message
  | document error => "Invalid grammar file: " ++ error.message
  | unknownGrammar name =>
      "Unknown grammar '" ++ name ++ "': not a built-in name or a readable file"

end CommandError

namespace GrammarSource

/-- Standard names win over paths. -/
def ofArgument (argument : String) : GrammarSource :=
  if Standard.names.contains argument then standard argument else file argument

def display : GrammarSource → String
  | standard name => name ++ " (built-in)"
  | file path => path

/-- Read a grammar from the bytes of a file; they must be UTF-8. -/
def ofBytes (bytes : ByteArray) : Except CommandError Grammar :=
  match String.fromUTF8? bytes with
  | none => .error (.file .notText)
  | some text => (Grammar.ofDocument text).mapError .document

/-- The grammar of a source, given the bytes of files by their paths. -/
def load (bytes? : String → Option ByteArray) : GrammarSource → Except CommandError Grammar
  | standard name => (Standard.grammar? name).elim (.error (.unknownGrammar name)) .ok
  | file path => (bytes? path).elim (.error (.unknownGrammar path)) ofBytes

end GrammarSource
end GrammarFuzz
