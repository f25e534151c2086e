import GrammarFuzz.Command.Run

/-! The command as a program among the files of the system. -/
namespace GrammarFuzz.Main

/-- More steps than any run takes that ends in reasonable time. -/
def budget : Nat := 1 <<< 62

def readBytes? (source : GrammarSource) : IO (Option ByteArray) :=
  match source with
  | .standard _ => pure none
  | .file path => try some <$> IO.FS.readBinFile path catch _ => pure none

def writeText (path text : String) : IO (Except FileError Unit) :=
  try
    IO.FS.writeFile path text
    pure (.ok ())
  catch
    | .inappropriateType .. => pure (.error .isADirectory)
    | _ => pure (.error .absent)

/-- Play a run; its exit code is the program's. -/
def play : Interaction → IO UInt32
  | .ended transcript => do
      IO.print transcript.stdout
      IO.eprint transcript.stderr
      pure transcript.exit.toUInt32
  | .unfinished => pure 1
  | .load source next => do
      let bytes? ← readBytes? source
      play (next (source.load fun _ => bytes?))
  | .write path text next => do play (next (← writeText path text))

end GrammarFuzz.Main

def main (arguments : List String) : IO UInt32 :=
  GrammarFuzz.Main.play (GrammarFuzz.Run.command GrammarFuzz.Main.budget arguments)
