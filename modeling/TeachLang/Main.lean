import TeachLang.CommandLine

/-!
# The program

The command line with the files of the machine it runs on.
-/

namespace TeachLang.CommandLine

/-- Why a file could not be used. -/
def fileError : IO.Error → String
  | .noFileOrDirectory _ code details | .permissionDenied _ code details
  | .inappropriateType _ code details | .resourceExhausted _ code details =>
    details ++ " (os error " ++ toString code ++ ")"
  | other => toString other

/-- The text of a file. -/
def readText (path : String) : IO (Except String String) := do
  try
    let handle ← IO.FS.Handle.mk path .read
    match String.fromUTF8? (← handle.readBinToEnd) with
    | some text => return .ok text
    | none => return .error "stream did not contain valid UTF-8"
  catch error => return .error (fileError error)

/-- Makes a file with a text. -/
def writeText (path text : String) : IO (Except String Unit) := do
  try
    IO.FS.writeFile path text
    return .ok ()
  catch error => return .error (fileError error)

end TeachLang.CommandLine

/-- Runs the command line. -/
def main (arguments : List String) : IO UInt32 := do
  let report ← TeachLang.CommandLine.perform
    ⟨TeachLang.CommandLine.readText, TeachLang.CommandLine.writeText⟩ arguments
  IO.print report.output
  IO.eprint report.errors
  return report.code.toUInt32
