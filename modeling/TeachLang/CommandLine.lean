import TeachLang.Java
import TeachLang.Run.Program
import TeachLang.Typing.Program
import TeachLang.Syntax.ReadProgram
import TeachLang.Token.Scan

/-!
# The command line

The arguments name a file with a program and at most one mode: to check the program, to emit it as
Java, or else to run it. `CommandLine.perform` does the whole job, given access to `Files`, and
gives a report: what is to be printed, and the exit code.
-/

namespace TeachLang.CommandLine

/-! ## Arguments -/

/-- What to do with a program that was checked. -/
inductive Mode where
  /-- to run it -/
  | run
  /-- nothing more -/
  | check
  /-- to emit it into a file -/
  | emit (path : String)
  deriving DecidableEq, Repr

/-- What the arguments ask for. -/
structure Options where
  /-- path of the file with the program -/
  file : String
  /-- what to do with it -/
  mode : Mode
  deriving DecidableEq, Repr

/-- Arguments that start like this name a mode, not a file. -/
def isFlag (argument : String) : Bool := ['-', '-'].isPrefixOf argument.toList

/-- Reads arguments, given the file and the mode that were read so far. A mode can only be given
once, and so can the file; the argument after `--emit` is a path whatever it looks like. -/
def readFrom (file : Option String) (mode : Mode) : List String → Option Options
  | [] => file.map (⟨·, mode⟩)
  | argument :: arguments =>
    if argument = "--check" ∧ mode = .run then readFrom file .check arguments
    else if argument = "--emit" ∧ mode = .run then
      match arguments with
      | [] => none
      | path :: arguments => readFrom file (.emit path) arguments
    else if isFlag argument || file.isSome then none
    else readFrom (some argument) mode arguments

/-- Reads the arguments of the command line. -/
def Options.read? (arguments : List String) : Option Options := readFrom none .run arguments

/-- The name of the file at the end of a path. -/
def fileName (path : String) : String :=
  String.ofList (path.toList.reverse.takeWhile (· ≠ '/')).reverse

/-! ## Reports -/

/-- What is left to do in the end. -/
structure Report where
  /-- the exit code -/
  code : UInt8
  /-- printed to the standard output -/
  output : String
  /-- printed to the standard error output -/
  errors : String
  deriving DecidableEq, Repr

namespace Report

/-- Nothing to print, and all is well. -/
def success : Report := ⟨0, "", ""⟩

/-- How to call the program. -/
def usage : Report := ⟨2, "", "Usage: plc <file> [--emit <out.java>] [--check]\n"⟩

/-- A file that could not be used. -/
def ofFileError (attempt path error : String) : Report :=
  ⟨1, "", "Failed to " ++ attempt ++ " " ++ path ++ ": " ++ error ++ "\n"⟩

/-- A fault of the program in a file, found after something was printed. -/
def ofDiagnostic (output : String) (d : Diagnostic) (source path : String) : Report :=
  ⟨1, output, d.render source path⟩

end Report

/-- The whole number of 32 bits nearest to a whole number. -/
def clamp (n : Int) : Int := max (-2147483648) (min n 2147483647)

/-- The exit code for the result of a program: a whole number, of which the lowest byte counts, or
else success. -/
def exitCode : Value → UInt8
  | .atom _ (.integer n) => UInt8.ofNat ((clamp n) % 256).toNat
  | _ => 0

/-! ## The job -/

/-- Access to files by their paths; an attempt may fail with a text that says why. -/
structure Files (m : Type → Type) where
  /-- reads a file -/
  read : String → m (Except String String)
  /-- writes a file -/
  write : String → String → m (Except String Unit)

/-- The fuel of a run, more than any run can use up. -/
def fuel : Nat := 1000000000000000000

/-- No record of a program has methods unless the host supplies some. -/
def noMethods : Host := fun _ _ _ => .ok .nil

/-- Reads a program and checks it. -/
def readProgram (source file : String) : Except Diagnostic Program := do
  let tokens ← Token.tokenize source file
  let program ← Program.parse tokens file
  let checked := (program.check .initial).2
  checked.verdict
  return checked.tree

/-- Runs a program. -/
def runProgram (program : Program) (source path : String) : Report :=
  match Run.program noMethods fuel program .initial with
  | .done result m => ⟨exitCode result, m.printed, ""⟩
  | .failed d m => .ofDiagnostic m.printed d source path
  | .exhausted => ⟨1, "", ""⟩

variable {m : Type → Type} [Monad m]

/-- Does with a program what is asked for. -/
def performOn (files : Files m) (options : Options) (source : String) : m Report :=
  match readProgram source (fileName options.file) with
  | .error d => return .ofDiagnostic "" d source options.file
  | .ok program =>
    match options.mode with
    | .check => return .success
    | .run => return runProgram program source options.file
    | .emit path =>
      match program.java with
      | .error d => return .ofDiagnostic "" d source options.file
      | .ok java => do
        match ← files.write path java with
        | .ok _ => return .success
        | .error error => return .ofFileError "write" path error

/-- Does what the arguments ask for. -/
def perform (files : Files m) (arguments : List String) : m Report :=
  match Options.read? arguments with
  | none => return .usage
  | some options => do
    match ← files.read options.file with
    | .error error => return .ofFileError "read" options.file error
    | .ok source => performOn files options source

end TeachLang.CommandLine
