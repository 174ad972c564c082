/-
The command line program: reads the input, carries out the plan on the file system, and writes the log
to standard error.
-/
import MipsAssembler.CommandLine.Directory

namespace MipsAssembler.CommandLine

/-- How the program is called. -/
def helpText : String :=
  "Usage: mips-assembler [OPTIONS] <INPUT>\n\n"
    ++ "Options:\n"
    ++ "  -o, --output <PATH>        object output; without it the listing is printed\n"
    ++ "      --base-address <N>     address of the first instruction, decimal or 0x hex\n"
    ++ "      --keep-going           report every bad instruction\n"
    ++ "      --symbols              write the label table to <PATH>.sym\n"
    ++ "      --relocations          write the relocation table to <PATH>.rel\n"
    ++ "      --expanded <PATH>      write the expanded program\n"
    ++ "  -h, --help                 print this help\n"
    ++ "  -V, --version              print the version\n"

/-- What to say when the arguments do not start a run. -/
def Usage.message : Usage → String
  | .displayHelp => helpText
  | .displayVersion => "mips-assembler 0.1.0\n"
  | .missingRequiredArgument => "error: a required argument is missing\n"
  | .unknownArgument => "error: unexpected argument\n"
  | .invalidValue => "error: an option needs a value\n"
  | .valueValidation => "error: invalid value for --base-address\n"
  | .argumentConflict => "error: an argument is given twice\n"
  | .tooManyValues => "error: a flag takes no value\n"

/-- Only warnings and errors are logged. -/
def threshold : Option Level := some .warn

def logToStderr (e : Event) : IO Unit := do
  if e.passes threshold then
    IO.eprintln (e.level.text ++ " " ++ e.message)

def carryOut : Action → IO Unit
  | .write path text => IO.FS.writeFile path text
  | .print text => IO.print text
  | .log event => logToStderr event

def readSource (path : String) : IO (Except String String) := do
  try
    let contents ← IO.FS.readBinFile path
    match String.fromUTF8? contents with
    | some text => return .ok text
    | none => return .error Obstacle.notText.message
  catch e => return .error (toString e)

def carryOutAll (p : Plan Unit) : IO (Except Trouble Unit) := do
  try
    for action in p.run.trace do
      carryOut action
    return p.run.value
  catch e => return .error (.unwritable (toString e))

def runOnFiles (args : Arguments) : IO UInt32 := do
  match ← carryOutAll (plan args (← readSource args.input)) with
  | .ok () => return 0
  | .error trouble =>
    for event in trouble.events args.input do
      logToStderr event
    return 1

end MipsAssembler.CommandLine

open MipsAssembler.CommandLine in
def main (words : List String) : IO UInt32 := do
  match Arguments.parse words with
  | .ok args => runOnFiles args
  | .error usage =>
    if usage.exitCode = 0 then IO.print usage.message else IO.eprint usage.message
    return usage.exitCode.toUInt32
