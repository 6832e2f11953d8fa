import Exemplar.Command.Run
import Exemplar.Command.Usage

/-!
# The command line tool

Reads the arguments and the files they name, runs the command, prints what it
has to say, and ends with 0 for success, 1 for failure, and 2 if nothing could
be reported.
-/

namespace Exemplar.Main

def usage : String :=
  "Usage: vela [OPTIONS] <check|extract|tests> <FILES>...\n\n"
    ++ "Options:\n"
    ++ "  -c, --config <CONFIG>        Path to configuration file (TOML)\n"
    ++ "      --format <FORMAT>        Output format (text, json)\n"
    ++ "      --log-level <LOG_LEVEL>  Log level (off, error, warn, info, debug, trace)\n"
    ++ "  -h, --help                   Print help\n"
    ++ "  -V, --version                Print version\n"

/-- The answer to arguments that make no request. -/
def usageText : UsageError → String
  | .versionAsked => "vela 0.1.0\n"
  | .commandUnknown => "error: unrecognized subcommand\n\n" ++ usage
  | .filesMissing =>
      "error: the required <FILES> were not provided\n\n" ++ usage
  | .optionUnknown => "error: unexpected argument found\n\n" ++ usage
  | .valueInvalid => "error: an argument has an invalid value\n\n" ++ usage
  | .valueUnwanted =>
      "error: an argument has a value it does not take\n\n" ++ usage
  | .optionRepeated =>
      "error: an argument cannot be used multiple times\n\n" ++ usage
  | .helpAsked | .nothingAsked | .commandMissing => usage

/-- The levels that can be asked for. -/
def logLevels : List String :=
  ["off", "error", "warn", "info", "debug", "trace"]

/-- What the system says about a file that cannot be read. -/
def faultOf : IO.Error → ReadFault
  | .noFileOrDirectory .. => .notFound
  | .inappropriateType _ code details => ofCode code details
  | .invalidArgument _ code details => ofCode code details
  | error => .other (toString error)
where
  /-- The fault with the given number, which may come negated. -/
  ofCode (code : UInt32) (details : String) : ReadFault :=
    let number := if code < 0x80000000 then code else 0 - code
    if number = 20 then .notDirectory
    else if number = 21 then .isDirectory
    else if number = 36 then .nameTooLong
    else .other details

/-- Look at a path. -/
def look (path : String) : IO (Except ReadFault ByteArray) := do
  if let some fault := ReadFault.ofPath? path then return .error fault
  try
    return .ok (← IO.FS.readBinFile path)
  catch error => return .error (faultOf error)

def lookAll (paths : List String) : IO FileView := do
  let seen ← paths.mapM fun path => return (path, ← look path)
  return fun path => (seen.lookup path).getD (.error .notFound)

/-- Colours are shown on a terminal, unless the environment says otherwise. -/
def wantsColours : IO Bool := do
  if (← IO.getEnv "NO_COLOR").isSome then return false
  if (← IO.getEnv "FORCE_COLOR").isSome then return true
  (← IO.getStdout).isTty

def serve (request : Request) : IO UInt32 := do
  let stderr ← IO.getStderr
  if !logLevels.any (Chars.equalIgnoringCase request.logLevel) then
    stderr.putStr ("Invalid log level: " ++ request.logLevel
      ++ ". Using 'warn' instead.\n")
  let colours ← wantsColours
  match request.run (← lookAll request.paths) with
  | .ok result =>
    IO.print (result.output.toText colours)
    return if result.succeeded then 0 else 1
  | .error error =>
    let label := Rich.styled (.boldColour .red) "error"
    stderr.putStr
      ((label ++ Rich.raw (": " ++ error.message ++ "\n")).toText colours)
    return 2

end Exemplar.Main

def main (args : List String) : IO UInt32 :=
  match Exemplar.Request.ofArguments args with
  | .ok request => Exemplar.Main.serve request
  | .error error => do
    let text := Exemplar.Main.usageText error
    if error.isAnswer then
      IO.print text
      return 0
    (← IO.getStderr).putStr text
    return 2
