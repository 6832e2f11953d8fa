import Exemplar.Command.Request

/-!
# Reading the command line

The arguments are a command and its files, with options before or after the
command. An option is written `--name value`, `--name=value`, and the
configuration file also as `-c value`, `-cvalue` or `-c=value`. After `--`
there are only files.

Options before the command and options after it are two levels. On one level
an option stands once; on both, the later one counts. Values are judged late:
a value after its option's name, and the files, are looked at when the next
option or the end comes, so the first error found need not be the first in the
line. What waits before the command is looked at after everything that follows
the command.
-/

namespace Exemplar

/-- Why the arguments make no request. -/
inductive UsageError where
  | helpAsked
  | versionAsked
  /-- There are no arguments, or none that say anything. -/
  | nothingAsked
  | commandMissing
  | commandUnknown
  | filesMissing
  | optionUnknown
  /-- An option has no value, or not one of its values, or a path is empty. -/
  | valueInvalid
  /-- An option that takes no value has one. -/
  | valueUnwanted
  | optionRepeated
deriving Repr, DecidableEq

/-- What was asked for is an answer, not a mistake. -/
def UsageError.isAnswer : UsageError → Bool
  | .helpAsked | .versionAsked => true
  | _ => false

namespace Usage

/-! ## Arguments -/

inductive OptionName where
  | config
  | format
  | logLevel
deriving Repr, DecidableEq

def OptionName.ofLong? : String → Option OptionName
  | "config" => some .config
  | "format" => some .format
  | "log-level" => some .logLevel
  | _ => none

inductive Argument where
  /-- The two dashes that end the options. -/
  | dashes
  /-- Two dashes and a name, with the value after an equals sign. -/
  | long (name : String) (value : Option String)
  /-- One dash and letters. -/
  | short (letters : List Char)
  /-- Anything else, a single dash among it. -/
  | plain (text : String)
deriving Repr, DecidableEq

def Argument.ofText (text : String) : Argument :=
  match text.toList with
  | ['-', '-'] => .dashes
  | '-' :: '-' :: cs =>
    let name := String.ofList (cs.takeWhile (· ≠ '='))
    match cs.dropWhile (· ≠ '=') with
    | _ :: value => .long name (some (String.ofList value))
    | [] => .long name none
  | '-' :: c :: cs => .short (c :: cs)
  | _ => .plain text

/-! ## One level -/

/-- What has been said on one level. -/
structure Choices where
  config : Option String := none
  format : Option OutputFormat := none
  logLevel : Option String := none
  files : List String := []
deriving Repr, DecidableEq

namespace Choices

def anyOption (c : Choices) : Bool :=
  c.config.isSome || c.format.isSome || c.logLevel.isSome

def set (c : Choices) (name : OptionName) (value : String) :
    Except UsageError Choices :=
  match name with
  | .config =>
    if c.config.isSome then .error .optionRepeated
    else if value.isEmpty then .error .valueInvalid
    else .ok { c with config := some value }
  | .format =>
    if c.format.isSome then .error .optionRepeated
    else
      match OutputFormat.ofKey? value with
      | some format => .ok { c with format := some format }
      | none => .error .valueInvalid
  | .logLevel =>
    if c.logLevel.isSome then .error .optionRepeated
    else .ok { c with logLevel := some value }

def addFiles (c : Choices) (paths : List String) : Except UsageError Choices :=
  if paths.any String.isEmpty then .error .valueInvalid
  else .ok { c with files := c.files ++ paths }

end Choices

/-- What has been read and not been looked at. -/
inductive Pending where
  | nothing
  /-- An option, and its value once that is there. -/
  | option (name : OptionName) (value : Option String)
  | files (paths : List String)
deriving Repr, DecidableEq

/-- A level of the command line, as far as it has been read. -/
structure Level where
  choices : Choices := {}
  pending : Pending := .nothing
deriving Repr, DecidableEq

namespace Level

/-- The choices, with what was pending. -/
def settle (l : Level) : Except UsageError Choices :=
  match l.pending with
  | .nothing => .ok l.choices
  | .option _ none => .error .valueInvalid
  | .option name (some value) => l.choices.set name value
  | .files paths => l.choices.addFiles paths

def setOption (l : Level) (name : OptionName) (value : String) :
    Except UsageError Level := do
  let choices ← l.settle
  return { choices := ← choices.set name value }

/-- An option whose value is the next argument. -/
def awaitValue (l : Level) (name : OptionName) : Except UsageError Level := do
  return { choices := ← l.settle, pending := .option name none }

/-- A request for an answer, once what was pending is in order. -/
def ask (l : Level) (answer : UsageError) : Except UsageError Level := do
  let _ ← l.settle
  throw answer

/-- The name of the option whose value comes next. -/
def awaited? (l : Level) : Option OptionName :=
  match l.pending with
  | .option name none => some name
  | _ => none

def addFile (l : Level) (path : String) : Except UsageError Level :=
  match l.pending with
  | .files paths => .ok { l with pending := .files (paths ++ [path]) }
  | _ => do return { choices := ← l.settle, pending := .files [path] }

/-- An argument with a long name. The version can be asked for only before
the command. -/
def long (l : Level) (beforeCommand : Bool) (name : String)
    (value : Option String) :
    Except UsageError Level :=
  match OptionName.ofLong? name, value with
  | some option, some value => l.setOption option value
  | some option, none => l.awaitValue option
  | none, value =>
    if name = "help" || (beforeCommand && name = "version") then
      if value.isSome then throw .valueUnwanted
      else l.ask (if name = "help" then .helpAsked else .versionAsked)
    else throw .optionUnknown

/-- An argument of letters after one dash. -/
def short (l : Level) (beforeCommand : Bool) :
    List Char → Except UsageError Level
  | ['c'] => l.awaitValue .config
  | 'c' :: '=' :: value => l.setOption .config (String.ofList value)
  | 'c' :: value => l.setOption .config (String.ofList value)
  | 'h' :: _ => l.ask .helpAsked
  | 'V' :: _ =>
      if beforeCommand then l.ask .versionAsked else throw .optionUnknown
  | _ => throw .optionUnknown

end Level

/-! ## The whole line -/

/-- The request, from what was said on both levels. -/
def request (command : Command) (outer inner : Choices) : Request where
  command := command
  files := inner.files
  config := inner.config.or outer.config
  format := (inner.format.or outer.format).getD .text
  logLevel := (inner.logLevel.or outer.logLevel).getD "warn"

def finish (command : Command) (outer inner : Level) :
    Except UsageError Request := do
  let choices ← inner.settle
  if choices.files.isEmpty then throw .filesMissing
  return request command (← outer.settle) choices

/-- Read what follows the command. -/
def afterCommand (command : Command) (outer inner : Level) :
    List String → Except UsageError Request
  | [] => finish command outer inner
  | arg :: args =>
    match Argument.ofText arg with
    | .dashes => do finish command outer (← args.foldlM Level.addFile inner)
    | .long name value => do
      afterCommand command outer (← inner.long false name value) args
    | .short letters =>
        do afterCommand command outer (← inner.short false letters) args
    | .plain text =>
      match inner.awaited? with
      | some name =>
        afterCommand command outer
          { inner with pending := .option name (some text) } args
      | none => do afterCommand command outer (← inner.addFile text) args

/-- The names that may stand in the place of the command. -/
def isCommandName (text : String) : Bool :=
  text = "help" || (Command.ofText? text).isSome

/-- The answer to `help` and what follows it: at most one name. -/
def helpOn : List String → UsageError
  | [] => .helpAsked
  | [name] => if isCommandName name then .helpAsked else .commandUnknown
  | _ => .commandUnknown

/-- The end of a line without a command. -/
def finishEmpty (outer : Level) : Except UsageError Request := do
  let choices ← outer.settle
  throw (if choices.anyOption then .commandMissing else .nothingAsked)

/-- Read what stands before the command, and then the rest. -/
def beforeCommand (outer : Level) : List String → Except UsageError Request
  | [] => finishEmpty outer
  | arg :: args =>
    match Argument.ofText arg with
    | .dashes =>
      match args with
      | [] => finishEmpty outer
      | next :: _ =>
          throw (if isCommandName next then .optionUnknown else .commandUnknown)
    | .long name value => do beforeCommand (← outer.long true name value) args
    | .short letters => do beforeCommand (← outer.short true letters) args
    | .plain text =>
      match outer.awaited? with
      | some name =>
          beforeCommand { outer with pending := .option name (some text) } args
      | none =>
        if text = "help" then throw (helpOn args)
        else
          match Command.ofText? text with
          | some command => afterCommand command outer {} args
          | none => throw .commandUnknown

end Usage

def Request.ofArguments (args : List String) : Except UsageError Request :=
  Usage.beforeCommand {} args

end Exemplar
