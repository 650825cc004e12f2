import Playground.Compile.Basic

/-! Command lines. -/

namespace Playground.Cli

inductive Switch
  | config
  | verbose
  | lang
  | noWorker
  | output
  | fallback
  | json
  | help
  | version
  deriving DecidableEq, Repr

inductive Scope
  | top
  | compile
  | languages
  /-- Help, with the command it is asked about. -/
  | help (topic : Option String)
  deriving DecidableEq, Repr

inductive Halt
  | showHelp (scope : Scope)
  | showVersion (scope : Scope)
  | misuse
  deriving DecidableEq, Repr

structure CompileCommand where
  file : String
  language : Option String
  noWorker : Bool
  output : Option String
  fallback : Option Fallback
  json : Bool
  deriving DecidableEq, Repr

inductive Command
  | compile (c : CompileCommand)
  | languages
  deriving DecidableEq, Repr

structure CommandLine where
  config : Option String
  command : Command
  deriving DecidableEq, Repr

namespace Switch

def long : Switch → String
  | config => "config"
  | verbose => "verbose"
  | lang => "lang"
  | noWorker => "no-worker"
  | output => "output"
  | fallback => "fallback"
  | json => "json"
  | help => "help"
  | version => "version"

def short? : Switch → Option Char
  | verbose => some 'v'
  | output => some 'o'
  | help => some 'h'
  | version => some 'V'
  | _ => none

def takesValue : Switch → Bool
  | config | lang | output | fallback => true
  | _ => false

end Switch

def fallbackNames : List (String × Fallback) :=
  [("empty", .empty), ("last-good", .lastGood), ("error-marker", .errorMarker)]

/-- Whether a switch may have a value: paths are not empty, and fallbacks have names. -/
def Switch.accepts (s : Switch) (value : String) : Bool :=
  match s with
  | .config | .output => value != ""
  | .fallback => (fallbackNames.lookup value).isSome
  | _ => true

def Scope.switches : Scope → List Switch
  | .top | .languages => [.config, .verbose, .help, .version]
  | .compile =>
    [.config, .lang, .noWorker, .verbose, .output, .fallback, .json, .help, .version]
  | .help _ => []

def Scope.named? : String → Option Scope
  | "compile" => some .compile
  | "languages" => some .languages
  | "help" => some (.help none)
  | _ => none

structure Reading where
  scope : Scope
  /-- The switches given, each with the scope it was given in and its value. -/
  given : List ((Scope × Switch) × String)
  file : Option String
  pending : Option Switch
  plain : Bool
  deriving DecidableEq, Repr

namespace Reading

def start : Reading := ⟨.top, [], none, none, false⟩

def give (r : Reading) (s : Switch) (value : String) : Except Halt Reading :=
  if (r.given.lookup (r.scope, s)).isSome || !s.accepts value then .error .misuse
  else .ok { r with given := r.given ++ [((r.scope, s), value)], pending := none }

def giveFlag (r : Reading) (s : Switch) : Except Halt Reading :=
  match s with
  | .help => .error (.showHelp r.scope)
  | .version => .error (.showVersion r.scope)
  | s => r.give s ""

def operand (r : Reading) (word : String) : Except Halt Reading :=
  match r.scope with
  | .top =>
    if r.plain then .error .misuse
    else
      match Scope.named? word with
      | some scope => .ok { r with scope := scope }
      | none => .error .misuse
  | .compile =>
    if r.file.isSome || word == "" then .error .misuse else .ok { r with file := some word }
  | .languages | .help _ => .error .misuse

def longSwitch (r : Reading) (word : List Char) : Except Halt Reading :=
  let name := word.takeWhile (· != '=')
  match r.scope.switches.find? (·.long == String.ofList name), word.drop name.length with
  | none, _ => .error .misuse
  | some s, _ :: value => if s.takesValue then r.give s (String.ofList value) else .error .misuse
  | some s, [] => if s.takesValue then .ok { r with pending := some s } else r.giveFlag s

/-- Switches by their short names, the last one perhaps with a value right after it. -/
def shortSwitches (r : Reading) : List Char → Except Halt Reading
  | [] => .ok r
  | c :: rest =>
    match r.scope.switches.find? (·.short? == some c) with
    | none => .error .misuse
    | some s =>
      if s.takesValue then
        match rest with
        | [] => .ok { r with pending := some s }
        | '=' :: value => r.give s (String.ofList value)
        | value => r.give s (String.ofList value)
      else do shortSwitches (← r.giveFlag s) rest

def helpTopic (topic : Option String) (word : String) (r : Reading) : Except Halt Reading :=
  match topic, Scope.named? word with
  | none, some _ => .ok { r with scope := .help (some word) }
  | _, _ => .error .misuse

def step (r : Reading) (arg : String) : Except Halt Reading :=
  match r.scope, r.pending, arg.toList with
  | .help topic, _, _ => r.helpTopic topic arg
  | _, some _, '-' :: _ :: _ => .error .misuse
  | _, some s, _ => r.give s arg
  | _, none, '-' :: '-' :: name =>
    if r.plain then r.operand arg
    else if name.isEmpty then .ok { r with plain := true }
    else r.longSwitch name
  | _, none, '-' :: c :: rest => if r.plain then r.operand arg else r.shortSwitches (c :: rest)
  | _, none, _ => r.operand arg

def value? (r : Reading) (s : Switch) : Option String := r.given.lookup (r.scope, s)

def flag (r : Reading) (s : Switch) : Bool := (r.value? s).isSome

/-- The command line, when nothing is missing. A configuration named behind the command counts
before one named in front of it. -/
def finish (r : Reading) : Except Halt CommandLine :=
  let config := (r.value? .config).or (r.given.lookup (.top, .config))
  match r.pending, r.scope, r.file with
  | some _, _, _ => .error .misuse
  | none, .compile, some file =>
    .ok ⟨config, .compile
      { file := file
        language := r.value? .lang
        noWorker := r.flag .noWorker
        output := r.value? .output
        fallback := (r.value? .fallback).bind fun name => fallbackNames.lookup name
        json := r.flag .json }⟩
  | none, .languages, _ => .ok ⟨config, .languages⟩
  | none, .help topic, _ =>
    .error (.showHelp ((topic.bind Scope.named?).getD .top))
  | none, _, _ => .error .misuse

end Reading

def readArguments (args : List String) : Except Halt CommandLine := do
  (← args.foldlM Reading.step .start).finish

end Playground.Cli
