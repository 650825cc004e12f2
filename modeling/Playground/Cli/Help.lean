import Playground.Cli.Arguments
import Playground.Language.Builtin

namespace Playground.Cli

def padTo (width : Nat) (s : String) : String :=
  s ++ String.ofList (List.replicate (width - s.length) ' ')

def languageLine (l : LanguageSpec) : String :=
  padTo 12 l.name ++ " " ++ padTo 12 l.title ++ " → " ++ padTo 11 l.outputLanguage ++ " " ++
    " ".intercalate (l.extensions.map ("." ++ ·))

def languageTable (r : LanguageRegistry) : String :=
  String.join (r.specs.map fun l => languageLine l ++ "\n")

def versionName : Scope → String
  | .top => "polyglot-cli"
  | .compile => "polyglot-cli-compile"
  | .languages => "polyglot-cli-languages"
  | .help _ => "polyglot-cli-help"

def versionText (scope : Scope) : String := versionName scope ++ " 0.1.0\n"

namespace Switch

def valueName? : Switch → Option String
  | config => some "CONFIG"
  | lang => some "LANG"
  | output => some "OUTPUT"
  | fallback => some "FALLBACK"
  | _ => none

def about : Switch → String
  | config => "Path to a .json or .toml config file [env: POLYGLOT_CONFIG=]"
  | verbose => "Log debug output to stderr"
  | lang => "Language id, overriding the file extension"
  | noWorker => "Run every pass in this process"
  | output => "Write the compiled code here instead of stdout"
  | fallback =>
    "Emit this instead of failing when the compile errors [possible values: " ++
      ", ".intercalate (fallbackNames.map Prod.fst) ++ "]"
  | json => "Print the full compile output as JSON"
  | help => "Print help"
  | version => "Print version"

def form (s : Switch) : String :=
  let short := match s.short? with
    | some c => "-" ++ String.singleton c ++ ", "
    | none => "    "
  let value := match s.valueName? with
    | some name => " <" ++ name ++ ">"
    | none => ""
  short ++ "--" ++ s.long ++ value

end Switch

def columns (rows : List (String × String)) : String :=
  let width := (rows.map fun row => row.1.length).foldl max 0
  String.join (rows.map fun (left, right) => "  " ++ padTo width left ++ "  " ++ right ++ "\n")

def switchTable (scope : Scope) : String :=
  "\nOptions:\n" ++ columns (scope.switches.map fun s => (s.form, s.about))

def compileAbout : String := "Compile a source file; the language comes from its extension"

def languagesAbout : String := "List the registered languages"

def helpAbout : String := "Print this message or the help of the given subcommand(s)"

def helpText (scope : Scope) : String :=
  match scope with
  | .top =>
    "Polyglot - compile playground languages to HTML, CSS and JavaScript\n\n" ++
      "Usage: polyglot [OPTIONS] <COMMAND>\n\nCommands:\n" ++
      columns [("compile", compileAbout), ("languages", languagesAbout), ("help", helpAbout)] ++
      switchTable scope
  | .compile =>
    compileAbout ++ "\n\nUsage: polyglot compile [OPTIONS] <FILE>\n\nArguments:\n" ++
      columns [("<FILE>", "")] ++ switchTable scope
  | .languages =>
    languagesAbout ++ "\n\nUsage: polyglot languages [OPTIONS]\n" ++ switchTable scope
  | .help _ =>
    helpAbout ++ "\n\nUsage: polyglot help [COMMAND]...\n\nArguments:\n" ++
      columns [("[COMMAND]...", "Print help for the subcommand(s)")]

end Playground.Cli
