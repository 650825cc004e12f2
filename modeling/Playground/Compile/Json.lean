import Playground.Compile.Basic
import Playground.ErrorWire
import Playground.Pairs

namespace Playground.CompileOutput

def toJson (o : CompileOutput) : Json :=
  .obj [("code", .str o.code), ("compiled_language", .str o.compiledLanguage),
    ("imports", .obj ((sortByKey o.imports).map fun (name, url) => (name, .str url))),
    ("scripts", .arr (o.scripts.map .str)),
    ("block_errors", .arr (o.blockErrors.map BlockError.toJson))]

end Playground.CompileOutput
