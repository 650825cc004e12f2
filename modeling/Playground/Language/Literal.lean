import Playground.Text.Replace

/-! Code inside a template literal that stands in a script. -/

namespace Playground

/-- Code with its backquotes escaped and its `</script>` broken up. With `slash` its backslashes are
doubled first, so that the literal has the code as its value. -/
def literalCode (code : String) (slash : Bool) : String :=
  let doubled := if slash then replaceText code "\\" "\\\\" else code
  replaceText (replaceText doubled "`" "\\`") "</script>" "<\\/script>"

end Playground
