import Playground.Language.Literal

namespace Playground

def componentScripts : List String :=
  ["https://cdn.jsdelivr.net/npm/vue@2",
    "https://cdn.jsdelivr.net/npm/vue3-sfc-loader@0.8.4/dist/vue2-sfc-loader.js"]

/-- A script that has the component as a text and mounts what its loader makes of it. -/
def mountComponent (source : String) : String :=
  "let app = document.querySelector(\"#app\") || " ++
    "document.body.appendChild(document.createElement('div'));\n" ++
  "\n" ++
  "/* <!-- */\n" ++
  "let content = `" ++ literalCode source true ++ "`;\n" ++
  "/* --> */\n" ++
  "const options = \x7b\n" ++
  "  moduleCache: \x7b vue: Vue \x7d,\n" ++
  "  async getFile(url) \x7b\n" ++
  "    if (url === '/component.vue') return content;\n" ++
  "    const res = await fetch(url);\n" ++
  "    if (!res.ok) throw Object.assign(new Error(res.statusText + ' ' + url), \x7b res \x7d);\n" ++
  "    return await res.text();\n" ++
  "  \x7d,\n" ++
  "  addStyle: (textContent) => \x7b\n" ++
  "    const style = Object.assign(document.createElement('style'), \x7b textContent \x7d);\n" ++
  "    const ref = document.head.getElementsByTagName('style')[0] || null;\n" ++
  "    document.head.insertBefore(style, ref);\n" ++
  "  \x7d,\n" ++
  "\x7d;\n" ++
  "const \x7b loadModule \x7d = window['vue2-sfc-loader'];\n" ++
  "loadModule('/component.vue', options).then((component) => " ++
    "new Vue(component).$mount(app));\n"

end Playground
