import Playground.Resource
import Playground.Url.Parser

namespace Playground

def isWebUrl (u : Url) : Bool :=
  u.host.isSome && (u.scheme == "http".toList || u.scheme == "https".toList)

def unreachable (url : String) : FetchError :=
  match Url.parse? none url with
  | none => ⟨url, "builder error", none⟩
  | some u =>
    let reason := if isWebUrl u then "error sending request" else "builder error"
    ⟨url, reason ++ " for url (" ++ u.text ++ ")", none⟩

def fetchOffline : Fetcher := ⟨fun _ url => .error (unreachable url)⟩

end Playground
