namespace Playground

/-- The path of a URL: opaque text, or segments that follow a slash each. -/
inductive UrlPath
  | opaque_ (text : List Char)
  | segments (parts : List (List Char))
  deriving DecidableEq, Repr

structure Url where
  scheme : List Char
  username : List Char
  password : List Char
  host : Option (List Char)
  port : Option Nat
  path : UrlPath
  query : Option (List Char)
  fragment : Option (List Char)
  deriving DecidableEq, Repr

namespace Url

def defaultPorts : List (String × Option Nat) :=
  [("http", some 80), ("https", some 443), ("ws", some 80), ("wss", some 443), ("ftp", some 21),
    ("file", none)]

def isSpecial (scheme : List Char) : Bool :=
  (defaultPorts.lookup (String.ofList scheme)).isSome

def defaultPort? (scheme : List Char) : Option Nat :=
  (defaultPorts.lookup (String.ofList scheme)).join

def credentials (u : Url) : List Char :=
  if u.username.isEmpty && u.password.isEmpty then []
  else u.username ++ (if u.password.isEmpty then [] else ':' :: u.password) ++ ['@']

def pathText (u : Url) : List Char :=
  match u.path with
  | .opaque_ text => text
  | .segments parts =>
    -- Without a host a path that begins with two slashes would read as one.
    let guard_ := u.host.isNone && parts.length > 1 && parts.head? == some []
    (if guard_ then ['/', '.'] else []) ++ parts.flatMap ('/' :: ·)

def toChars (u : Url) : List Char :=
  u.scheme ++ ':' ::
    (match u.host with
      | none => []
      | some host =>
        '/' :: '/' :: u.credentials ++ host ++
          (match u.port with
            | none => []
            | some port => ':' :: Nat.toDigits 10 port)) ++
    u.pathText ++
    (match u.query with
      | none => []
      | some query => '?' :: query) ++
    (match u.fragment with
      | none => []
      | some fragment => '#' :: fragment)

def text (u : Url) : String := String.ofList u.toChars

end Url

end Playground
