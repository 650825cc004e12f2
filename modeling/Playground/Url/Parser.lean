import Playground.Url.Basic
import Playground.Url.Host

/-! Reading URLs, alone or relative to a base. -/

namespace Playground.Url

def isSchemeChar (c : Char) : Bool :=
  isAsciiLetter c || isAsciiDigit c || c == '+' || c == '-' || c == '.'

def splitScheme? (cs : List Char) : Option (List Char × List Char) :=
  match cs with
  | [] => none
  | c :: _ =>
    if isAsciiLetter c then
      match cs.dropWhile isSchemeChar with
      | ':' :: rest => some (Text.lower (cs.takeWhile isSchemeChar), rest)
      | _ => none
    else none

def isSlash (special : Bool) (c : Char) : Bool := c == '/' || (special && c == '\\')

def splitBefore (stop : Char → Bool) (cs : List Char) : List Char × List Char :=
  (cs.takeWhile fun c => !stop c, cs.dropWhile fun c => !stop c)

def isSingleDot (cs : List Char) : Bool :=
  let s := Text.lower cs
  s == ".".toList || s == "%2e".toList

def isDoubleDot (cs : List Char) : Bool :=
  let s := Text.lower cs
  s == "..".toList || s == ".%2e".toList || s == "%2e.".toList || s == "%2e%2e".toList

def isDriveLetter (cs : List Char) : Bool :=
  match cs with
  | [c, ':'] | [c, '|'] => isAsciiLetter c
  | _ => false

/-- The path one level up; the drive of a file path stays. `parts` has the last segment first. -/
def shorten (isFile : Bool) (parts : List (List Char)) : List (List Char) :=
  match parts with
  | [] => []
  | [only] => if isFile && isDriveLetter only then [only] else []
  | _ :: rest => rest

/-- Adds segments to a path whose last segment comes first; the last one added has no slash after
it, so that a dot there leaves an empty segment. -/
def addSegments (isFile : Bool) (parts : List (List Char)) :
    List (List Char) → List (List Char)
  | [] => parts
  | segment :: more =>
    let isLast := more.isEmpty
    let next :=
      if isDoubleDot segment then
        let up := shorten isFile parts
        if isLast then [] :: up else up
      else if isSingleDot segment then (if isLast then [] :: parts else parts)
      else
        let written := encodeWith inPath segment
        match isFile && parts.isEmpty && isDriveLetter written, written with
        | true, c :: _ => [c, ':'] :: parts
        | _, _ => written :: parts
    addSegments isFile next more

def isFileScheme (scheme : List Char) : Bool := scheme == "file".toList

/-- The path text of a URL added to the segments of `base`, of which the last comes first. -/
def readPath (scheme : List Char) (base : List (List Char)) (cs : List Char) : UrlPath :=
  let segments := splitOn (isSlash (isSpecial scheme)) cs
  .segments (addSegments (isFileScheme scheme) base segments).reverse

/-- Reads query and fragment into a URL; `cs` is empty or begins with `?` or `#`. -/
def addQueryFragment (u : Url) (cs : List Char) : Url :=
  let addFragment (u : Url) (cs : List Char) : Url :=
    match cs with
    | '#' :: rest => { u with fragment := some (encodeWith inFragment rest) }
    | _ => u
  match cs with
  | '?' :: rest =>
    let (query, more) := splitBefore (· == '#') rest
    let encoded := if isSpecial u.scheme then inSpecialQuery else inQuery
    addFragment { u with query := some (encodeWith encoded query) } more
  | _ => addFragment u cs

def isQueryOrFragment (c : Char) : Bool := c == '?' || c == '#'

def bare (scheme : List Char) : Url :=
  { scheme := scheme
    username := []
    password := []
    host := none
    port := none
    path := .segments []
    query := none
    fragment := none }

def addFromPath (u : Url) (cs : List Char) : Url :=
  let (path, rest) := splitBefore isQueryOrFragment cs
  let special := isSpecial u.scheme
  let path_ :=
    match path with
    | [] => if special then UrlPath.segments [[]] else .segments []
    | c :: more => readPath u.scheme [] (if isSlash special c then more else path)
  addQueryFragment { u with path := path_ } rest

def splitLast (stop : Char) (cs : List Char) : Option (List Char × List Char) :=
  match splitBefore (· == stop) cs.reverse with
  | (_, []) => none
  | (after, _ :: before) => some (before.reverse, after.reverse)

def splitPort (cs : List Char) : List Char × Option (List Char) :=
  match cs with
  | '[' :: _ =>
    let (host, rest) := splitBefore (· == ']') cs
    match rest with
    | ']' :: ':' :: port => (host ++ [']'], some port)
    | _ => (cs, none)
  | _ =>
    match splitBefore (· == ':') cs with
    | (host, _ :: port) => (host, some port)
    | (host, []) => (host, none)

def readPort? (scheme : List Char) (digits : List Char) : Option (Option Nat) :=
  if digits.isEmpty then some none
  else
    match digitsIn 10 digits with
    | some n => if n < 65536 then some (if defaultPort? scheme = some n then none else some n) else none
    | none => none

def readAuthority? (scheme : List Char) (cs : List Char) : Option Url := do
  let special := isSpecial scheme
  let (authority, rest) := splitBefore (fun c => isSlash special c || isQueryOrFragment c) cs
  let (userInfo, hostPort) := match splitLast '@' authority with
    | some (userInfo, hostPort) => (some userInfo, hostPort)
    | none => (none, authority)
  let (hostText, portText) := splitPort hostPort
  let host ← if special then domainHost? hostText else opaqueHost? hostText
  let port ← readPort? scheme (portText.getD [])
  if host.isEmpty ∧ (userInfo.isSome ∨ portText.isSome) then none
  else
    let (username, password) := splitBefore (· == ':') (userInfo.getD [])
    return addFromPath
      { bare scheme with
        username := encodeWith inUserInfo username
        password := encodeWith inUserInfo (password.drop 1)
        host := some host
        port := port } rest

def fileHost? (cs : List Char) : Option (List Char) :=
  if cs.isEmpty then some []
  else (domainHost? cs).map fun host => if host == "localhost".toList then [] else host

def readFile? (base : Option Url) (cs : List Char) : Option Url :=
  let u := { bare "file".toList with host := some [] }
  match cs with
  | a :: b :: rest =>
    if isSlash true a && isSlash true b then
      let (hostText, after) := splitBefore (fun c => isSlash true c || isQueryOrFragment c) rest
      if isDriveLetter hostText then some (addFromPath u rest)
      else (fileHost? hostText).map fun host => addFromPath { u with host := some host } after
    else fromBase u
  | _ => fromBase u
where
  fromBase (u : Url) : Option Url :=
    match base, cs with
    | none, _ => some (addFromPath u cs)
    | some b, [] => some { b with fragment := none }
    | some b, c :: _ =>
      let kept := { b with query := none, fragment := none }
      if isSlash true c then some (addFromPath { u with host := b.host } cs)
      else if c = '?' then some (addQueryFragment kept cs)
      else if c = '#' then some (addQueryFragment { b with fragment := none } cs)
      else
        match b.path with
        | .opaque_ _ => none
        | .segments parts =>
          let (path, rest) := splitBefore isQueryOrFragment cs
          some (addQueryFragment
            { kept with path := readPath b.scheme (shorten true parts.reverse) path } rest)

def readRelative? (base : Url) (parts : List (List Char)) (cs : List Char) : Option Url :=
  let special := isSpecial base.scheme
  let kept := { base with query := none, fragment := none }
  match cs with
  | [] => some { base with fragment := none }
  | c :: rest =>
    if isSlash special c then
      match rest with
      | d :: more =>
        if isSlash special d then
          readAuthority? base.scheme (if special then more.dropWhile (isSlash true) else more)
        else some (addFromPath kept cs)
      | [] => some (addFromPath kept cs)
    else if c = '?' then some (addQueryFragment kept cs)
    else if c = '#' then some (addQueryFragment { base with fragment := none } cs)
    else
      let (path, rest) := splitBefore isQueryOrFragment cs
      some (addQueryFragment { kept with path := readPath base.scheme (parts.reverse.drop 1) path }
        rest)

def readOther? (scheme cs : List Char) : Option Url :=
  match cs with
  | '/' :: '/' :: rest => readAuthority? scheme rest
  | '/' :: _ => some (addFromPath (bare scheme) cs)
  | _ =>
    let (path, rest) := splitBefore isQueryOrFragment cs
    some (addQueryFragment { bare scheme with path := .opaque_ (encodeWith isControl path) } rest)

/-- Without the control characters and spaces around it, and without tabs and line breaks. -/
def cleaned (cs : List Char) : List Char :=
  let isEdge (c : Char) : Bool := c.toNat ≤ 0x20
  let trimmed := ((cs.dropWhile isEdge).reverse.dropWhile isEdge).reverse
  trimmed.filter fun c => c != '\t' && c != '\n' && c != '\r'

def parse? (base : Option Url) (text : String) : Option Url :=
  let cs := cleaned text.toList
  match splitScheme? cs with
  | some (scheme, rest) =>
    if isFileScheme scheme then
      readFile? (base.filter fun b => isFileScheme b.scheme) rest
    else if isSpecial scheme then
      let afterSlashes := rest.dropWhile (isSlash true)
      match base with
      | some b =>
        match b.path with
        | .segments parts =>
          if b.scheme = scheme ∧ rest.length < afterSlashes.length + 2 then
            readRelative? b parts rest
          else readAuthority? scheme afterSlashes
        | .opaque_ _ => readAuthority? scheme afterSlashes
      | none => readAuthority? scheme afterSlashes
    else readOther? scheme rest
  | none =>
    match base with
    | none => none
    | some b =>
      match b.path with
      | .opaque_ _ =>
        match cs with
        | '#' :: _ => some (addQueryFragment { b with fragment := none } cs)
        | _ => none
      | .segments parts =>
        if isFileScheme b.scheme then readFile? (some b) cs else readRelative? b parts cs

end Playground.Url

namespace Playground

/-- The URL of an engine: a complete URL is left as it is, anything else is joined to the base as
if that ended in a slash, and what cannot be joined is left as it is too. -/
def resolveUrl (base reference : String) : String :=
  if (Url.parse? none reference).isSome then reference
  else
    let folder := if base.toList.getLast? = some '/' then base else base ++ "/"
    match Url.parse? none folder with
    | none => reference
    | some b =>
      match Url.parse? (some b) reference with
      | none => reference
      | some joined => joined.text

end Playground
