import Playground.Markdown.Text

/-! Markup that stands in text as it is: tags, comments, declarations, and addresses in angle
brackets. -/

namespace Playground.Markdown

def isTagNameChar (c : Char) : Bool := isAsciiLetter c || isAsciiDigit c || c == '-'

def isAttributeStart (c : Char) : Bool := isAsciiLetter c || c == '_' || c == ':'

def isAttributeChar (c : Char) : Bool :=
  isAttributeStart c || isAsciiDigit c || c == '.' || c == '-'

def isUnquotedChar (c : Char) : Bool :=
  !(isLineSpace c || isLineEnd c || c == '"' || c == '\'' || c == '=' || c == '<' || c == '>' ||
    c.toNat == 0x60)

def skipTagSpace (cs : List Char) : List Char := cs.dropWhile fun c => isLineSpace c || isLineEnd c

def tagName? : List Char → Option (List Char)
  | c :: rest => if isAsciiLetter c then some (rest.dropWhile isTagNameChar) else none
  | [] => none

def closeQuote? (quote : Char) (cs : List Char) : Option (List Char) :=
  match cs.dropWhile (· != quote) with
  | _ :: rest => some rest
  | [] => none

def attributeValue? (cs : List Char) : Option (List Char) :=
  match skipTagSpace cs with
  | '=' :: rest =>
    match skipTagSpace rest with
    | '"' :: rest => closeQuote? '"' rest
    | '\'' :: rest => closeQuote? '\'' rest
    | c :: rest => if isUnquotedChar c then some (rest.dropWhile isUnquotedChar) else none
    | [] => none
  | _ => some cs

def openTagRest? : Nat → List Char → Option (List Char)
  | 0, _ => none
  | fuel + 1, cs =>
    let spaced := skipTagSpace cs
    match spaced with
    | '>' :: rest | '/' :: '>' :: rest => some rest
    | c :: rest =>
      if spaced.length < cs.length && isAttributeStart c then do
        openTagRest? fuel (← attributeValue? (rest.dropWhile isAttributeChar))
      else none
    | [] => none

def openTag? (cs : List Char) : Option (List Char) := do
  openTagRest? cs.length (← tagName? cs)

def closeTag? : List Char → Option (List Char)
  | '/' :: rest => do
    match skipTagSpace (← tagName? rest) with
    | '>' :: rest => return rest
    | _ => none
  | _ => none

def pastText? (closing : List Char) : List Char → Option (List Char)
  | [] => none
  | c :: rest =>
    if closing.isPrefixOf (c :: rest) then some ((c :: rest).drop closing.length)
    else pastText? closing rest

def comment? : List Char → Option (List Char)
  | '!' :: '-' :: '-' :: '>' :: rest => some rest
  | '!' :: '-' :: '-' :: '-' :: '>' :: rest => some rest
  | '!' :: '-' :: '-' :: rest => pastText? ['-', '-', '>'] rest
  | _ => none

def declaration? : List Char → Option (List Char)
  | '?' :: rest => pastText? ['?', '>'] rest
  | '!' :: '[' :: 'C' :: 'D' :: 'A' :: 'T' :: 'A' :: '[' :: rest => pastText? [']', ']', '>'] rest
  | '!' :: c :: rest => if isAsciiLetter c then pastText? ['>'] rest else none
  | _ => none

def inlineMarkup? (cs : List Char) : Option (List Char) :=
  (openTag? cs).or <| (closeTag? cs).or <| (comment? cs).or (declaration? cs)

def isSchemeChar (c : Char) : Bool :=
  isAsciiLetter c || isAsciiDigit c || c == '+' || c == '.' || c == '-'

def addressChars? (cs : List Char) : Option (List Char × List Char) :=
  let inside := cs.takeWhile fun c => c != '>' && c != '<' && ' ' < c
  match cs.drop inside.length with
  | '>' :: rest => some (inside, rest)
  | _ => none

def urlAddress? (cs : List Char) : Option (String × List Char) := do
  let scheme := cs.takeWhile isSchemeChar
  if scheme.length < 2 || 32 < scheme.length || !(cs.head?.any isAsciiLetter) then none
  else
    match cs.drop scheme.length with
    | ':' :: _ =>
      let (inside, rest) ← addressChars? cs
      return (String.ofList inside, rest)
    | _ => none

def isMailChar (c : Char) : Bool :=
  isAsciiLetter c || isAsciiDigit c || c.toNat == 0x60 ||
    ['.', '!', '#', '$', '%', '&', '\'', '*', '+', '/', '=', '?', '^', '_', '{', '|', '}', '~',
      '-'].contains c

def isHostLabel (cs : List Char) : Bool :=
  !cs.isEmpty && cs.length ≤ 63 && cs.all isTagNameChar && cs.head? != some '-' &&
    cs.getLast? != some '-'

def mailAddress? (cs : List Char) : Option (String × List Char) := do
  let (inside, rest) ← addressChars? cs
  let name := inside.takeWhile isMailChar
  match inside.drop name.length with
  | '@' :: host =>
    let labels := (String.ofList host).splitOn "."
    if name.isEmpty || !labels.all (fun label => isHostLabel label.toList) then none
    else return (String.ofList inside, rest)
  | _ => none

end Playground.Markdown
