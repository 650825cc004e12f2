import Playground.Markdown.Line
import Playground.Markdown.Link
import Playground.Markdown.Tag

/-! How blocks begin: what the first characters of a line say about it. -/

namespace Playground.Markdown

/-- Signs in front of list items; items with the same sign make one list. -/
inductive ListSign
  | bullet (sign : Char)
  | ordered (after : Char)
  deriving DecidableEq, Repr

def isRule (cs : List Char) : Bool :=
  match cs with
  | c :: _ =>
    (c == '*' || c == '-' || c == '_') && cs.all (fun d => d == c || isLineSpace d) &&
      3 ≤ cs.count c
  | [] => false

def trimLine (cs : List Char) : List Char :=
  ((cs.dropWhile isLineSpace).reverse.dropWhile isLineSpace).reverse

/-- The text of a heading without the marks that close it, which stand behind space. -/
def headingText (cs : List Char) : List Char :=
  let text := trimLine cs
  let bare := (text.reverse.dropWhile (· == '#')).reverse
  if bare.isEmpty then []
  else if bare.length < text.length && bare.getLast?.any isLineSpace then trimLine bare
  else text

def heading? (cs : List Char) : Option (Nat × List Char) :=
  let level := (cs.takeWhile (· == '#')).length
  let rest := cs.drop level
  if 1 ≤ level && level ≤ 6 && rest.head?.all isLineSpace then some (level, headingText rest)
  else none

def underline? (cs : List Char) : Option Nat :=
  match cs with
  | c :: _ =>
    let rest := cs.dropWhile (· == c)
    if rest.all isLineSpace then if c = '=' then some 1 else if c = '-' then some 2 else none
    else none
  | [] => none

structure Fence where
  mark : Char
  length : Nat
  /-- The space before it, which is taken off the lines of code too. -/
  indent : Nat
  deriving DecidableEq, Repr

def isFenceMark (c : Char) : Bool := c == '~' || c.toNat == 0x60

def fence? (indent : Nat) (cs : List Char) : Option (Fence × String) :=
  match cs with
  | c :: _ =>
    let length := (cs.takeWhile (· == c)).length
    let info := trimLine (cs.drop length)
    if isFenceMark c && 3 ≤ length && (c == '~' || !info.contains c) then
      some (⟨c, length, indent⟩, plainText info)
    else none
  | [] => none

def Fence.isClosedBy (f : Fence) (l : Line) : Bool :=
  let count := (l.text.takeWhile (· == f.mark)).length
  l.indent < 4 && f.length ≤ count && (l.text.drop count).all isLineSpace

structure ItemStart where
  sign : ListSign
  /-- The number of the item, in an ordered list. -/
  number : Option Nat
  /-- How many characters sign and number take. -/
  width : Nat
  deriving DecidableEq, Repr

def itemStart? (cs : List Char) : Option ItemStart :=
  let digits := cs.takeWhile isAsciiDigit
  let endsAt (rest : List Char) := rest.head?.all isLineSpace
  match cs.drop digits.length with
  | c :: rest =>
    if !endsAt rest then none
    else if digits.isEmpty then
      if c = '-' ∨ c = '+' ∨ c = '*' then some ⟨.bullet c, none, 1⟩ else none
    else if (c = '.' ∨ c = ')') ∧ digits.length ≤ 9 then
      let number := digits.foldl (fun n d => n * 10 + (d.toNat - 48)) 0
      some ⟨.ordered c, some number, digits.length + 1⟩
    else none
  | [] => none

def noteStart? (cs : List Char) : Option (String × Nat) :=
  match cs with
  | '[' :: '^' :: rest =>
    match labelChars rest with
    | some (label, ':' :: after) =>
      if label.all isBlank then none
      else some (String.ofList label, cs.length - after.length)
    | _ => none
  | _ => none

def taskBox? : List Char → Option Bool
  | '[' :: c :: ']' :: d :: _ =>
    if !isLineSpace d then none
    else if c = 'x' ∨ c = 'X' then some true
    else if isLineSpace c then some false
    else none
  | _ => none

/-- Where a block of markup ends: after a line that holds one of these texts, or before an empty
line. -/
inductive MarkupEnd
  | after (texts : List String)
  | blankLine
  deriving DecidableEq, Repr

def verbatimTags : List String := ["pre", "script", "style", "textarea"]

def blockTags : List String :=
  ["address", "article", "aside", "base", "basefont", "blockquote", "body", "caption", "center",
    "col", "colgroup", "dd", "details", "dialog", "dir", "div", "dl", "dt", "fieldset",
    "figcaption", "figure", "footer", "form", "frame", "frameset", "h1", "h2", "h3", "h4", "h5",
    "h6", "head", "header", "hr", "html", "iframe", "legend", "li", "link", "main", "menu",
    "menuitem", "nav", "noframes", "ol", "optgroup", "option", "p", "param", "search", "section",
    "summary", "table", "tbody", "td", "tfoot", "th", "thead", "title", "tr", "track", "ul"]

def tagHead (cs : List Char) : String × List Char :=
  let name := cs.takeWhile isNameChar
  (lowerAscii (String.ofList name), cs.drop name.length)

def isVerbatimStart (cs : List Char) : Bool :=
  let (name, rest) := tagHead cs
  verbatimTags.contains name && rest.head?.all fun c => isLineSpace c || c == '>'

def isBlockStart (cs : List Char) : Bool :=
  let (name, rest) := tagHead (match cs with
    | '/' :: rest => rest
    | cs => cs)
  blockTags.contains name &&
    (rest.head?.all (fun c => isLineSpace c || c == '>') || ['/', '>'].isPrefixOf rest)

def isLoneTag (cs : List Char) : Bool :=
  match (openTag? cs).or (closeTag? cs) with
  | some rest => rest.all isLineSpace
  | none => false

/-- The block of markup that begins here. A lone tag does not break into a paragraph. -/
def markupEnd? (inParagraph : Bool) (cs : List Char) : Option MarkupEnd :=
  match cs with
  | '<' :: rest =>
    if isVerbatimStart rest then
      some (.after ["</pre>", "</script>", "</style>", "</textarea>"])
    else if "!--".toList.isPrefixOf rest then some (.after ["-->"])
    else if "?".toList.isPrefixOf rest then some (.after ["?>"])
    else if "![CDATA[".toList.isPrefixOf rest then some (.after ["]]>"])
    else if (rest.head? == some '!') && (rest.drop 1).head?.any isAsciiLetter then
      some (.after [">"])
    else if isBlockStart rest then some .blankLine
    else if !inParagraph && isLoneTag rest then some .blankLine
    else none
  | _ => none

def MarkupEnd.isReached (e : MarkupEnd) (line : List Char) : Bool :=
  match e with
  | .after texts => texts.any fun t => (pastText? t.toList (line.map Char.toLower)).isSome
  | .blankLine => false

inductive Alignment
  | unset
  | left
  | center
  | right
  deriving DecidableEq, Repr

def splitBars : List Char → List (List Char)
  | [] => [[]]
  | '\\' :: '|' :: rest =>
    match splitBars rest with
    | cell :: more => ('|' :: cell) :: more
    | [] => [['|']]
  | '|' :: rest => [] :: splitBars rest
  | c :: rest =>
    match splitBars rest with
    | cell :: more => (c :: cell) :: more
    | [] => [[c]]

def rowCells (cs : List Char) : List (List Char) :=
  let line := trimLine cs
  let inner := match line with
    | '|' :: rest => rest
    | line => line
  let cells := splitBars inner
  let cells := if 1 < cells.length && cells.getLast?.any (·.all isLineSpace) then cells.dropLast
    else cells
  cells.map trimLine

def alignment? (cell : List Char) : Option Alignment :=
  let left := cell.head? == some ':'
  let dashes := cell.drop (if left then 1 else 0)
  let right := dashes.getLast? == some ':'
  let dashes := if right then dashes.dropLast else dashes
  if dashes.isEmpty || !dashes.all (· == '-') then none
  else
    some (match left, right with
      | true, true => .center
      | true, false => .left
      | false, true => .right
      | false, false => .unset)

def alignments? (cs : List Char) : Option (List Alignment) :=
  if cs.contains '|' then (rowCells cs).mapM alignment? else none

end Playground.Markdown
