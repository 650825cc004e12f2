import Playground.Markdown.Block
import Playground.Markdown.Inline
import Playground.Text.Bytes

namespace Playground.Markdown

def bodyChar (c : Char) : List Char :=
  if c = '&' then "&amp;".toList
  else if c = '<' then "&lt;".toList
  else if c = '>' then "&gt;".toList
  else [c]

def attributeChar (c : Char) : List Char :=
  if c = '"' then "&quot;".toList
  else if c = '\'' then "&#x27;".toList
  else bodyChar c

def isUrlChar (c : Char) : Bool :=
  isAsciiLetter c || isAsciiDigit c ||
    ['!', '#', '$', '%', '(', ')', '*', '+', ',', '-', '.', '/', ':', ';', '=', '?', '@', '_',
      '~'].contains c

def percentByte (b : UInt8) : List Char :=
  ['%', (hexDigit (b.toNat / 16)).toUpper, (hexDigit (b.toNat % 16)).toUpper]

def urlChar (c : Char) : List Char :=
  if isUrlChar c then [c]
  else if c = '&' then "&amp;".toList
  else if c = '\'' then "&#x27;".toList
  else (bytesOf (String.singleton c)).flatMap percentByte

def escapedWith (escape : Char → List Char) (s : String) : String :=
  String.ofList (s.toList.flatMap escape)

/-- Text as it grows, and the labels of the notes met in it, by which they are numbered. -/
structure Page where
  text : String
  notes : List String
  deriving DecidableEq, Repr

namespace Page

def empty : Page := ⟨"", []⟩

def write (s : String) (p : Page) : Page := { p with text := p.text ++ s }

def onNewLine (p : Page) : Page :=
  if p.text.isEmpty || p.text.toList.getLast? == some '\n' then p else p.write "\n"

def meet (label : String) (p : Page) : Page :=
  if p.notes.contains label then p else { p with notes := p.notes ++ [label] }

def noteNumber (label : String) (p : Page) : String := toString (p.notes.idxOf label + 1)

end Page

def titleAttribute (title : String) : String :=
  if title.isEmpty then "" else "\" title=\"" ++ escapedWith attributeChar title

mutual

def writePlain (i : Inline) (p : Page) : Page :=
  match i with
  | .text s | .code s | .html s => p.write (escapedWith attributeChar s)
  | .softBreak | .hardBreak => p.write " "
  | .emphasis inside | .strong inside | .struck inside | .link _ inside | .image _ inside =>
    writePlains inside p
  | .note label =>
    let p := p.meet label
    p.write ("[" ++ p.noteNumber label ++ "]")
  | .task done => p.write (if done then "[x]" else "[ ]")

def writePlains (is : List Inline) (p : Page) : Page :=
  match is with
  | [] => p
  | i :: rest => writePlains rest (writePlain i p)

end

mutual

def writeInline (i : Inline) (p : Page) : Page :=
  match i with
  | .text s => p.write (escapedWith bodyChar s)
  | .code s => p.write ("<code>" ++ escapedWith bodyChar s ++ "</code>")
  | .html s => p.write s
  | .softBreak => p.write "\n"
  | .hardBreak => p.write "<br />\n"
  | .emphasis inside => (writeInlines inside (p.write "<em>")).write "</em>"
  | .strong inside => (writeInlines inside (p.write "<strong>")).write "</strong>"
  | .struck inside => (writeInlines inside (p.write "<del>")).write "</del>"
  | .link t inside =>
    let opened := "<a href=\"" ++ escapedWith urlChar t.url ++ titleAttribute t.title ++ "\">"
    (writeInlines inside (p.write opened)).write "</a>"
  | .image t inside =>
    let opened := "<img src=\"" ++ escapedWith urlChar t.url ++ "\" alt=\""
    (writePlains inside (p.write opened)).write (titleAttribute t.title ++ "\" />")
  | .note label =>
    let p := p.meet label
    p.write ("<sup class=\"footnote-reference\"><a href=\"#" ++ escapedWith attributeChar label ++
      "\">" ++ p.noteNumber label ++ "</a></sup>")
  | .task done =>
    p.write ("<input disabled=\"\" type=\"checkbox\"" ++ (if done then " checked=\"\"" else "") ++
      "/>\n")

def writeInlines (is : List Inline) (p : Page) : Page :=
  match is with
  | [] => p
  | i :: rest => writeInlines rest (writeInline i p)

end

def writeText (refs : References) (text : List Char) (p : Page) : Page :=
  writeInlines (inlinesOf refs text) p

def cellStart (tag : String) : Alignment → String
  | .unset => "<" ++ tag ++ ">"
  | .left => "<" ++ tag ++ " style=\"text-align: left\">"
  | .center => "<" ++ tag ++ " style=\"text-align: center\">"
  | .right => "<" ++ tag ++ " style=\"text-align: right\">"

def writeCells (refs : References) (tag : String) (alignments : List Alignment)
    (cells : List (List Char)) (p : Page) : Page :=
  (cells.zip alignments).foldl
    (fun p (cell, alignment) =>
      (writeText refs cell (p.write (cellStart tag alignment))).write ("</" ++ tag ++ ">")) p

def writeRows (refs : References) (alignments : List Alignment) (rows : List (List (List Char)))
    (p : Page) : Page :=
  rows.foldl (fun p row => (writeCells refs "td" alignments row (p.write "<tr>")).write "</tr>\n") p

def listStart : Option Nat → String
  | none => "<ul>\n"
  | some 1 => "<ol>\n"
  | some n => "<ol start=\"" ++ toString n ++ "\">\n"

def listEnd (start : Option Nat) : String := if start.isSome then "</ol>\n" else "</ul>\n"

def codeStart (language : String) : String :=
  if language.isEmpty then "<pre><code>"
  else "<pre><code class=\"language-" ++ escapedWith attributeChar language ++ "\">"

def headingTag (level : Nat) : String := "h" ++ toString level

mutual

/-- Writes a block. Paragraphs right in the items of a `tight` list stand without tags. -/
def writeBlock (refs : References) (tight : Bool) (b : Block) (p : Page) : Page :=
  match b with
  | .paragraph task text =>
    let box (p : Page) := match task with
      | some done => writeInline (.task done) p
      | none => p
    if tight then writeText refs text (box p)
    else (writeText refs text (box (p.onNewLine.write "<p>"))).write "</p>\n"
  | .heading level text =>
    let opened := p.onNewLine.write ("<" ++ headingTag level ++ ">")
    (writeText refs text opened).write ("</" ++ headingTag level ++ ">\n")
  | .rule => p.onNewLine.write "<hr />\n"
  | .code language text =>
    let opened := p.onNewLine.write (codeStart language)
    opened.write (escapedWith bodyChar (String.ofList text) ++ "</code></pre>\n")
  | .html text => p.write (String.ofList text)
  | .quote blocks =>
    (writeBlocks refs false blocks (p.onNewLine.write "<blockquote>\n")).write "</blockquote>\n"
  | .list start loose items =>
    (writeBlocks refs (!loose) items (p.onNewLine.write (listStart start))).write (listEnd start)
  | .item blocks => (writeBlocks refs tight blocks (p.onNewLine.write "<li>")).write "</li>\n"
  | .table alignments head rows =>
    let headed := writeCells refs "th" alignments head (p.write "<table><thead><tr>")
    let body := writeRows refs alignments rows (headed.write "</tr></thead><tbody>\n")
    body.write "</tbody></table>\n"
  | .note label blocks =>
    let opened := (p.onNewLine.write ("<div class=\"footnote-definition\" id=\"" ++
      escapedWith attributeChar label ++ "\"><sup class=\"footnote-definition-label\">")).meet label
    let labelled := opened.write (opened.noteNumber label ++ "</sup>")
    (writeBlocks refs false blocks labelled).write "</div>\n"

def writeBlocks (refs : References) (tight : Bool) (bs : List Block) (p : Page) : Page :=
  match bs with
  | [] => p
  | b :: rest => writeBlocks refs tight rest (writeBlock refs tight b p)

end

/-- A document as HTML; `extended` turns on tables, struck text, tasks and notes. -/
def toHtml (extended : Bool) (source : String) : String :=
  let d := Document.ofText extended source
  (writeBlocks ⟨extended, d.targets, d.notes⟩ false d.blocks .empty).text

end Playground.Markdown
