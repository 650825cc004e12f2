import Playground.Markdown.Start

/-! Blocks of a document: paragraphs, lists, quotes, code and the like, with text not yet read. -/

namespace Playground.Markdown

inductive Block
  /-- With the box before it, when it is a task. -/
  | paragraph (task : Option Bool) (text : List Char)
  | heading (level : Nat) (text : List Char)
  | rule
  /-- With the first word that is said about it. -/
  | code (language : String) (text : List Char)
  | html (text : List Char)
  | quote (blocks : List Block)
  /-- In a loose list there is room between the items. -/
  | list (start : Option Nat) (loose : Bool) (items : List Block)
  | item (blocks : List Block)
  | table (alignments : List Alignment) (head : List (List Char)) (rows : List (List (List Char)))
  | note (label : String) (blocks : List Block)
  deriving Inhabited, Repr

/-- Blocks that take whole lines and hold no other blocks. What they hold stands with the latest
first. -/
inductive Leaf
  | paragraph (task : Option Bool) (lines : List (List Char))
  | fenced (fence : Fence) (language : String) (lines : List (List Char))
  | indented (lines : List (List Char))
  | html (until_ : MarkupEnd) (lines : List (List Char))
  | table (alignments : List Alignment) (head : List (List Char)) (rows : List (List (List Char)))
  deriving Repr

inductive Container
  | document
  | quote
  | list (sign : ListSign) (start : Option Nat) (loose : Bool)
  /-- With the columns that its lines begin with. -/
  | item (width : Nat)
  | note (label : String)
  deriving DecidableEq, Repr

/-- A container that is still open, with the blocks in it, the latest first. -/
structure Open where
  kind : Container
  blocks : List Block
  deriving Repr

def Open.toBlock (o : Open) : Block :=
  match o.kind with
  | .document | .quote => .quote o.blocks.reverse
  | .list _ start loose => .list start loose o.blocks.reverse
  | .item _ => .item o.blocks.reverse
  | .note label => .note label o.blocks.reverse

/-- What a line leaves for the inside of a container; none when it does not go on with it. An item
that has nothing in it yet ends at an empty line. -/
def Open.continue? (o : Open) (empty : Bool) (l : Line) : Option Line :=
  match o.kind with
  | .document | .list .. => some l
  | .quote =>
    if l.indent < 4 && l.text.head? == some '>' then
      let inner := l.dropText 1
      some (if inner.rest.head?.any isLineSpace then inner.dropSpace 1 else inner)
    else none
  | .item width =>
    if l.isBlankLine then if empty then none else some (l.dropSpace width)
    else if width ≤ l.indent then some (l.dropSpace width)
    else none
  | .note _ =>
    if l.isBlankLine || 4 ≤ l.indent then some (l.dropSpace 4) else none

def fitted (columns : Nat) (cells : List (List Char)) : List (List Char) :=
  cells.take columns ++ List.replicate (columns - cells.length) []

structure Draft where
  extended : Bool
  containers : List Open
  leaf : Option Leaf
  /-- After an empty line: how many containers the innermost quote around it has, itself
  included. -/
  blankIn : Option Nat
  task : Option Bool
  targets : List (String × Target)
  notes : List String

namespace Draft

def start (extended : Bool) : Draft := ⟨extended, [⟨.document, []⟩], none, none, none, [], []⟩

def depth (d : Draft) : Nat := d.containers.length

def put (b : Block) (d : Draft) : Draft :=
  match d.containers with
  | o :: outer => { d with containers := { o with blocks := b :: o.blocks } :: outer }
  | [] => d

def textLines (lines : List (List Char)) : List Char := ['\n'].intercalate lines.reverse

def takeDefinitions (lines : List (List Char)) (d : Draft) : List Char × Draft :=
  let text := textLines lines
  let (found, rest) := readDefinitions text.length text
  (trimLine rest, { d with targets := d.targets ++ found })

def closeLeaf (d : Draft) : Draft :=
  let bare := { d with leaf := none }
  match d.leaf with
  | none => d
  | some (.paragraph task lines) =>
    let (text, bare) := bare.takeDefinitions lines
    if text.isEmpty then bare else bare.put (.paragraph task text)
  | some (.fenced _ language lines) => bare.put (.code language lines.reverse.flatten)
  | some (.indented lines) =>
    let kept := lines.dropWhile fun line => line.all fun c => isLineSpace c || isLineEnd c
    bare.put (.code "" kept.reverse.flatten)
  | some (.html _ lines) => bare.put (.html lines.reverse.flatten)
  | some (.table alignments head rows) => bare.put (.table alignments head rows.reverse)

def closeContainer (d : Draft) : Draft :=
  match d.containers with
  | o :: outer => { d with containers := outer }.put o.toBlock
  | [] => d

def closeTo (n : Nat) (d : Draft) : Draft :=
  (List.range (d.depth - n)).foldl (fun d _ => d.closeContainer) d

/-- The enclosing list of the innermost container gets room between its items. -/
def loosen : List Open → List Open
  | [] => []
  | o :: outer =>
    match o.kind with
    | .list sign number _ => { o with kind := .list sign number true } :: outer
    | _ => o :: loosen outer

def afterBlank (d : Draft) : Bool := d.blankIn.any fun n => n ≤ d.depth

/-- Room before a new block in an item that has other blocks makes its list loose. -/
def beginBlock (d : Draft) : Draft :=
  match d.containers with
  | o :: outer =>
    match o.kind with
    | .item _ =>
      if d.afterBlank && !o.blocks.isEmpty then { d with containers := o :: loosen outer } else d
    | _ => d
  | [] => d

/-- Ends what a new block in the `n`-th container ends. A list only holds items. -/
def settle (n : Nat) (d : Draft) : Draft :=
  let d := d.closeLeaf.closeTo n
  match d.containers with
  | ⟨.list .., _⟩ :: _ => d.closeContainer.beginBlock
  | _ => d.beginBlock

def push (kind : Container) (d : Draft) : Draft :=
  { d with containers := ⟨kind, []⟩ :: d.containers }

def pushItem (n : Nat) (start : ItemStart) (width : Nat) (d : Draft) : Draft :=
  let d := d.closeLeaf.closeTo n
  match d.containers with
  | ⟨.list sign number loose, items⟩ :: outer =>
    if sign = start.sign then
      let list : Open := ⟨.list sign number (loose || d.afterBlank), items⟩
      { d with containers := list :: outer }.push (.item width)
    else (d.closeContainer.beginBlock.push (.list start.sign start.number false)).push (.item width)
  | _ => (d.beginBlock.push (.list start.sign start.number false)).push (.item width)

/-- How many open containers go on with a line, and what is left of it. The containers stand with
the outermost first. -/
def descend (leafOpen : Bool) : List Open → Line → Nat × Line
  | [], l => (0, l)
  | o :: inner, l =>
    match o.continue? (inner.isEmpty && o.blocks.isEmpty && !leafOpen) l with
    | some rest =>
      let (n, rest) := descend leafOpen inner rest
      (n + 1, rest)
    | none => (0, l)

def isParagraph : Option Leaf → Bool
  | some (.paragraph ..) => true
  | _ => false

def isTable : Option Leaf → Bool
  | some (.table ..) => true
  | _ => false

/-- An empty line in the `n`-th container; `fresh` when that container began on the line. -/
def addBlank (n : Nat) (fresh : Bool) (d : Draft) : Draft :=
  let quotes := (d.containers.reverse.take n).zipIdx.filter fun (o, _) => o.kind == .quote
  let blankIn := (quotes.getLast?.map fun (_, i) => i + 1).getD 0
  if fresh then d else { d.closeLeaf.closeTo n with blankIn := some blankIn }

/-- Text in the `n`-th container. A paragraph that is open takes it, also from further out. -/
def addText (n : Nat) (fresh : Bool) (l : Line) (d : Draft) : Draft :=
  match fresh, d.leaf with
  | false, some (.paragraph task lines) =>
    { d with leaf := some (.paragraph task (l.text :: lines)), blankIn := none }
  | _, leaf =>
    match !fresh && n == d.depth, leaf with
    | true, some (.table alignments head rows) =>
      let row := fitted alignments.length (rowCells l.text)
      { d with leaf := some (.table alignments head (row :: rows)), blankIn := none }
    | _, _ =>
      let d := d.settle n
      { d with leaf := some (.paragraph d.task [l.text]), task := none, blankIn := none }

def addUnderline (level : Nat) (lines : List (List Char)) (l : Line) (d : Draft) : Draft :=
  let (text, bare) := { d with leaf := none }.takeDefinitions lines
  if text.isEmpty then { bare with leaf := some (.paragraph none [l.text]) }
  else bare.put (.heading level text)

/-- The table whose head is the only line of the paragraph, when this is the line under it. -/
def tableUnder? (d : Draft) (l : Line) : Option Leaf :=
  match d.leaf with
  | some (.paragraph _ [line]) => do
    let alignments ← alignments? l.text
    let head := rowCells line
    if d.extended && line.contains '|' && head.length == alignments.length then
      return .table alignments head []
    else none
  | _ => none

/-- Begins the blocks that a line opens, one in the other, in the `n`-th container. `fuel` bounds
them, and `fresh` says that the line has opened a container already. -/
def addBlocks : Nat → Nat → Bool → Line → Draft → Draft
  | 0, n, fresh, l, d => d.addText n fresh l
  | fuel + 1, n, fresh, l, d =>
    let lazy := !fresh && isParagraph d.leaf
    let inParagraph := lazy && n == d.depth
    let inTable := !fresh && isTable d.leaf && n == d.depth
    let cs := l.text
    let done (d : Draft) : Draft := { d with blankIn := none }
    if l.isBlankLine then d.addBlank n fresh
    else if 4 ≤ l.indent then
      if lazy || inTable then d.addText n fresh l
      else done { d.settle n with leaf := some (.indented [(l.dropSpace 4).chars]) }
    else
      match inParagraph, tableUnder? d l, underline? cs, d.leaf with
      | true, some table, _, _ => done { d with leaf := some table }
      | true, none, some level, some (.paragraph _ lines) => done (d.addUnderline level lines l)
      | _, _, _, _ =>
        if cs.head? == some '>' then
          let inner := l.dropText 1
          let inner := if inner.rest.head?.any isLineSpace then inner.dropSpace 1 else inner
          let d := (d.settle n).push .quote
          addBlocks fuel d.depth true inner d
        else
          match heading? cs, fence? l.indent cs, markupEnd? lazy cs with
          | some (level, text), _, _ => done ((d.settle n).put (.heading level text))
          | none, some (fence, info), _ =>
            let language := (info.splitOn " ").head?.getD ""
            done { d.settle n with leaf := some (.fenced fence language []) }
          | none, none, some until_ =>
            let leaf := Leaf.html until_ [l.chars]
            let d := { d.settle n with leaf := some leaf }
            done (if until_.isReached cs then d.closeLeaf else d)
          | none, none, none =>
            if isRule cs then done ((d.settle n).put .rule)
            else
              match noteStart? cs, itemStart? cs with
              | some (label, width), _ =>
                if d.extended && n ≤ 1 then
                  let d := (d.settle 1).push (.note label)
                  let d := { d with notes := d.notes ++ [normalLabel label.toList] }
                  addBlocks fuel d.depth true (l.dropText width) d
                else d.addText n fresh l
              | none, some start =>
                let inner := l.dropText start.width
                let empty := inner.isBlankLine
                let interrupts := !empty && start.number.all (· == 1)
                if (inParagraph || inTable) && !interrupts then d.addText n fresh l
                else
                  let room := if empty || 4 < inner.indent then 1 else inner.indent
                  let inner := inner.dropSpace room
                  let d := d.pushItem n start (l.indent + start.width + room)
                  match d.extended, taskBox? inner.text with
                  | true, some ticked =>
                    addBlocks fuel d.depth true (inner.dropText 3) { d with task := some ticked }
                  | _, _ => addBlocks fuel d.depth true inner d
              | none, none => d.addText n fresh l

def addLine (d : Draft) (l : Line) : Draft :=
  let (n, rest) := descend d.leaf.isSome d.containers.reverse l
  let go := d.addBlocks (l.rest.length + 1) n false rest
  if n < d.depth then go
  else
    match d.leaf with
    | some (.fenced fence language lines) =>
      if fence.isClosedBy rest then { d.closeLeaf with blankIn := none }
      else
        let line := (rest.dropSpace (min fence.indent rest.indent)).chars
        { d with leaf := some (.fenced fence language (line :: lines)), blankIn := none }
    | some (.html until_ lines) =>
      if until_ == .blankLine && rest.isBlankLine then go
      else
        let d := { d with leaf := some (.html until_ (rest.chars :: lines)), blankIn := none }
        if until_.isReached rest.rest then d.closeLeaf else d
    | some (.indented lines) =>
      if rest.isBlankLine then
        let d := { d with leaf := none }.addBlank n false
        { d with leaf := some (.indented ((rest.dropSpace 4).chars :: lines)) }
      else if 4 ≤ rest.indent then
        { d with leaf := some (.indented ((rest.dropSpace 4).chars :: lines)), blankIn := none }
      else go
    | _ => go

def finish (d : Draft) : Draft := d.closeLeaf.closeTo 1

end Draft

/-- A document: its blocks, and what its text can refer to. -/
structure Document where
  blocks : List Block
  targets : List (String × Target)
  notes : List String

def Document.ofText (extended : Bool) (source : String) : Document :=
  let d := ((linesOf source).foldl Draft.addLine (.start extended)).finish
  ⟨(d.containers.flatMap Open.blocks).reverse, d.targets, d.notes⟩

end Playground.Markdown
