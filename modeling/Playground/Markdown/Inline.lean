import Playground.Markdown.Link
import Playground.Markdown.Tag

/-! Text with emphasis, links and code in it. -/

namespace Playground.Markdown

inductive Inline
  | text (s : String)
  | code (s : String)
  | html (s : String)
  | softBreak
  | hardBreak
  | emphasis (inside : List Inline)
  | strong (inside : List Inline)
  | struck (inside : List Inline)
  | link (target : Target) (inside : List Inline)
  | image (target : Target) (inside : List Inline)
  | note (label : String)
  /-- The box of a task, and whether it is ticked. -/
  | task (done : Bool)
  deriving Inhabited, Repr

/-- What text can refer to, and whether it may use more than the common marks. -/
structure References where
  extended : Bool
  targets : List (String × Target)
  notes : List String

structure Run where
  mark : Char
  count : Nat
  length : Nat
  canOpen : Bool
  canClose : Bool
  deriving DecidableEq, Repr

def Run.both (r : Run) : Bool := r.canOpen && r.canClose

inductive Piece
  | done (i : Inline)
  | run (r : Run)

def Run.mayOpen (mark : Char) (length : Nat) (before after : Option Char) : Bool :=
  match before, after with
  | _, none => false
  | none, some a => !isBlank a
  | some b, some a =>
    !isBlank a && ((mark == '*' && !isPunctuation a) || (mark == '~' && 1 < length) ||
      isBlank b || isPunctuation b)

def Run.mayClose (mark : Char) (length : Nat) (before after : Option Char) : Bool :=
  match before, after with
  | none, _ => false
  | some b, none => !isBlank b
  | some b, some a =>
    !isBlank b && (((mark == '*' || (mark == '~' && 1 < length)) && !isPunctuation b) ||
      isBlank a || isPunctuation a)

def Run.closes (close open_ : Run) : Bool :=
  close.mark == open_.mark &&
    (if close.mark == '~' then close.length == open_.length
    else (!close.both && !open_.both) || (close.length + open_.length) % 3 != 0 ||
      close.length % 3 == 0)

def Run.text (r : Run) : Inline := .text (String.ofList (List.replicate r.count r.mark))

/-- Emphasis of `count` marks: two at a time for strong ones, and a single one outside. -/
def wrapped (mark : Char) : Nat → List Inline → List Inline
  | 0, inside => inside
  | 1, inside => if mark = '~' then [.struck inside] else [.emphasis inside]
  | count + 2, inside =>
    if mark = '~' then [.struck inside] else wrapped mark count [.strong inside]

/-- An opening run and what follows it, the latest first. -/
structure Opener where
  run : Run
  inside : List Inline

/-- Emphasis that is not settled yet: the opening runs, innermost first, and what stands before
them all. -/
structure Nest where
  base : List Inline
  openers : List Opener

namespace Nest

def empty : Nest := ⟨[], []⟩

def add (is : List Inline) (n : Nest) : Nest :=
  match n.openers with
  | [] => { n with base := is ++ n.base }
  | o :: more => { n with openers := { o with inside := is ++ o.inside } :: more }

def unopened (openers : List Opener) : List Inline :=
  openers.flatMap fun o => o.inside ++ [o.run.text]

def close : Nat → Run → Nest → Run × Nest
  | 0, r, n => (r, n)
  | fuel + 1, r, n =>
    if r.count = 0 then (r, n)
    else
      let inner := n.openers.takeWhile fun o => !r.closes o.run
      match n.openers.drop inner.length with
      | [] => (r, n)
      | o :: outer =>
        let used := min r.count o.run.count
        let inside := (unopened inner ++ o.inside).reverse
        let settled := wrapped r.mark used inside
        let rest : Nest := { n with openers := outer }
        let left := o.run.count - used
        let next :=
          if left = 0 then rest.add settled
          else { n with openers := ⟨{ o.run with count := left }, settled⟩ :: outer }
        close fuel { r with count := r.count - used } next

def addPiece (n : Nest) : Piece → Nest
  | .done i => n.add [i]
  | .run r =>
    let (r, n) := if r.canClose then n.close (n.openers.length + r.count) r else (r, n)
    if r.count = 0 then n
    else if r.canOpen then { n with openers := ⟨r, []⟩ :: n.openers }
    else n.add [r.text]

def toList (n : Nest) : List Inline := (unopened n.openers ++ n.base).reverse

end Nest

def settled (pieces : List Piece) : List Inline :=
  (pieces.reverse.foldl Nest.addPiece .empty).toList

/-- The characters up to a run of exactly `count` backticks, and what follows it. `fuel` bounds the
runs. -/
def codeChars? (count : Nat) : Nat → List Char → Option (List Char × List Char)
  | 0, _ => none
  | fuel + 1, cs =>
    let tick := Char.ofNat 0x60
    let before := cs.takeWhile (· != tick)
    let rest := cs.drop before.length
    let run := (rest.takeWhile (· == tick)).length
    if run = 0 then none
    else if run = count then some (before, rest.drop run)
    else
      (codeChars? count fuel (rest.drop run)).map fun (more, after) =>
        (before ++ rest.take run ++ more, after)

def codeText (cs : List Char) : String :=
  let line := cs.map fun c => if isLineEnd c then ' ' else c
  let bare :=
    match line with
    | ' ' :: rest =>
      if rest.getLast? == some ' ' && !line.all (· == ' ') then rest.dropLast else line
    | _ => line
  String.ofList bare

structure Bracket where
  image : Bool
  /-- Whether it may still become a link; links do not stand in links. -/
  active : Bool
  below : List Piece
  source : List Char

/-- Text while it is read: pieces with the latest first, and the brackets around them, innermost
first. -/
structure Reading where
  pieces : List Piece
  brackets : List Bracket

namespace Reading

def empty : Reading := ⟨[], []⟩

def add (i : Inline) (r : Reading) : Reading := { r with pieces := .done i :: r.pieces }

def addText (s : String) (r : Reading) : Reading := r.add (.text s)

def addRun (run : Run) (r : Reading) : Reading := { r with pieces := .run run :: r.pieces }

def openBracket (image : Bool) (source : List Char) (r : Reading) : Reading :=
  ⟨[], ⟨image, true, r.pieces, source⟩ :: r.brackets⟩

def bracketText (b : Bracket) : Piece := .done (.text (if b.image then "![" else "["))

def dissolve (b : Bracket) (outer : List Bracket) (r : Reading) : Reading :=
  ⟨r.pieces ++ bracketText b :: b.below, outer⟩

def replaceBracket (b : Bracket) (outer : List Bracket) (i : Inline) : Reading :=
  let outer := if b.image then outer
    else outer.map fun o => if o.image then o else { o with active := false }
  ⟨.done i :: b.below, outer⟩

def finish (r : Reading) : List Inline :=
  settled (r.brackets.foldl (fun pieces b => pieces ++ bracketText b :: b.below) r.pieces)

end Reading

/-- What a closing bracket ends: a link or an image with its target, or a note. -/
inductive Closing
  | target (t : Target)
  | note (label : String)

/-- What the text in brackets and the text after them mean together, and what is left. -/
def closing? (refs : References) (inside rest : List Char) : Option (Closing × List Char) :=
  let direct := match rest with
    | '(' :: after => readTarget? after
    | _ => none
  let named (label : String) := (refs.targets.lookup label).map Closing.target
  let own (rest : List Char) : Option (Closing × List Char) :=
    match readLabel? (inside ++ [']']) with
    | some (label, []) =>
      match inside with
      | '^' :: name =>
        let note := normalLabel name
        if refs.extended && refs.notes.contains note then some (.note (String.ofList name), rest)
        else (named label).map (·, rest)
      | _ => (named label).map (·, rest)
    | _ => none
  match direct, rest with
  | some (t, after), _ => some (.target t, after)
  | none, '[' :: ']' :: after => own after
  | none, '[' :: after =>
    match readLabel? after with
    | some (label, after) => (named label).map (·, after)
    | none => own rest
  | none, _ => own rest

def closeBracket (refs : References) (rest : List Char) (r : Reading) : Reading × List Char :=
  match r.brackets with
  | [] => (r.addText "]", rest)
  | b :: outer =>
    let plain := ((r.dissolve b outer).addText "]", rest)
    if !b.active then plain
    else
      let inside := b.source.take (b.source.length - (rest.length + 1))
      match closing? refs inside rest with
      | none => plain
      | some (.note label, after) =>
        let below := if b.image then .done (.text "!") :: b.below else b.below
        (⟨.done (.note label) :: below, outer⟩, after)
      | some (.target t, after) =>
        let inside := settled r.pieces
        let element := if b.image then Inline.image t inside else .link t inside
        (Reading.replaceBracket b outer element, after)

def isSpecial (extended : Bool) (c : Char) : Bool :=
  ['\\', '<', '&', '*', '_', '[', ']', '!', ' ', '\n', '\x00'].contains c || c.toNat == 0x60 ||
    (extended && c == '~')

/-- Spaces before the end of a line are a break, or nothing; elsewhere they are text. -/
def readSpaces (cs : List Char) (r : Reading) : Reading × List Char :=
  let count := (cs.takeWhile (· == ' ')).length
  match cs.drop count with
  | '\n' :: rest => (r.add (if count < 2 then .softBreak else .hardBreak), rest)
  | rest => (r.addText (String.ofList (List.replicate count ' ')), rest)

def readAngle (rest : List Char) (r : Reading) : Reading × List Char :=
  match urlAddress? rest, mailAddress? rest, inlineMarkup? rest with
  | some (url, after), _, _ => (r.add (.link ⟨url, ""⟩ [.text url]), after)
  | none, some (mail, after), _ => (r.add (.link ⟨"mailto:" ++ mail, ""⟩ [.text mail]), after)
  | none, none, some after =>
    let markup := '<' :: rest.take (rest.length - after.length)
    (r.add (.html (String.ofList markup)), after)
  | none, none, none => (r.addText "<", rest)

def readRun (mark : Char) (before : Option Char) (cs : List Char) (r : Reading) :
    Reading × List Char :=
  let count := (cs.takeWhile (· == mark)).length
  let rest := cs.drop count
  let run : Run := ⟨mark, count, count, Run.mayOpen mark count before rest.head?,
    Run.mayClose mark count before rest.head?⟩
  if (mark == '~' && 2 < count) || !(run.canOpen || run.canClose) then
    (r.add run.text, rest)
  else (r.addRun run, rest)

def readNext (refs : References) (before : Option Char) (c : Char) (rest : List Char)
    (r : Reading) : Reading × List Char :=
  match c, rest with
  | '\\', '\n' :: after => (r.add .hardBreak, after)
  | '\\', d :: after =>
    if isAsciiPunctuation d then (r.addText (String.singleton d), after)
    else (r.addText "\\", d :: after)
  | '\n', after => (r.add .softBreak, after)
  | ' ', after => readSpaces (' ' :: after) r
  | '<', after => readAngle after r
  | '&', after =>
    match reference? after with
    | some (d, after) => (r.addText (String.singleton d), after)
    | none => (r.addText "&", after)
  | '!', '[' :: after => (r.openBracket true after, after)
  | '[', after => (r.openBracket false after, after)
  | ']', after => closeBracket refs after r
  | '\x00', after => (r.addText "\ufffd", after)
  | c, after =>
    if c.toNat = 0x60 then
      let count := ((c :: after).takeWhile (· == c)).length
      let rest := (c :: after).drop count
      match codeChars? count (rest.length + 1) rest with
      | some (code, rest) => (r.add (.code (codeText code)), rest)
      | none => (r.addText (String.ofList (List.replicate count c)), rest)
    else if c = '*' ∨ c = '_' ∨ (refs.extended ∧ c = '~') then readRun c before (c :: after) r
    else
      let plain := after.takeWhile fun d => !isSpecial refs.extended d
      (r.addText (String.ofList (c :: plain)), after.drop plain.length)

def readInlines (refs : References) : Nat → Option Char → List Char → Reading → Reading
  | 0, _, _, r => r
  | _, _, [], r => r
  | fuel + 1, before, c :: rest, r =>
    let (r, after) := readNext refs before c rest r
    let taken := (c :: rest).take ((c :: rest).length - after.length)
    readInlines refs fuel taken.getLast? after r

def inlinesOf (refs : References) (cs : List Char) : List Inline :=
  (readInlines refs cs.length none cs .empty).finish

end Playground.Markdown
