import Playground.Html.Entity
import Playground.Html.Token

/-! The elements of a markup text with their places in it, in the order of their open tags. -/

namespace Playground.Html

structure Attribute where
  name : String
  /-- With its references decoded; none for a bare attribute. -/
  value : Option String
  span : Span
  valueSpan : Option Span
  quoted : Bool
  deriving DecidableEq, Repr

structure Element where
  tag : String
  attrs : List Attribute
  start : Nat
  /-- Where the `>` or `/>` of the open tag stands. -/
  attrsEnd : Nat
  openEnd : Nat
  /-- Where the close tag starts; none for elements that cannot have content. -/
  closeStart : Option Nat
  stop : Nat
  deriving DecidableEq, Repr

def textIn (doc : String) (span : Span) : String :=
  String.ofList ((Text.slice? doc.toList span.start span.stop).getD [])

namespace Element

def span (e : Element) : Span := ⟨e.start, e.stop⟩

def content? (e : Element) : Option Span := e.closeStart.map fun close => ⟨e.openEnd, close⟩

def inner (e : Element) (doc : String) : String :=
  match e.content? with
  | some span => textIn doc span
  | none => ""

def find? (e : Element) (name : String) : Option Attribute :=
  e.attrs.find? fun a => sameIgnoringCase a.name name

/-- The value of the first attribute of that name; a bare attribute has the empty one. -/
def attr? (e : Element) (name : String) : Option String :=
  (e.find? name).map fun a => a.value.getD ""

def dataAttrs (e : Element) : List (String × String) :=
  e.attrs.filterMap fun a =>
    (Text.dropLead? "data-".toList a.name.toList).map fun name =>
      (String.ofList name, a.value.getD "")

/-- Whether this is a script whose type, trimmed, is `type_` in any letter case. -/
def isScriptOf (e : Element) (type_ : String) : Bool :=
  e.tag == "script" &&
    match e.attr? "type" with
    | some value => sameIgnoringCase (trimBlanks value) type_
    | none => false

end Element

namespace RawAttribute

def place (a : RawAttribute) (pos : Nat) : Attribute :=
  let nameStart := pos + Text.size a.lead
  let nameEnd := nameStart + Text.size a.name
  let valueSpan := a.value.map fun v =>
    let start := nameEnd + Text.size v.lead + Text.size v.quoteLexeme
    Span.mk start (start + Text.size v.text)
  { name := String.ofList (Text.lower a.name)
    value := a.value.map fun v => Entity.decode (String.ofList v.text)
    span := ⟨nameStart, nameEnd + Text.size a.valueLexeme⟩
    valueSpan := valueSpan
    quoted := (a.value.bind RawValue.quote).isSome }

def placeAll : Nat → List RawAttribute → List Attribute
  | _, [] => []
  | pos, a :: as => a.place pos :: placeAll (pos + Text.size a.lexeme) as

end RawAttribute

def Element.ofOpenTag (pos : Nat) (name : List Char) (body : TagBody) : Element :=
  let nameEnd := pos + 1 + Text.size name
  let attrsEnd := nameEnd + Text.size body.inside
  let openEnd := attrsEnd + Text.size body.bracket
  { tag := Token.tagOf name
    attrs := RawAttribute.placeAll nameEnd body.attrs
    start := pos
    attrsEnd := attrsEnd
    openEnd := openEnd
    closeStart := none
    stop := openEnd }

def Element.closedAt (e : Element) (close stop : Nat) : Element :=
  { e with closeStart := some close, stop := stop }

structure OpenElement where
  element : Element
  /-- The finished elements inside it, the latest first. -/
  inside : List Element
  deriving DecidableEq, Repr

structure Scan where
  pos : Nat
  opened : List OpenElement
  /-- The finished elements outside every open one, the latest first. -/
  finished : List Element
  deriving DecidableEq, Repr

namespace Scan

def start : Scan := ⟨0, [], []⟩

/-- Files finished elements, the latest first, under the innermost open element. -/
def add (elements : List Element) (s : Scan) : Scan :=
  match s.opened with
  | [] => { s with finished := elements ++ s.finished }
  | o :: outer => { s with opened := { o with inside := elements ++ o.inside } :: outer }

def closeInnermost (close stop : Nat) (s : Scan) : Scan :=
  match s.opened with
  | [] => s
  | o :: outer =>
    add (o.inside ++ [o.element.closedAt close stop]) { s with opened := outer }

def closeMany (place : Nat) : Nat → Scan → Scan
  | 0, s => s
  | n + 1, s => closeMany place n (closeInnermost place place s)

/-- A close tag from `close` to `stop` ends the innermost open element of its name, and the ones
inside that; without such an element it does nothing. -/
def closeTag (tag : String) (close stop : Nat) (s : Scan) : Scan :=
  match s.opened.findIdx? fun o => o.element.tag == tag with
  | none => s
  | some depth => closeInnermost close stop (closeMany close depth s)

def act (s : Scan) : Token → Scan
  | .char _ | .aside _ | .unfinished _ => s
  | .closeTag name tail =>
    closeTag (Token.tagOf name) s.pos (s.pos + Text.size (Token.closeTag name tail).lexeme) s
  | .openTag name body =>
    let element := Element.ofOpenTag s.pos name body
    if body.selfClosing || element.tag ∈ voidTags then add [element] s
    else { s with opened := ⟨element, []⟩ :: s.opened }
  | .raw name body content closing =>
    let element := Element.ofOpenTag s.pos name body
    let close := element.openEnd + Text.size content
    add [element.closedAt close (close + Text.size closing)] s

def step (s : Scan) (t : Token) : Scan :=
  { s.act t with pos := s.pos + Text.size t.lexeme }

def finish (s : Scan) : List Element :=
  (closeMany s.pos s.opened.length s).finished.reverse

end Scan

def elementsOf (tokens : List Token) : List Element := (tokens.foldl Scan.step Scan.start).finish

def scan (doc : String) : List Element := elementsOf (Token.ofText doc.toList)

end Playground.Html
