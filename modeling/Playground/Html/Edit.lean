import Playground.Html.Element

/-! Changing a text in place: batches of edits, each replacing one span. -/

namespace Playground.Html

structure Edit where
  span : Span
  text : String
  deriving DecidableEq, Repr

namespace Edit

def insert (pos : Nat) (text : String) : Edit := ⟨⟨pos, pos⟩, text⟩

def remove (e : Element) : Edit := ⟨e.span, ""⟩

def setInner? (e : Element) (text : String) : Option Edit := e.content?.map fun span => ⟨span, text⟩

/-- Gives an attribute a value where it stands, or adds it at the end of the tag. -/
def giveAttr (found : Option Attribute) (tagEnd : Nat) (name value : String) : Edit :=
  let escaped := Entity.escapeAttribute value
  let written := name ++ "=\"" ++ escaped ++ "\""
  match found with
  | none => insert tagEnd (" " ++ written)
  | some a =>
    match a.valueSpan, a.quoted with
    | some span, true => ⟨span, escaped⟩
    | _, _ => ⟨a.span, written⟩

/-- Gives the first attribute of that name a value, or adds the attribute at the tag's end. -/
def setAttr (e : Element) (name value : String) : Edit :=
  giveAttr (e.find? name) e.attrsEnd name value

def isInsertion (e : Edit) : Bool := e.span.stop ≤ e.span.start

def precedes (a b : Edit) : Bool :=
  if a.span.start ≠ b.span.start then a.span.start < b.span.start
  else if a.isInsertion ≠ b.isInsertion then a.isInsertion
  else b.span.stop ≤ a.span.stop

end Edit

/-- Copies the text from `cursor` on, putting in each edit that does not start before it. -/
def splice? (doc : List Char) : Nat → List Edit → Option (List Char)
  | cursor, [] => Text.sliceFrom? doc cursor
  | cursor, e :: edits =>
    if e.span.start < cursor then splice? doc cursor edits
    else do
      let kept ← Text.slice? doc cursor e.span.start
      let rest ← splice? doc e.span.stop edits
      return kept ++ e.text.toList ++ rest

/-- Puts edits into a text. An edit that starts inside another one is dropped, and of edits with
the same span the first given wins; fails when a span leaves the text or cuts a character. -/
def edited? (doc : String) (edits : List Edit) : Option String :=
  (splice? doc.toList 0 (edits.mergeSort Edit.precedes)).map String.ofList

/-- The edited text. Edits made from elements of the text itself always fit; for others the text
is left alone. -/
def withEdits (doc : String) (edits : List Edit) : String := (edited? doc edits).getD doc

end Playground.Html
