import Playground.Proofs.Html.Concatenation
import Playground.Proofs.Html.SetAttribute

/-! Values written between double quotes. -/

namespace Playground.Html

open Text RawAttribute

section Requote

variable {lead key text text' : List Char}

theorem RawAttribute.Reads.requoted {rest rest' : List Char}
    (reads : (written lead key text).Reads rest) (clean : '"' ∉ text') :
    (written lead key text').Reads rest' := by
  refine ⟨reads.leads, reads.named, reads.plain, ?_, ?_⟩
  · rintro c ⟨⟩
    decide
  · exact .quoted [] [] text' rest' '"' (by simp [AllBlank]) (by simp [AllBlank]) rfl clean

theorem alike_requoted {ending : List Char} {front back : List RawAttribute}
    (sound : AttributesSound ending (front ++ written lead key text :: back)) :
    Alike ((front ++ written lead key text :: back).flatMap RawAttribute.lexeme ++ ending)
      ((front ++ written lead key text' :: back).flatMap RawAttribute.lexeme ++ ending) := by
  cases front with
  | nil =>
    obtain ⟨c, more, name⟩ := List.exists_cons_of_ne_nil sound.1.named
    have first := sound.1.plain c (by rw [name]; exact List.mem_cons_self)
    change key = c :: more at name
    have begins : ∀ text, (([] : List RawAttribute) ++ written lead key text :: back).flatMap
        RawAttribute.lexeme ++ ending = lead ++ c :: (more ++ '=' :: '"' :: (text ++ '"' ::
          (back.flatMap RawAttribute.lexeme ++ ending))) := by
      intro text
      simp [written_lexeme, name]
    rw [begins, begins]
    exact alike_name first first
  | cons a front =>
    obtain ⟨c, r, cut, first⟩ := exists_head_lexeme sound.1.named sound.1.plain []
    rw [List.append_nil] at cut
    have begins : ∀ attrs, (a :: attrs).flatMap RawAttribute.lexeme ++ ending =
        a.lead ++ c :: (r ++ (attrs.flatMap RawAttribute.lexeme ++ ending)) := by
      intro attrs
      simp [cut]
    rw [List.cons_append, List.cons_append, begins, begins]
    exact alike_name first first

theorem AttributesSound.requoted {ending : List Char} {front back : List RawAttribute}
    (sound : AttributesSound ending (front ++ written lead key text :: back)) (clean : '"' ∉ text') :
    AttributesSound ending (front ++ written lead key text' :: back) := by
  induction front with
  | nil => exact ⟨sound.1.requoted clean, sound.2⟩
  | cons a front ih =>
    have reads : a.Reads ((front ++ written lead key text :: back).flatMap RawAttribute.lexeme ++
      ending) := sound.1
    have later : AttributesSound ending (front ++ written lead key text :: back) := sound.2
    refine ⟨reads.alike (alike_requoted later) ?_, ih later⟩
    cases gapes : a.gapes with
    | false => rfl
    | true =>
      -- an attribute that gapes has the end of the tag behind it and no other attribute
      have ends := reads.gapes_head gapes
      obtain ⟨b, more, next⟩ : ∃ b more, front ++ written lead key text :: back = b :: more :=
        List.exists_cons_of_ne_nil (List.append_ne_nil_of_right_ne_nil _ (List.cons_ne_nil _ _))
      rw [next] at later
      rw [next, List.flatMap_cons, List.append_assoc] at ends
      exact absurd ends (lead_name_not_end later.1)

end Requote

/-- An open tag with a place for the value of one of its attributes, between two double quotes. -/
structure ValuePlace where
  tag : List Char
  front : List RawAttribute
  lead : List Char
  name : List Char
  back : List RawAttribute
  trail : List Char
  selfClosing : Bool
  /-- With nothing between the quotes it is an open tag. -/
  begins : TagStart tag ⟨front ++ written lead name [] :: back, trail, selfClosing⟩

namespace ValuePlace

variable (p : ValuePlace)

def body (text : List Char) : TagBody :=
  ⟨p.front ++ written p.lead p.name text :: p.back, p.trail, p.selfClosing⟩

def head : List Char := p.front.flatMap RawAttribute.lexeme ++ p.lead ++ p.name ++ ['=', '"']

def rest : List Char :=
  '"' :: (p.back.flatMap RawAttribute.lexeme ++ p.trail ++ (p.body []).bracket)

def opening : String := String.ofList ('<' :: (p.tag ++ p.head))

def around (text : String) : String := p.opening ++ text ++ String.ofList p.rest

theorem body_lexeme (text : List Char) : (p.body text).lexeme = p.head ++ (text ++ p.rest) := by
  have bracket : (p.body text).bracket = (p.body []).bracket := rfl
  rw [TagBody.lexeme, TagBody.inside, bracket, rest]
  simp [body, head, written_lexeme]

theorem around_toList (text : String) :
    (p.around text).toList = '<' :: (p.tag ++ (p.body text.toList).lexeme) := by
  rw [body_lexeme, around, opening, String.toList_append, String.toList_append]
  simp

theorem begins_body {text : List Char} (clean : '"' ∉ text) : TagStart p.tag (p.body text) where
  letter := p.begins.letter
  chars := p.begins.chars
  stops := by
    have some_ : p.head ≠ [] := by simp [head]
    have first : ∀ text, (p.body text).lexeme.head? = p.head.head? := by
      intro text
      rw [body_lexeme, List.head?_append_of_ne_nil _ some_]
    have stops : ∀ c, (p.body []).lexeme.head? = some c → isTagNameChar c = false := p.begins.stops
    rwa [first] at stops ⊢
  sound := ⟨p.begins.sound.attributes.requoted clean, p.begins.sound.trail⟩

end ValuePlace

/-- A text whose comments, declarations, tags and raw text all end in it. Elements may be left open, and
angles that begin nothing may be in it. -/
def EndsBetween (doc : String) : Prop :=
  ∀ t ∈ Token.ofText doc.toList, t.ended = true ∨ t = .char '<'

theorem RawAttribute.getElem?_placeAll (pos : Nat) (front back : List RawAttribute) (a : RawAttribute) :
    (placeAll pos (front ++ a :: back))[front.length]? =
      some (a.place (pos + size (front.flatMap RawAttribute.lexeme))) := by
  induction front generalizing pos with
  | nil => rfl
  | cons b front ih =>
    rw [List.cons_append, placeAll, List.length_cons, List.getElem?_cons_succ, ih, List.flatMap_cons,
      size_append, Nat.add_assoc]

section Opening

variable {doc : String} {e : Element} {before after : List Token} {name rest : List Char}
  {body : TagBody} {t : Token}

theorem Element.OpensAt.tag (at_ : e.OpensAt doc before name body rest t after) :
    e.tag = Token.tagOf name := by
  obtain ⟨close, stop, rfl⟩ := at_.shape
  rfl

theorem Element.OpensAt.openEnd (at_ : e.OpensAt doc before name body rest t after) :
    e.openEnd = width before + size ('<' :: (name ++ body.lexeme)) := by
  obtain ⟨close, stop, rfl⟩ := at_.shape
  exact Element.openEnd_ofOpenTag (width before) name body

theorem Element.OpensAt.attrs (at_ : e.OpensAt doc before name body rest t after) :
    e.attrs = placeAll (width before + size ('<' :: name)) body.attrs := by
  obtain ⟨close, stop, rfl⟩ := at_.shape
  rw [size_cons, ← Nat.add_assoc]
  rfl

end Opening

theorem exists_opensAt_tag {before after : String} (between : EndsBetween before) {name : List Char}
    {body : TagBody} (begins : TagStart name body) {doc : String}
    (whole : doc.toList = before.toList ++ '<' :: (name ++ (body.lexeme ++ after.toList))) :
    ∃ (e : Element) (t : Token) (later : List Token),
      e.OpensAt doc (Token.ofText before.toList) name body after.toList t later := by
  cases opens : Token.ofOpenTag name body after.toList with
  | mk t later =>
    obtain ⟨e, element⟩ := Token.exists_elementIn opens (width (Token.ofText before.toList))
      (restackAll [] (Token.ofText before.toList)) (Token.ofText later)
    refine ⟨e, t, Token.ofText later, begins, ?_, ?_, ?_, element⟩
    · rw [Token.ofText_lexeme, whole]
    · rw [Token.ofText_lexeme, opens]
    · rw [whole, Token.ofText_seam between (.inr rfl), Token.ofText_cons, Token.next_openTag begins,
        opens]

namespace ValuePlace

variable {p : ValuePlace} {doc : String} {e : Element} {before after : List Token}
  {text rest : List Char} {t : Token}

theorem attribute_of_opensAt (at_ : e.OpensAt doc before p.tag (p.body text) rest t after) :
    ∃ a, e.attrs[p.front.length]? = some a ∧ a.name = String.ofList (lower p.name) ∧
      a.value = some (Entity.decode (String.ofList text)) ∧
      a.valueSpan = some ⟨width before + size ('<' :: (p.tag ++ p.head)),
        width before + size ('<' :: (p.tag ++ p.head)) + size text⟩ ∧
      a.quoted = true := by
  let pos := width before + size ('<' :: p.tag) + size (p.front.flatMap RawAttribute.lexeme)
  refine ⟨(written p.lead p.name text).place pos, ?_, rfl, rfl, ?_, rfl⟩
  · rw [at_.attrs]
    exact getElem?_placeAll _ p.front p.back _
  · simp [place, written, RawValue.quoteLexeme, head, pos, Nat.add_assoc]

theorem attr?_of_opensAt (at_ : e.OpensAt doc before p.tag (p.body text) rest t after)
    (first : ∀ a ∈ p.front, a.isNamed (String.ofList p.name) = false) :
    e.attr? (String.ofList p.name) = some (Entity.decode (String.ofList text)) := by
  have others : p.front.find? (fun a => a.isNamed (String.ofList p.name)) = none := by
    simpa [List.find?_eq_none] using first
  have named : (written p.lead p.name text).isNamed (String.ofList p.name) = true := by
    rw [isNamed_iff, String.toList_ofList]
    rfl
  have found : (p.front ++ written p.lead p.name text :: p.back).find?
      (fun a => a.isNamed (String.ofList p.name)) = some (written p.lead p.name text) := by
    rw [List.find?_append, others, Option.none_or, List.find?_cons_of_pos named]
  obtain ⟨close, stop, rfl⟩ := at_.shape
  refine (Element.attr?_ofOpenTag (width before) p.tag (p.body text) _).trans ?_
  exact congrArg (Option.map _) found

end ValuePlace

/-- Escaping is undone by reading. An escaped value holds no double quote and is decoded to the value;
and a tag that it is written into between double quotes, wherever a scan meets that tag and whatever
else it holds, is read to the end it was written with, and has the attribute with exactly this value. -/
theorem escaped_value_read (value : String) :
    '"' ∉ (Entity.escapeAttribute value).toList ∧
    Entity.decode (Entity.escapeAttribute value) = value ∧
    ∀ (p : ValuePlace) (before after : String), EndsBetween before →
      let escaped := Entity.escapeAttribute value
      let start := before.utf8ByteSize + p.opening.utf8ByteSize
      ∃ e ∈ scan (before ++ p.around escaped ++ after),
        e.tag = Token.tagOf p.tag ∧ e.start = before.utf8ByteSize ∧
        e.openEnd = before.utf8ByteSize + (p.around escaped).utf8ByteSize ∧
        (∃ a, e.attrs[p.front.length]? = some a ∧ a.name = String.ofList (lower p.name) ∧
          a.value = some value ∧ a.valueSpan = some ⟨start, start + escaped.utf8ByteSize⟩ ∧
          a.quoted = true) ∧
        ((∀ a ∈ p.front, a.isNamed (String.ofList p.name) = false) →
          e.attr? (String.ofList p.name) = some value) := by
  have clean : '"' ∉ (Entity.escapeAttribute value).toList := fun mem =>
    absurd ((Entity.mem_escapeAttribute rfl value).1 mem).1 (by decide)
  have decoded := Entity.decode_escapeAttribute value
  refine ⟨clean, decoded, fun p before after between => ?_⟩
  intro escaped start
  have whole : (before ++ p.around escaped ++ after).toList = before.toList ++
      '<' :: (p.tag ++ ((p.body escaped.toList).lexeme ++ after.toList)) := by
    rw [String.toList_append, String.toList_append, p.around_toList]
    simp
  have position : width (Token.ofText before.toList) = before.utf8ByteSize := by
    rw [width, Token.ofText_lexeme, size_toList]
  have value_ : Entity.decode (String.ofList escaped.toList) = value := by
    rw [String.ofList_toList, decoded]
  have opening : size ('<' :: (p.tag ++ p.head)) = p.opening.utf8ByteSize :=
    (utf8ByteSize_ofList _).symm
  obtain ⟨e, t, later, at_⟩ := exists_opensAt_tag between (p.begins_body clean) whole
  have here := ValuePlace.attribute_of_opensAt at_
  have told := ValuePlace.attr?_of_opensAt at_
  rw [value_] at told
  rw [position, value_, opening, size_toList] at here
  refine ⟨e, at_.mem, at_.tag, at_.start.trans position, ?_, here, told⟩
  rw [at_.openEnd, position, ← p.around_toList, size_toList]

/-- The value of `href` in a link with an attribute before it and one behind it. -/
def linkTarget : ValuePlace where
  tag := "a".toList
  front := [⟨[' '], "hidden".toList, none⟩]
  lead := [' ']
  name := "href".toList
  back := [⟨[' '], "id".toList, some ⟨['='], none, "x".toList⟩⟩]
  trail := []
  selfClosing := false
  begins :=
    have read : TagBody.read " hidden href=\"\" id=x>".toList = some
        (⟨[⟨[' '], "hidden".toList, none⟩, written [' '] "href".toList [],
          ⟨[' '], "id".toList, some ⟨['='], none, "x".toList⟩⟩], [], false⟩, []) := by
      decide +kernel
    { letter := ⟨'a', [], rfl, by decide⟩
      chars := List.all_eq_true.1 (by decide)
      stops := by rintro c ⟨⟩; decide
      sound := (TagBody.read_iff.1 read).2 }

theorem linkTarget_read :
    EndsBetween "<p>1 < 2" ∧
      ∃ e ∈ scan "<p>1 < 2<a hidden href=\"&quot;/>'&amp;quot; \n=<b>\" id=x></a>",
        e.tag = "a" ∧ e.start = 8 ∧ e.openEnd = 56 ∧
          e.attr? "href" = some "\"/>'&quot; \n=<b>" := by
  have between : EndsBetween "<p>1 < 2" := by
    unfold EndsBetween
    decide +kernel
  have front : ∀ a ∈ linkTarget.front, a.isNamed (String.ofList linkTarget.name) = false := by
    decide +kernel
  have escaped : Entity.escapeAttribute "\"/>'&quot; \n=<b>" = "&quot;/>'&amp;quot; \n=<b>" := by
    apply String.toList_injective
    rw [Entity.escapeAttribute_toList]
    decide +kernel
  obtain ⟨-, -, places⟩ := escaped_value_read "\"/>'&quot; \n=<b>"
  obtain ⟨e, mem, tag, start, openEnd, -, value⟩ := places linkTarget "<p>1 < 2" "</a>" between
  rw [escaped] at mem openEnd
  exact ⟨between, e, mem, tag, start, openEnd, value front⟩

end Playground.Html
