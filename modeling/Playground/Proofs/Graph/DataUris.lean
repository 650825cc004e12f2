import Playground.Proofs.Graph.Display

/-! Results that go through data URIs. -/

namespace Playground

open Html

theorem svgOf?_eq_some_iff {uri text : String} :
    svgOf? uri = some text ↔ uri = (Rendered.markup text).toDataUri := by
  constructor
  · intro svg
    obtain ⟨payload, lead, svg⟩ := Option.bind_eq_some_iff.1 svg
    obtain ⟨bytes, read, text_⟩ := Option.bind_eq_some_iff.1 svg
    have bytes_ := textOf?_eq_some_iff.1 text_
    apply String.toList_injective
    rw [toDataUri_markup, ← bytes_, Base64.encode_decode? read, Text.eq_append_of_dropLead? lead]
  · rintro rfl
    exact svgOf?_markup text

theorem Html.Token.image_attr? (uri : String) : (image uri).attr? "src" = some uri := by
  have named : sameIgnoringCase (String.ofList (Text.lower "src".toList)) "src" = true := by decide
  have attrs : (TagBody.given "src" uri .bare).attrs =
      [RawAttribute.written [' '] "src".toList (Entity.escapeAttribute uri).toList] := rfl
  rw [image, attr?, TagBody.attr?, attrs, List.find?_cons_of_pos (by exact named),
    RawAttribute.written]
  simp only [Option.map_some, Option.getD_some, String.ofList_toList, Entity.decode_escapeAttribute]

theorem scan_image (uri : String) :
    ∃ img, scan ("<img src=\"" ++ Entity.escapeAttribute uri ++ "\">") = [img] ∧ img.tag = "img" ∧
      img.attr? "src" = some uri := by
  have sound : (Forest.leaf 0 (.image uri) .nil).Sound :=
    ⟨Token.image_sound uri, Token.image_isAlone uri, trivial⟩
  have text : String.ofList (Forest.leaf 0 (.image uri) .nil).text =
      "<img src=\"" ++ Entity.escapeAttribute uri ++ "\">" := by
    rw [Forest.text_leaf, Forest.text_nil, List.append_nil, Token.image_lexeme, String.ofList_toList]
  have elements := Forest.scan_text sound
  rw [text] at elements
  obtain ⟨img, alone, found⟩ : ∃ img,
      scan ("<img src=\"" ++ Entity.escapeAttribute uri ++ "\">") = [img] ∧
        (Token.image uri).element? 0 = some img := ⟨_, elements, rfl⟩
  have agrees : Placed.Agrees ⟨0, .image uri, img⟩ := Token.element?_agrees found
  have named : Token.tagOf "img".toList = "img" := by decide
  have tag : some (Token.tagOf "img".toList) = some img.tag := agrees.tag
  rw [named, Option.some.injEq] at tag
  exact ⟨img, alone, tag.symm, (agrees.attr? "src").trans (Token.image_attr? uri)⟩

theorem markupOfUri_markup (text : String) : markupOfUri (Rendered.markup text).toDataUri = text := by
  rw [markupOfUri, svgOf?_markup, Option.getD_some]

theorem markupOfUri_other {uri : String} (other : ∀ text, uri ≠ (Rendered.markup text).toDataUri) :
    markupOfUri uri = "<img src=\"" ++ Entity.escapeAttribute uri ++ "\">" := by
  have none_ : svgOf? uri = none :=
    Option.eq_none_iff_forall_ne_some.2 fun text svg => other text (svgOf?_eq_some_iff.1 svg)
  rw [markupOfUri, none_, Option.getD_none]

/-- What a result puts into an element that can have content and is no image takes the place of all
of the content. Of markup it is the markup, exactly; of a URI that is not the base64 of a text in the
form that markup has, it is one image, whose source is read as the URI. -/
theorem displayed_exact {e : Element} {close : Nat} (holds : e.closeStart = some close)
    (other : e.tag ≠ "img") :
    (∀ text, display? e (Rendered.markup text).toDataUri = some ⟨⟨e.openEnd, close⟩, text⟩) ∧
      ∀ uri, (∀ text, uri ≠ svgUriLead ++ String.ofList (Base64.encode (bytesOf text))) →
        ∃ shown, display? e uri = some ⟨⟨e.openEnd, close⟩, shown⟩ ∧
          ∃ img, scan shown = [img] ∧ img.tag = "img" ∧ img.attr? "src" = some uri := by
  have put : ∀ uri, display? e uri = some ⟨⟨e.openEnd, close⟩, markupOfUri uri⟩ := by
    intro uri
    rw [display?, if_neg other, Edit.setInner?, Element.content?, holds]
    rfl
  refine ⟨fun text => ?_, fun uri foreign => ⟨markupOfUri uri, put uri, ?_⟩⟩
  · rw [put, markupOfUri_markup]
  · rw [markupOfUri_other foreign]
    exact scan_image uri

def emptyDiv : Element := ⟨"div", [], 0, 4, 5, some 5, 11⟩

theorem loose_digit_displayed :
    emptyDiv ∈ scan "<div></div>" ∧
      display? emptyDiv (Rendered.markup "<").toDataUri = some ⟨⟨5, 5⟩, "<"⟩ ∧
      ∃ shown, display? emptyDiv "data:image/svg+xml;base64,PB==" = some ⟨⟨5, 5⟩, shown⟩ ∧
        ∃ img, scan shown = [img] ∧ img.tag = "img" ∧
          img.attr? "src" = some "data:image/svg+xml;base64,PB==" := by
  have holds : emptyDiv.closeStart = some 5 := rfl
  have parts := displayed_exact holds (by decide)
  refine ⟨by decide +kernel, parts.1 "<", parts.2 _ fun text same => ?_⟩
  have svg := svgOf?_eq_some_iff.2 same
  have none_ : svgOf? "data:image/svg+xml;base64,PB==" = none := by decide +kernel
  rw [none_] at svg
  cases svg

end Playground
