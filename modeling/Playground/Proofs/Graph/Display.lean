import Playground.Proofs.Base64
import Playground.Proofs.Graph.Rendering
import Playground.Proofs.Html.References

/-! Results as they are displayed. -/

namespace Playground

open Html

/-- A result that is displayed as a clean URI, or as well-formed markup all elements of which have
a property. -/
def IsFineResult (Q : Element → Prop) (uri : String) : Prop :=
  match svgOf? uri with
  | some markup => WellFormed markup = true ∧ ∀ e ∈ scan markup, Q e
  | none => IsCleanUri uri

namespace Base64

theorem clean_of_isLetter {c : Char} (letter : isLetter c = true) :
    isMarkupBlank c = false ∧ isQuote c = false ∧ c ≠ '<' ∧ c ≠ '>' := by
  have marks : [' ', '\t', '\n', '\x0c', '\r', '"', '\'', '<', '>'].all
      (fun d => !isLetter d) = true := by decide
  have other : c ∉ [' ', '\t', '\n', '\x0c', '\r', '"', '\'', '<', '>'] := by
    intro mem
    have none_ := List.all_eq_true.1 marks c mem
    rw [letter] at none_
    cases none_
  simp only [List.mem_cons, List.not_mem_nil, or_false, not_or] at other
  simp [isMarkupBlank, isQuote, other]

end Base64

theorem svgOf?_clean {uri markup : String} (svg : svgOf? uri = some markup) : IsCleanUri uri := by
  obtain ⟨payload, lead, svg⟩ := Option.bind_eq_some_iff.1 svg
  obtain ⟨bytes, read, -⟩ := Option.bind_eq_some_iff.1 svg
  have all : svgUriLead.toList.all
      (fun c => !isMarkupBlank c && !isQuote c && c != '<' && c != '>') = true := by decide
  have fixed : ∀ c ∈ svgUriLead.toList,
      isMarkupBlank c = false ∧ isQuote c = false ∧ c ≠ '<' ∧ c ≠ '>' := by
    simpa only [List.all_eq_true, Bool.and_eq_true, Bool.not_eq_true', bne_iff_ne, and_assoc] using all
  intro c mem
  rw [Text.eq_append_of_dropLead? lead] at mem
  rcases List.mem_append.1 mem with mem | mem
  · exact fixed c mem
  · exact Base64.clean_of_isLetter (Base64.letters_of_decode? read c mem)

theorem toDataUri_markup (text : String) :
    (Rendered.markup text).toDataUri.toList =
      svgUriLead.toList ++ Base64.encode (bytesOf text) := by
  rw [Rendered.toDataUri, String.toList_append, String.toList_ofList]

theorem svgOf?_markup (text : String) : svgOf? (Rendered.markup text).toDataUri = some text := by
  simp only [svgOf?, toDataUri_markup, Text.dropLead?_append, Base64.decode?_encode,
    Option.bind_eq_bind, Option.bind_some, textOf?_bytesOf]

namespace Html

theorem IsMarkup.imp {P Q : Token → Prop} {markup : String} (fine : IsMarkup P markup)
    (stronger : ∀ t, P t → Q t) : IsMarkup Q markup :=
  ⟨fine.wellFormed, fun t mem => stronger t (fine.tokens t mem)⟩

theorem tagStart_image : TagStart "img".toList .bare :=
  tagStart_bare ⟨'i', ['m', 'g'], rfl, by decide⟩ (List.all_eq_true.1 (by decide))

namespace Token

def image (uri : String) : Token := .openTag "img".toList (TagBody.given "src" uri .bare)

variable (uri : String)

theorem image_sound : (image uri).Sound := by
  have quote : '"' ∉ (Entity.escapeAttribute uri).toList := fun mem =>
    absurd ((Entity.mem_escapeAttribute (by decide) uri).1 mem).1 (by decide)
  exact .openTag _ _ (tagStart_image.given_of_fits isPlainName_src quote (.inl .nil)) (.inr (by decide))

theorem image_lexeme :
    (image uri).lexeme = ("<img src=\"" ++ Entity.escapeAttribute uri ++ "\">").toList := by
  have open_ : "<img src=\"".toList = '<' :: ("img".toList ++ ' ' :: "src".toList ++ ['=', '"']) := rfl
  have close : "\">".toList = ['"', '>'] := rfl
  rw [String.toList_append, String.toList_append, open_, close]
  simp [image, TagBody.given, TagBody.bare, RawAttribute.give, lexeme, TagBody.lexeme,
    TagBody.inside, TagBody.bracket, written_lexeme]

theorem ofText_image :
    ofText ("<img src=\"" ++ Entity.escapeAttribute uri ++ "\">").toList = [image uri] := by
  have read := (image_sound uri).ofText []
  rwa [List.append_nil, image_lexeme, ofText] at read

theorem image_isAlone : (image uri).isAlone = true := by
  have void : tagOf "img".toList ∈ voidTags := by decide
  rw [image, isAlone, TagBody.isAlone, decide_eq_true void, Bool.or_true]

end Token

theorem isMarkup_image (uri : String) :
    IsMarkup Token.IsPlain ("<img src=\"" ++ Entity.escapeAttribute uri ++ "\">") := by
  have tokens := Token.ofText_image uri
  have tag : Token.tagOf "img".toList = "img" := by decide
  have bare : TagBody.attr? .bare "data-src" = none := rfl
  constructor
  · have alone : (TagBody.given "src" uri .bare).isAlone "img".toList = true :=
      Token.image_isAlone uri
    simp only [WellFormed, tokens, Token.image, List.all_cons, List.all_nil, Token.ended, nested,
      alone, if_true, List.isEmpty_nil, Bool.and_self]
  · rw [tokens, List.forall_mem_singleton]
    constructor
    · intro script
      rw [Token.IsScript, Token.image, Token.tag?, tag] at script
      exact absurd script (by decide)
    · refine (TagBody.attr?_given (by decide) ?_).trans bare
      rw [bare]
      exact (Option.some_ne_none _).symm

end Html

namespace IsFineResult

variable {P : Token → Prop} {Q : Element → Prop} {uri : String}

theorem clean (fine : IsFineResult Q uri) : IsCleanUri uri := by
  unfold IsFineResult at fine
  split at fine
  · next svg => exact svgOf?_clean svg
  · exact fine

theorem markup (fine : IsFineResult Q uri) (plain : ∀ t : Token, t.IsPlain → P t)
    (tagged : ∀ t e, Placed.Agrees ⟨0, t, e⟩ → Q e → P t) : IsMarkup P (markupOfUri uri) := by
  unfold IsFineResult at fine
  unfold markupOfUri
  split at fine
  · next markup svg =>
    rw [svg]
    refine ⟨fine.1, fun t mem => ?_⟩
    by_cases untagged : t.tag? = none
    · refine plain t ⟨?_, ?_⟩
      · rw [Token.IsScript, untagged]
        exact (Option.some_ne_none _).symm
      · cases t with
        | openTag | raw => cases untagged
        | char | aside | closeTag | unfinished => rfl
    · obtain ⟨e, known, agrees⟩ := WellFormed.element fine.1 mem untagged
      exact tagged t e agrees (fine.2 e known)
  · next none_ =>
    rw [none_]
    exact (isMarkup_image uri).imp plain

end IsFineResult

theorem isFineResult_markup {Q : Element → Prop} (text : String) :
    IsFineResult Q (Rendered.markup text).toDataUri ↔
      WellFormed text = true ∧ ∀ e ∈ scan text, Q e := by
  rw [IsFineResult, svgOf?_markup]

end Playground
