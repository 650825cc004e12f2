import Playground.Proofs.Graph.Edits
import Playground.Proofs.Json.StringTable

/-! Results put into a well-formed document. -/

namespace Playground

open Html

/-- The results of one table, and those of another for the targets it does not have. -/
def Results.or (first second : Results) : Results := fun target =>
  (first target).or (second target)

/-- A URI that can stand in any attribute as it is. -/
def IsCleanUri (uri : String) : Prop := ∀ c ∈ uri.toList,
  isMarkupBlank c = false ∧ isQuote c = false ∧ c ≠ '<' ∧ c ≠ '>'

namespace Html

/-- Well-formed markup, all pieces of which have a property. -/
structure IsMarkup (P : Token → Prop) (markup : String) : Prop where
  wellFormed : WellFormed markup = true
  tokens : ∀ t ∈ Token.ofText markup.toList, P t

namespace Token

/-- Neither a script nor the open tag of an element that shows a target. -/
def IsPlain (t : Token) : Prop := ¬ t.IsScript ∧ t.attr? "data-src" = none

def IsTidy (t : Token) : Prop :=
  ∀ tag, t.tag? = some tag → tag ∈ rawTextTags → t.attr? "data-src" = none

/-- The result for a token's element can be shown on it, as markup with the property if the element
has content. -/
def Takes (P : Token → Prop) (results : Results) : Token → Prop
  | openTag name body => ∀ uri, body.result? results = some uri →
    (tagOf name = "img" → IsCleanUri uri) ∧
      (body.isAlone name = false → IsMarkup P (markupOfUri uri))
  | _ => True

end Token

namespace Forest

noncomputable def ofMarkup (markup : String) : Forest :=
  Classical.epsilon fun f => f.Sound ∧ f.text = markup.toList

theorem ofMarkup_spec {markup : String} (fine : WellFormed markup = true) :
    (ofMarkup markup).Sound ∧ (ofMarkup markup).text = markup.toList :=
  Classical.epsilon_spec (WellFormed.forest fine)

/-- The forest without the scripts that are gone, and with results on the elements that show
them. -/
noncomputable def rendered (results : Results) (gone : Nat → Token → Bool) : Forest → Forest
  | nil => nil
  | leaf mark token rest =>
    if gone mark token then rest.rendered results gone
    else leaf mark (token.shown results) (rest.rendered results gone)
  | element name body inside closing tail rest =>
    let inside := match body.result? results with
      | some uri => ofMarkup (markupOfUri uri)
      | none => inside.rendered results gone
    element name body inside closing tail (rest.rendered results gone)

end Forest

end Html

theorem OnlyScripts.or {gone gone' : Nat → Token → Bool} (only : OnlyScripts gone)
    (only' : OnlyScripts gone') : OnlyScripts fun mark t => gone mark t || gone' mark t := by
  intro mark t is
  rw [Bool.or_eq_true] at is
  exact is.elim (only mark t) (only' mark t)

namespace Html

variable {P : Token → Prop} {results : Results} {gone : Nat → Token → Bool} {mark : Nat}

@[simp] theorem Token.tag?_shown (t : Token) : (t.shown results).tag? = t.tag? := by
  cases t with
  | openTag name body =>
    rw [shown]
    split <;> rfl
  | char | aside | closeTag | raw | unfinished => rfl

theorem Token.shown_of_not_image {t : Token} (other : t.tag? ≠ some "img") : t.shown results = t := by
  cases t with
  | openTag name body =>
    have tag : tagOf name ≠ "img" := fun same => other (by rw [tag?, same])
    rw [shown, if_neg tag]
  | char | aside | closeTag | raw | unfinished => rfl

theorem Token.shown_script {t : Token} (script : t.IsScript) : t.shown results = t :=
  t.shown_of_not_image (by rw [script]; decide)

theorem Token.IsTidy.shown {results : Results} {t : Token} (tidy : t.IsTidy) :
    (t.shown results).IsTidy := by
  intro tag named raw
  rw [tag?_shown] at named
  rw [shown_of_not_image]
  · exact tidy tag named raw
  · rintro image
    rw [image, Option.some.injEq] at named
    rw [← named] at raw
    exact absurd raw (by decide)

theorem isPlainValue_escape {uri : String} (clean : IsCleanUri uri) :
    IsPlainValue (Entity.escapeAttribute uri).toList := by
  have all : ("&amp;".toList ++ "&quot;".toList).all
      (fun d => isUnquotedChar d && !isQuote d) = true := by decide
  have references : ∀ d ∈ "&amp;".toList ++ "&quot;".toList,
      isUnquotedChar d = true ∧ isQuote d = false := by
    simpa only [List.all_eq_true, Bool.and_eq_true, Bool.not_eq_true'] using all
  have kept : ∀ c ∈ uri.toList, isUnquotedChar c = true ∧ isQuote c = false := by
    intro c mem
    obtain ⟨visible, unquoted, -, angle⟩ := clean c mem
    exact ⟨by simp [isUnquotedChar, visible, angle], unquoted⟩
  have ampersand : "&".toList = ['&'] := rfl
  have quote : "\"".toList = ['"'] := rfl
  intro c mem
  simp only [Entity.escapeAttribute, replaceText, ampersand, quote, String.toList_ofList,
    Text.replaceAll_single, List.mem_flatMap] at mem
  obtain ⟨b, ⟨a, known, first⟩, second⟩ := mem
  have plain : isUnquotedChar b = true ∧ isQuote b = false := by
    split at first
    · exact references b (List.mem_append_left _ first)
    · rw [List.mem_singleton.1 first]
      exact kept a known
  split at second
  · exact references c (List.mem_append_right _ second)
  · rw [List.mem_singleton.1 second]
    exact plain

theorem isPlainName_src : IsPlainName "src".toList :=
  ⟨by decide, List.all_eq_true.1 (by decide)⟩

theorem Token.shown_sound {t : Token} (sound : t.Sound) (takes : t.Takes P results) :
    (t.shown results).Sound := by
  cases sound with
  | openTag name body begins normal =>
    rw [shown]
    split
    · next uri found =>
      rw [Option.ite_none_right_eq_some] at found
      obtain ⟨image, found⟩ := found
      have plain := isPlainValue_escape ((takes uri found).1 image)
      exact .openTag name _ (begins.given isPlainName_src plain) normal
    · exact .openTag name body begins normal
  | char c plain => exact .char c plain
  | comment text closed => exact .comment text closed
  | declaration d text mark clean other => exact .declaration d text mark clean other
  | closeTag name text named chars stops clean => exact .closeTag name text named chars stops clean
  | raw name body content text begins opens opaque_ inside clean =>
    exact .raw name body content text begins opens opaque_ inside clean

theorem Token.shown_alone {t : Token} : (t.shown results).isAlone = t.isAlone := by
  cases t with
  | openTag name body =>
    rw [shown]
    split <;> rfl
  | char | aside | closeTag | raw | unfinished => rfl

theorem TagBody.result?_none {body : TagBody} (none_ : body.attr? "data-src" = none) :
    body.result? results = none := by
  rw [result?, target?, none_]
  rfl

theorem TagBody.result?_or (body : TagBody) (first second : Results) :
    body.result? (first.or second) = (body.result? first).or (body.result? second) := by
  unfold result?
  cases body.target? <;> rfl

theorem TagBody.result?_apart {body : TagBody} {first second : Results} {uri : String}
    (apart : ∀ target, first target = none ∨ second target = none)
    (found : body.result? first = some uri) : body.result? second = none := by
  obtain ⟨target, shows, here⟩ := Option.bind_eq_some_iff.1 found
  rw [result?, shows, Option.bind_some]
  rcases apart target with none_ | none_
  · rw [none_] at here
    cases here
  · exact none_

theorem Token.shown_plain {t : Token} (plain : t.IsPlain) : t.shown results = t := by
  cases t with
  | openTag name body =>
    rw [shown, TagBody.result?_none plain.2, ite_self]
  | char | aside | closeTag | raw | unfinished => rfl

theorem TagBody.target?_given {body : TagBody} {uri : String} (blank : results "" = none)
    (found : body.result? results = some uri) (value : String) :
    (body.given "src" value).target? = body.target? := by
  rw [target?, target?, attr?_given (by decide)]
  intro empty
  rw [result?, target?, empty] at found
  have nothing : trimBlanks "" = "" := by decide
  rw [Option.map_some, Option.bind_some, nothing, blank] at found
  cases found

theorem Token.shown_shown {t : Token} {first second : Results}
    (apart : ∀ target, first target = none ∨ second target = none) (blank : first "" = none) :
    (t.shown first).shown second = t.shown (first.or second) := by
  cases t with
  | openTag name body =>
    by_cases image : tagOf name = "img"
    · simp only [shown, image, if_true, TagBody.result?_or]
      cases found : body.result? first with
      | none => simp [image]
      | some uri =>
        have none_ : (body.given "src" uri).result? second = none := by
          rw [TagBody.result?, TagBody.target?_given blank found]
          exact TagBody.result?_apart apart found
        simp [image, none_]
    · simp [shown, image]
  | char | aside | closeTag | raw | unfinished => rfl

namespace Forest

theorem tokens_ofMarkup {markup : String} (fine : WellFormed markup = true) :
    (ofMarkup markup).tokens = Token.ofText markup.toList := by
  obtain ⟨sound, text⟩ := ofMarkup_spec fine
  rw [← text, sound.ofText]

theorem rendered_sound {f : Forest} (sound : f.Sound) (takes : ∀ t ∈ f.tokens, t.Takes P results) :
    (f.rendered results gone).Sound := by
  induction f with
  | nil => exact trivial
  | leaf mark token rest ih =>
    obtain ⟨here, alone, later⟩ := sound
    rw [tokens, List.forall_mem_cons] at takes
    rw [rendered]
    split
    · exact ih later takes.2
    · exact ⟨Token.shown_sound here takes.1, Token.shown_alone.trans alone, ih later takes.2⟩
  | element name body inside closing tail rest inner_ih rest_ih =>
    obtain ⟨opens, more, closes, same, inner, later⟩ := sound
    obtain ⟨takes_here, takes_inner, -, takes_rest⟩ := forall_tokens_element.1 takes
    refine ⟨opens, more, closes, same, ?_, rest_ih later takes_rest⟩
    cases found : body.result? results with
    | none => exact inner_ih inner takes_inner
    | some uri => exact (ofMarkup_spec ((takes_here uri found).2 more).wellFormed).1

theorem mem_tokens_rendered {f : Forest} (only : OnlyScripts gone) (sound : f.Sound)
    (takes : ∀ t ∈ f.tokens, t.Takes P results) {t : Token}
    (mem : t ∈ (f.rendered results gone).tokens) :
    P t ∨ ∃ u ∈ f.tokens, t = u.shown results ∧ ∃ mark, gone mark u = false := by
  induction f with
  | nil => cases mem
  | leaf mark token rest ih =>
    obtain ⟨-, -, later⟩ := sound
    rw [tokens, List.forall_mem_cons] at takes
    rw [rendered] at mem
    have of_rest : t ∈ (rest.rendered results gone).tokens →
        P t ∨ ∃ u ∈ token :: rest.tokens, t = u.shown results ∧ ∃ mark, gone mark u = false := by
      intro mem
      rcases ih later takes.2 mem with other | ⟨u, known, same, kept⟩
      · exact .inl other
      · exact .inr ⟨u, List.mem_cons_of_mem token known, same, kept⟩
    split at mem
    · exact of_rest mem
    · next kept =>
      rcases List.mem_cons.1 mem with rfl | mem
      · exact .inr ⟨token, List.mem_cons_self, rfl, mark, by simpa using kept⟩
      · exact of_rest mem
  | element name body inside closing tail rest inner_ih rest_ih =>
    obtain ⟨opens, more, -, -, inner, later⟩ := sound
    obtain ⟨takes_here, takes_inner, -, takes_rest⟩ := forall_tokens_element.1 takes
    obtain ⟨script, image, -⟩ := Token.tags_of_element opens more
    have lift {u : Token} (known : u ∈ inside.tokens ∨ u ∈ rest.tokens) :
        u ∈ (element name body inside closing tail rest).tokens := by
      simp only [tokens, List.mem_cons, List.mem_append]
      grind
    rcases List.mem_cons.1 mem with rfl | mem
    · refine .inr ⟨_, List.mem_cons_self, (Token.shown_of_not_image ?_).symm, 0, ?_⟩
      · exact fun same => image (Option.some.inj same)
      · exact Token.kept_of_tag only fun same => script (Option.some.inj same)
    rcases List.mem_append.1 mem with mem | mem
    · cases found : body.result? results with
      | none =>
        rw [found] at mem
        rcases inner_ih inner takes_inner mem with other | ⟨u, known, rest_⟩
        · exact .inl other
        · exact .inr ⟨u, lift (.inl known), rest_⟩
      | some uri =>
        have markup := (takes_here uri found).2 more
        rw [found] at mem
        dsimp only at mem
        rw [tokens_ofMarkup markup.wellFormed] at mem
        exact .inl (markup.tokens t mem)
    rcases List.mem_cons.1 mem with rfl | mem
    · refine .inr ⟨.closeTag closing tail, by simp [tokens], rfl, 0, Token.kept_of_tag only ?_⟩
      simp [Token.IsScript, Token.tag?]
    · rcases rest_ih later takes_rest mem with other | ⟨u, known, rest_⟩
      · exact .inl other
      · exact .inr ⟨u, lift (.inr known), rest_⟩

theorem rendered_plain {f : Forest} (only : OnlyScripts gone) (plain : ∀ t ∈ f.tokens, t.IsPlain) :
    f.rendered results gone = f := by
  induction f with
  | nil => rfl
  | leaf mark token rest ih =>
    rw [tokens, List.forall_mem_cons] at plain
    rw [rendered, Token.kept_of_tag only plain.1.1, Token.shown_plain plain.1, ih plain.2]
    rfl
  | element name body inside closing tail rest inner_ih rest_ih =>
    obtain ⟨here, inner, -, later⟩ := forall_tokens_element.1 plain
    have none_ : body.result? results = none := TagBody.result?_none here.2
    simp only [rendered, none_, inner_ih inner, rest_ih later]

theorem rendered_rendered {f : Forest} {later : Results} {gone' : Nat → Token → Bool}
    (only : OnlyScripts gone') (sound : f.Sound)
    (takes : ∀ t ∈ f.tokens, t.Takes Token.IsPlain results)
    (apart : ∀ target, results target = none ∨ later target = none) (blank : results "" = none) :
    (f.rendered results gone).rendered later gone' =
      f.rendered (results.or later) fun mark t => gone mark t || gone' mark t := by
  induction f with
  | nil => rfl
  | leaf mark token rest ih =>
    rw [tokens, List.forall_mem_cons] at takes
    have rest_ := ih sound.2.2 takes.2
    have same : gone' mark (token.shown results) = gone' mark token := by
      by_cases script : token.IsScript
      · rw [Token.shown_script script]
      · rw [Token.kept_of_tag only script, Token.kept_of_tag only]
        rwa [Token.IsScript, Token.tag?_shown]
    simp only [rendered, Bool.or_eq_true]
    cases is : gone mark token with
    | true => simp [rest_]
    | false => simp [rendered, same, rest_, Token.shown_shown apart blank]
  | element name body inside closing tail rest inner_ih rest_ih =>
    obtain ⟨opens, more, closes, same, inner, after⟩ := sound
    obtain ⟨takes_here, takes_inner, -, takes_rest⟩ := forall_tokens_element.1 takes
    have inner_ := inner_ih inner takes_inner
    have rest_ := rest_ih after takes_rest
    simp only [rendered, TagBody.result?_or, rest_]
    cases found : body.result? results with
    | none =>
      rw [Option.none_or]
      cases body.result? later with
      | none => simp only [inner_]
      | some uri => rfl
    | some uri =>
      have markup := (takes_here uri found).2 more
      have none_ : body.result? later = none := TagBody.result?_apart apart found
      have plain : ∀ t ∈ (ofMarkup (markupOfUri uri)).tokens, t.IsPlain := by
        rw [tokens_ofMarkup markup.wellFormed]
        exact markup.tokens
      simp only [none_, Option.some_or, rendered_plain only plain]

end Forest

theorem Token.displayed_tidy {t : Token} (sound : t.Sound) (tidy : t.IsTidy) :
    t.displayed results = t.shown results := by
  cases sound with
  | raw name body content text begins normal open_ =>
    rw [displayed, TagBody.result?_none (tidy _ rfl open_)]
    rfl
  | char | comment | declaration | closeTag | openTag => rfl

theorem Token.shown_nothing (t : Token) : t.shown (fun _ => none) = t := by
  cases t with
  | openTag name body =>
    have none_ : body.result? (fun _ => none) = none := Option.bind_eq_none_iff.2 fun _ _ => rfl
    rw [shown, none_, ite_self]
  | char | aside | closeTag | raw | unfinished => rfl

theorem Token.displayed_nothing (t : Token) :
    t.displayed (fun _ => none) = t.shown fun _ => none := by
  cases t with
  | raw name body content closing =>
    have none_ : body.result? (fun _ => none) = none := Option.bind_eq_none_iff.2 fun _ _ => rfl
    rw [displayed, none_]
    rfl
  | char | aside | closeTag | openTag | unfinished => rfl

theorem Forest.displayed_text {f : Forest} (sound : f.Sound)
    (same : ∀ t ∈ f.tokens, t.displayed results = t.shown results)
    (takes : ∀ t ∈ f.tokens, t.Takes P results) :
    f.displayed results gone = (f.rendered results gone).text := by
  induction f with
  | nil => rfl
  | leaf mark token rest ih =>
    rw [tokens, List.forall_mem_cons] at same takes
    rw [displayed, rendered, ih sound.2.2 same.2 takes.2, same.1]
    split
    · rfl
    · rw [text_leaf]
  | element name body inside closing tail rest inner_ih rest_ih =>
    obtain ⟨-, more, -, -, inner, later⟩ := sound
    obtain ⟨takes_here, takes_inner, -, takes_rest⟩ := forall_tokens_element.1 takes
    obtain ⟨-, same_inner, -, same_rest⟩ := forall_tokens_element.1 same
    rw [displayed, rendered, text_element, rest_ih later same_rest takes_rest]
    cases found : body.result? results with
    | none => rw [← inner_ih inner same_inner takes_inner]
    | some uri =>
      have text := (ofMarkup_spec ((takes_here uri found).2 more).wellFormed).2
      simp only [text]

theorem withEdits_rendered {f : Forest} {cache : ArtifactCache} {removals : List Edit}
    (only : OnlyScripts gone) (sound : f.Sound) (tidy : ∀ t ∈ f.tokens, t.IsTidy)
    (takes : ∀ t ∈ f.tokens, t.Takes P cache.get?)
    (removes : removals.Perm
      (((f.placed 0).filter fun x => gone x.mark x.token).map fun x => Edit.remove x.element)) :
    withEdits (String.ofList f.text) (displayAll (scan (String.ofList f.text)) cache ++ removals) =
      String.ofList (f.rendered cache.get? gone).text := by
  have same : ∀ t ∈ f.tokens, t.displayed cache.get? = t.shown cache.get? :=
    fun t mem => Token.displayed_tidy (sound.tokens t mem) (tidy t mem)
  rw [withEdits_displayed only sound removes, Forest.displayed_text sound same takes]

theorem Token.Takes.nothing {t : Token} : t.Takes P fun _ => none := by
  cases t with
  | openTag name body =>
    intro uri found
    obtain ⟨target, -, none_⟩ := Option.bind_eq_some_iff.1 found
    cases none_
  | char | aside | closeTag | raw | unfinished => exact trivial

theorem Forest.mem_tokens_removed {f : Forest} {gone : Nat → Token → Bool}
    (only : OnlyScripts gone) (sound : f.Sound) {t : Token}
    (mem : t ∈ (f.rendered (fun _ => none) gone).tokens) : t ∈ f.tokens := by
  have takes : ∀ t ∈ f.tokens, t.Takes (fun _ => False) fun _ => none := fun _ _ => .nothing
  rcases Forest.mem_tokens_rendered only sound takes mem with none_ | ⟨u, known, rfl, -⟩
  · cases none_
  · rwa [Token.shown_nothing]

theorem Forest.removed_sound {f : Forest} (sound : f.Sound) (gone : Nat → Token → Bool) :
    (f.rendered (fun _ => none) gone).Sound :=
  Forest.rendered_sound (P := fun _ => False) sound fun _ _ => .nothing

theorem withEdits_removals {f : Forest} {gone : Nat → Token → Bool} {removals : List Edit}
    (only : OnlyScripts gone) (sound : f.Sound)
    (removes : removals.Perm
      (((f.placed 0).filter fun x => gone x.mark x.token).map fun x => Edit.remove x.element)) :
    withEdits (String.ofList f.text) removals =
      String.ofList (f.rendered (fun _ => none) gone).text := by
  have batch : withEdits (String.ofList f.text)
      (displayAll (scan (String.ofList f.text)) .empty ++ removals) =
        String.ofList (f.displayed (fun _ => none) gone) := withEdits_displayed only sound removes
  rw [displayAll_empty, List.nil_append] at batch
  have takes : ∀ t ∈ f.tokens, t.Takes Token.IsPlain fun _ => none := fun _ _ => .nothing
  rw [batch, Forest.displayed_text sound (fun t _ => t.displayed_nothing) takes]

end Html
end Playground
