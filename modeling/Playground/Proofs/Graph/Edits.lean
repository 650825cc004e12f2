import Playground.Graph.ArtifactCache
import Playground.Proofs.Html.Attributes
import Playground.Proofs.Html.Forest
import Playground.Proofs.Html.Splice

/-! The edits that put results into a well-formed document. -/

namespace Playground

open Html

abbrev Results := String → Option String

namespace Html

def TagBody.target? (body : TagBody) : Option String := (body.attr? "data-src").map trimBlanks

def TagBody.result? (results : Results) (body : TagBody) : Option String :=
  body.target?.bind results

namespace Token

def IsScript (t : Token) : Prop := t.tag? = some "script"

def shown (results : Results) : Token → Token
  | openTag name body =>
    match if tagOf name = "img" then body.result? results else none with
    | some uri => openTag name (body.given "src" uri)
    | none => openTag name body
  | t => t

/-- A piece with its result: an image with a source, or raw text with other content. -/
def displayed (results : Results) : Token → Token
  | raw name body content closing =>
    match body.result? results with
    | some uri => raw name body (markupOfUri uri).toList closing
    | none => raw name body content closing
  | t => t.shown results

end Token

end Html

def OnlyScripts (gone : Nat → Token → Bool) : Prop :=
  ∀ mark token, gone mark token = true → token.IsScript

namespace Html

/-- The text of a forest without the scripts that are gone, and with results on the elements that
show them. -/
def Forest.displayed (results : Results) (gone : Nat → Token → Bool) : Forest → List Char
  | nil => []
  | leaf mark token rest =>
    (if gone mark token then [] else (token.displayed results).lexeme) ++
      rest.displayed results gone
  | element name body inside closing tail rest =>
    let content := match body.result? results with
      | some uri => (markupOfUri uri).toList
      | none => inside.displayed results gone
    (Token.openTag name body).lexeme ++
      (content ++ ((Token.closeTag closing tail).lexeme ++ rest.displayed results gone))

def Placed.display? (results : Results) (x : Placed) : Option Edit :=
  (shownTarget? x.element).bind fun target =>
    (results target).bind (Playground.display? x.element)

/-- What is done to an element: a script is taken out, and a result is put on it. Removals are told
from displays. -/
def Placed.edits (results : Results) (gone : Nat → Token → Bool) (x : Placed) : List (Edit × Bool) :=
  (if gone x.mark x.token then [(.remove x.element, true)] else []) ++
    ((x.display? results).map (·, false)).toList

def Forest.edits (results : Results) (gone : Nat → Token → Bool) (pos : Nat) (f : Forest) :
    List (Edit × Bool) :=
  (f.placed pos).flatMap (·.edits results gone)

variable {results : Results} {gone : Nat → Token → Bool} {mark : Nat}

theorem Token.isScript_of {t : Token} {type_ : String} (is : t.isScriptOf type_ = true) :
    t.IsScript := t.tag?_of_isScriptOf is

theorem Token.kept_of_tag {t : Token} (only : OnlyScripts gone) (other : ¬ t.IsScript) :
    gone mark t = false := by
  rw [← Bool.not_eq_true]
  exact fun is => other (only mark t is)

theorem Token.tags_of_element {name : List Char} {body : TagBody}
    (sound : (Token.openTag name body).Sound) (more : body.isAlone name = false) :
    Token.tagOf name ≠ "script" ∧ Token.tagOf name ≠ "img" ∧ Token.tagOf name ∉ rawTextTags := by
  simp only [TagBody.isAlone, Bool.or_eq_false_iff, decide_eq_false_iff_not] at more
  obtain ⟨opens, void⟩ := more
  have open_ : Token.tagOf name ∉ rawTextTags := by
    cases sound with
    | openTag _ _ begins normal =>
      rcases normal with closed | normal
      · rw [opens] at closed
        cases closed
      · exact normal
  refine ⟨?_, ?_, open_⟩
  · intro tag
    rw [tag] at open_
    exact open_ (by decide)
  · intro tag
    rw [tag] at void
    exact void (by decide)

theorem Placed.Agrees.shownTarget? {x : Placed} (agrees : x.Agrees) :
    Playground.shownTarget? x.element = (x.token.attr? "data-src").map trimBlanks := by
  rw [Playground.shownTarget?, agrees.attr?]

theorem Placed.Agrees.display? {x : Placed} (agrees : x.Agrees) :
    x.display? results = (((x.token.attr? "data-src").map trimBlanks).bind results).bind
      (Playground.display? x.element) := by
  rw [Placed.display?, agrees.shownTarget?, Option.bind_assoc]

/-- Where an edit stands: in a part of the text, a display after its first character. -/
structure EditWithin (start stop : Nat) (x : Edit × Bool) : Prop where
  after : start ≤ x.1.span.start
  before : x.1.span.start < stop
  removal : x.2 = true → x.1.span.start < x.1.span.stop ∧ x.1.span.stop ≤ stop
  display : x.2 = false → start < x.1.span.start

namespace EditWithin

variable {start stop start' stop' : Nat} {x y : Edit × Bool}

theorem widen (within : EditWithin start stop x) (start_ : start' ≤ start) (stop_ : stop ≤ stop') :
    EditWithin start' stop' x where
  after := Nat.le_trans start_ within.after
  before := Nat.lt_of_lt_of_le within.before stop_
  removal is := ⟨(within.removal is).1, Nat.le_trans (within.removal is).2 stop_⟩
  display is := Nat.lt_of_le_of_lt start_ (within.display is)

theorem leads_of_lt (before : x.1.span.start < y.1.span.start) : Edit.Leads x y := by
  refine ⟨Edit.precedes_iff.2 (.inl before), fun back => ?_⟩
  rcases Edit.precedes_iff.1 back with after | ⟨same, -⟩ <;> omega

theorem leads (first : EditWithin start stop x) (second : EditWithin start' stop' y)
    (order : stop ≤ start') : Edit.Leads x y := by
  have before := first.before
  have after := second.after
  exact leads_of_lt (by omega)

theorem leads_inside (inside : EditWithin start stop x) (text : String) :
    Edit.Leads (⟨⟨start, stop⟩, text⟩, false) x := by
  have later := inside.after
  have before := inside.before
  rcases Nat.lt_or_eq_of_le later with later | same
  · exact leads_of_lt later
  · obtain ⟨e, late⟩ := x
    cases late with
    | false => exact absurd (inside.display rfl) (by omega)
    | true =>
      obtain ⟨some_, ends⟩ := inside.removal rfl
      refine ⟨Edit.precedes_iff.2 (.inr ⟨same, .inr ⟨?_, ends⟩⟩), fun _ => ⟨rfl, rfl⟩⟩
      simp only [Edit.isInsertion, decide_eq_decide] at *
      omega

end EditWithin

/-- The edit that displays a result on a piece that is an element on its own. -/
def Token.display? (results : Results) (pos : Nat) (t : Token) : Option Edit :=
  (t.element? pos).bind fun e =>
    (((t.attr? "data-src").map trimBlanks).bind results).bind (Playground.display? e)

def Token.edits (results : Results) (gone : Nat → Token → Bool) (mark pos : Nat) (t : Token) :
    List (Edit × Bool) :=
  (if gone mark t then [(⟨⟨pos, pos + Text.size t.lexeme⟩, ""⟩, true)] else []) ++
    ((t.display? results pos).map (·, false)).toList

theorem Placed.edits_of_element? {t : Token} {pos : Nat} {e : Element}
    (found : t.element? pos = some e) :
    (Placed.mk mark t e).edits results gone = t.edits results gone mark pos := by
  have agrees : Placed.Agrees ⟨mark, t, e⟩ := Token.element?_agrees found
  rw [Placed.edits, agrees.display?, Token.edits, Token.display?, found, Edit.remove,
    Token.element?_span found]
  rfl

theorem Token.raw_turns (name : List Char) (body : TagBody) (content closing : List Char)
    (pos : Nat) (markup : String) :
    let openEnd := pos + Text.size ('<' :: name ++ body.lexeme)
    (Edit.mk ⟨openEnd, openEnd + Text.size content⟩ markup).Turns pos
      (raw name body content closing).lexeme (raw name body markup.toList closing).lexeme :=
  ⟨'<' :: name ++ body.lexeme, content, closing, by simp [lexeme], rfl, by simp [lexeme]⟩

theorem Token.display?_turns {t : Token} (sound : t.Sound) (alone : t.isAlone = true)
    (results : Results) (pos : Nat) :
    t.display? results pos = none ∧ t.displayed results = t ∨
      ∃ e, t.display? results pos = some e ∧
        e.Turns pos t.lexeme (t.displayed results).lexeme ∧
        pos < e.span.start ∧ e.span.start < pos + Text.size t.lexeme := by
  cases sound with
  | char | comment | declaration => exact .inl ⟨rfl, rfl⟩
  | closeTag => cases alone
  | raw name body content text begins normal open_ inside clean =>
    have tag : tagOf name ≠ "img" := by
      rintro image
      rw [image] at open_
      exact absurd open_ (by decide)
    have display (uri : String) : Playground.display? ((Element.ofOpenTag pos name body).closedAt
        ((Element.ofOpenTag pos name body).openEnd + Text.size content)
        ((Element.ofOpenTag pos name body).openEnd + Text.size content +
          Text.size ('<' :: (text ++ ['>'])))) uri =
        some ⟨⟨pos + Text.size ('<' :: name ++ body.lexeme),
          pos + Text.size ('<' :: name ++ body.lexeme) + Text.size content⟩, markupOfUri uri⟩ := by
      rw [Playground.display?, if_neg (by exact tag), ← Element.openEnd_ofOpenTag]
      rfl
    rw [Token.display?, displayed]
    change (body.result? results).bind _ = none ∧ _ ∨ ∃ e, (body.result? results).bind _ = some e ∧ _
    cases body.result? results with
    | none => exact .inl ⟨rfl, rfl⟩
    | some uri =>
      rw [Option.bind_some, display]
      refine .inr ⟨_, rfl, raw_turns name body content _ pos (markupOfUri uri), ?_, ?_⟩
      all_goals
        simp only [lexeme, Text.size_append, Text.size_cons]
        have angle : '<'.utf8Size = 1 := by decide
        omega
  | openTag name body begins normal =>
    have same : (openTag name body).displayed results = (openTag name body).shown results := rfl
    rw [Token.display?, same, shown]
    change (body.result? results).bind _ = none ∧ _ ∨ ∃ e, (body.result? results).bind _ = some e ∧ _
    by_cases image : tagOf name = "img"
    · rw [if_pos image]
      cases body.result? results with
      | none => exact .inl ⟨rfl, rfl⟩
      | some uri =>
        have display : Playground.display? (Element.ofOpenTag pos name body) uri =
            some (.setAttr (Element.ofOpenTag pos name body) "src" uri) := by
          rw [Playground.display?, if_pos (by exact image)]
        rw [Option.bind_some, display]
        exact .inr ⟨_, rfl, setAttr_turns begins pos "src" uri⟩
    · rw [if_neg image]
      refine .inl ⟨?_, rfl⟩
      cases body.result? results with
      | none => rfl
      | some uri =>
        rw [Option.bind_some, Playground.display?, if_neg (by exact image)]
        rfl

namespace Forest

theorem forall_tokens_element {Q : Token → Prop} {name : List Char} {body : TagBody}
    {inside : Forest} {closing tail : List Char} {rest : Forest} :
    (∀ t ∈ (element name body inside closing tail rest).tokens, Q t) ↔
      Q (.openTag name body) ∧ (∀ t ∈ inside.tokens, Q t) ∧ Q (.closeTag closing tail) ∧
        ∀ t ∈ rest.tokens, Q t := by
  simp only [tokens, List.forall_mem_cons, List.forall_mem_append]

theorem edits_leaf (only : OnlyScripts gone) (pos : Nat) (token : Token) (rest : Forest) :
    (leaf mark token rest).edits results gone pos =
      token.edits results gone mark pos ++
        rest.edits results gone (pos + Text.size token.lexeme) := by
  rw [edits, placed, List.flatMap_append]
  congr 1
  cases found : token.element? pos with
  | some e =>
    rw [Option.map_some, Option.toList_some, List.flatMap_singleton, Placed.edits_of_element? found]
  | none =>
    have other : ¬ token.IsScript := by
      cases token with
      | openTag | raw => cases found
      | char | aside | closeTag | unfinished =>
        intro script
        cases script
    rw [Token.edits, Token.display?, found, Token.kept_of_tag only other]
    rfl

theorem edits_element {name closing tail : List Char} {body : TagBody} {inside rest : Forest}
    (only : OnlyScripts gone) (sound : (Token.openTag name body).Sound)
    (more : body.isAlone name = false) (pos : Nat) :
    let openEnd := pos + Text.size (Token.openTag name body).lexeme
    let close := openEnd + Text.size inside.text
    (element name body inside closing tail rest).edits results gone pos =
      ((body.result? results).map fun uri =>
          (Edit.mk ⟨openEnd, close⟩ (markupOfUri uri), false)).toList ++
        (inside.edits results gone openEnd ++ rest.edits results gone
          (close + Text.size (Token.closeTag closing tail).lexeme)) := by
  obtain ⟨script, image, -⟩ := Token.tags_of_element sound more
  intro openEnd close
  have kept : gone 0 (.openTag name body) = false :=
    Token.kept_of_tag only fun tag => script (Option.some.inj tag)
  let e := (Element.ofOpenTag pos name body).closedAt close
    (close + Text.size (Token.closeTag closing tail).lexeme)
  have agrees : Placed.Agrees ⟨0, .openTag name body, e⟩ :=
    ⟨rfl, Element.attr?_ofOpenTag pos name body, Element.isScriptOf_ofOpenTag pos name body⟩
  have display : display? e = fun uri => some (Edit.mk ⟨openEnd, close⟩ (markupOfUri uri)) := by
    funext uri
    have opened : (Element.ofOpenTag pos name body).openEnd = openEnd :=
      Element.openEnd_ofOpenTag pos name body
    rw [display?, if_neg (show e.tag ≠ "img" from image), ← opened]
    rfl
  have here : (Placed.mk 0 (.openTag name body) e).edits results gone =
      ((body.result? results).map fun uri =>
        (Edit.mk ⟨openEnd, close⟩ (markupOfUri uri), false)).toList := by
    rw [Placed.edits, agrees.display?, kept, display]
    change _ ++ (((body.result? results).bind _).map _).toList = _
    cases body.result? results <;> rfl
  simp only [edits, placed, List.flatMap_cons, List.flatMap_append]
  rw [here]

theorem edits_token_within {token : Token} (sound : token.Sound) (alone : token.isAlone = true)
    {pos : Nat} {x : Edit × Bool} (mem : x ∈ token.edits results gone mark pos) :
    EditWithin pos (pos + Text.size token.lexeme) x := by
  have some_ := size_pos sound
  rcases List.mem_append.1 mem with mem | mem
  · split at mem
    · rw [List.mem_singleton] at mem
      subst mem
      constructor
      all_goals simp
      all_goals omega
    · cases mem
  · obtain ⟨e, display, rfl⟩ := Option.map_eq_some_iff.1 (Option.mem_toList.1 mem)
    rcases token.display?_turns sound alone results pos with ⟨none_, -⟩ | ⟨d, one, -, after, inside⟩
    · rw [none_] at display
      cases display
    · rw [one] at display
      cases display
      exact ⟨Nat.le_of_lt after, inside, nofun, fun _ => after⟩

theorem edits_token_lead {token : Token} (sound : token.Sound) (alone : token.isAlone = true)
    (pos : Nat) : (token.edits results gone mark pos).Pairwise Edit.Leads := by
  rw [Token.edits, List.pairwise_append]
  refine ⟨?_, ?_, fun x mem y mem' => ?_⟩
  · split
    · exact List.pairwise_singleton _ _
    · exact List.Pairwise.nil
  · cases token.display? results pos with
    | none => exact List.Pairwise.nil
    | some e => exact List.pairwise_singleton _ _
  · have late : x.1.span.start = pos := by
      split at mem
      · rw [List.mem_singleton.1 mem]
      · cases mem
    have known : y ∈ token.edits results gone mark pos := List.mem_append_right _ mem'
    have after := (edits_token_within sound alone known).display
    obtain ⟨e, -, rfl⟩ := Option.map_eq_some_iff.1 (Option.mem_toList.1 mem')
    exact EditWithin.leads_of_lt (late ▸ after rfl)

theorem edits_within {f : Forest} (only : OnlyScripts gone) (sound : f.Sound) {pos : Nat}
    {x : Edit × Bool} (mem : x ∈ f.edits results gone pos) :
    EditWithin pos (pos + Text.size f.text) x := by
  induction f generalizing pos with
  | nil => cases mem
  | leaf mark token rest ih =>
    rw [edits_leaf only, List.mem_append] at mem
    rw [text_leaf, Text.size_append]
    rcases mem with mem | mem
    · exact (edits_token_within sound.1 sound.2.1 mem).widen (by omega) (by omega)
    · exact (ih sound.2.2 mem).widen (by omega) (by omega)
  | element name body inside closing tail rest inner_ih rest_ih =>
    obtain ⟨opens, more, closes, -, inner, later⟩ := sound
    have open_ := size_pos opens
    have close := size_pos closes
    rw [edits_element only opens more, List.mem_append, List.mem_append] at mem
    rw [text_element, Text.size_append, Text.size_append, Text.size_append]
    rcases mem with mem | mem | mem
    · obtain ⟨uri, -, rfl⟩ := Option.map_eq_some_iff.1 (Option.mem_toList.1 mem)
      constructor
      all_goals simp
      all_goals omega
    · exact (inner_ih inner mem).widen (by omega) (by omega)
    · exact (rest_ih later mem).widen (by omega) (by omega)

theorem edits_lead {f : Forest} (only : OnlyScripts gone) (sound : f.Sound) (pos : Nat) :
    (f.edits results gone pos).Pairwise Edit.Leads := by
  induction f generalizing pos with
  | nil => exact List.Pairwise.nil
  | leaf mark token rest ih =>
    rw [edits_leaf only, List.pairwise_append]
    refine ⟨edits_token_lead sound.1 sound.2.1 pos, ih sound.2.2 _, ?_⟩
    intro x mem y mem'
    have here := edits_token_within sound.1 sound.2.1 mem
    have later := edits_within only sound.2.2 mem'
    exact here.leads later (Nat.le_refl _)
  | element name body inside closing tail rest inner_ih rest_ih =>
    obtain ⟨opens, more, closes, -, inner, later⟩ := sound
    have close := size_pos closes
    rw [edits_element only opens more, List.pairwise_append, List.pairwise_append]
    refine ⟨?_, ⟨inner_ih inner _, rest_ih later _, ?_⟩, ?_⟩
    · cases body.result? results with
      | none => exact List.Pairwise.nil
      | some uri => exact List.pairwise_singleton _ _
    · intro x mem y mem'
      have here := edits_within only inner mem
      have after := edits_within only later mem'
      exact here.leads after (by omega)
    · intro x mem y mem'
      obtain ⟨uri, -, rfl⟩ := Option.map_eq_some_iff.1 (Option.mem_toList.1 mem)
      rcases List.mem_append.1 mem' with mem' | mem'
      · exact (edits_within only inner mem').leads_inside _
      · have after := (edits_within only later mem').after
        exact EditWithin.leads_of_lt (by dsimp only; omega)

theorem edits_after {f : Forest} (results : Results) (only : OnlyScripts gone) (sound : f.Sound)
    {pos : Nat} {more : List Edit} (later : ∀ e ∈ more, pos + Text.size f.text ≤ e.span.start) :
    ∀ e ∈ (f.edits results gone pos).map Prod.fst ++ more, pos ≤ e.span.start := by
  intro e mem
  rcases List.mem_append.1 mem with mem | mem
  · obtain ⟨x, known, rfl⟩ := List.mem_map.1 mem
    exact (edits_within only sound known).after
  · have start := later e mem
    omega

theorem splice?_token {token : Token} (sound : token.Sound) (alone : token.isAlone = true)
    {whole pre post out : List Char} {more : List Edit} (cut : whole = pre ++ (token.lexeme ++ post))
    (later : ∀ e ∈ more, Text.size pre + Text.size token.lexeme ≤ e.span.start)
    (left : splice? whole (Text.size pre + Text.size token.lexeme) more = some out) :
    splice? whole (Text.size pre)
        ((token.edits results gone mark (Text.size pre)).map Prod.fst ++ more) =
      some ((if gone mark token then [] else (token.displayed results).lexeme) ++ out) := by
  have display := token.display?_turns sound alone results (Text.size pre)
  rw [Token.edits]
  cases gone mark token with
  | true =>
    -- what is displayed in a script that is taken out starts inside the removal
    have skipped : splice? whole (Text.size pre + Text.size token.lexeme)
        ((((token.display? results (Text.size pre)).map (·, false)).toList.map Prod.fst) ++ more) =
          some out := by
      rw [splice?_skip, left]
      intro e mem
      rcases display with ⟨none_, -⟩ | ⟨d, one, -, -, inside⟩
      · rw [none_] at mem
        cases mem
      · rw [one] at mem
        cases List.mem_singleton.1 mem
        exact inside
    exact splice?_edit (e := ⟨⟨Text.size pre, Text.size pre + Text.size token.lexeme⟩, ""⟩) cut rfl rfl
      skipped
  | false =>
    rw [if_neg Bool.false_ne_true, if_neg Bool.false_ne_true]
    rcases display with ⟨none_, same⟩ | ⟨e, one, turns, -⟩
    · rw [none_, same]
      exact splice?_advance cut later left
    · rw [one]
      exact splice?_turns turns cut later left

/-- What is put in the place of the content of an element, and the edits of the content. -/
def contentEdits (results : Results) (gone : Nat → Token → Bool) (pos : Nat) (inside : Forest)
    (result : Option String) : List Edit :=
  (result.map fun uri => Edit.mk ⟨pos, pos + Text.size inside.text⟩ (markupOfUri uri)).toList ++
    (inside.edits results gone pos).map Prod.fst

theorem map_edits_element {name closing tail : List Char} {body : TagBody} {inside rest : Forest}
    (only : OnlyScripts gone) (sound : (Token.openTag name body).Sound)
    (more : body.isAlone name = false) (pos : Nat) :
    let openEnd := pos + Text.size (Token.openTag name body).lexeme
    ((element name body inside closing tail rest).edits results gone pos).map Prod.fst =
      contentEdits results gone openEnd inside (body.result? results) ++
        (rest.edits results gone (openEnd + Text.size inside.text +
          Text.size (Token.closeTag closing tail).lexeme)).map Prod.fst := by
  intro openEnd
  rw [edits_element only sound more, List.map_append, List.map_append, ← List.append_assoc]
  cases body.result? results <;> rfl

theorem splice?_content {inside : Forest} (only : OnlyScripts gone) (sound : inside.Sound)
    (result : Option String) {whole pre post out : List Char} {more : List Edit}
    (cut : whole = pre ++ (inside.text ++ post))
    (closed : splice? whole (Text.size pre + Text.size inside.text) more = some out)
    (kept : splice? whole (Text.size pre)
      ((inside.edits results gone (Text.size pre)).map Prod.fst ++ more) =
        some (inside.displayed results gone ++ out)) :
    splice? whole (Text.size pre)
        (contentEdits results gone (Text.size pre) inside result ++ more) =
      some ((match result with
        | some uri => (markupOfUri uri).toList
        | none => inside.displayed results gone) ++ out) := by
  cases result with
  | none => exact kept
  | some uri =>
    have skipped : splice? whole (Text.size pre + Text.size inside.text)
        ((inside.edits results gone (Text.size pre)).map Prod.fst ++ more) = some out := by
      rw [splice?_skip, closed]
      intro e mem
      obtain ⟨x, known, rfl⟩ := List.mem_map.1 mem
      exact (edits_within only sound known).before
    exact splice?_edit (e := ⟨⟨Text.size pre, Text.size pre + Text.size inside.text⟩, markupOfUri uri⟩)
      cut rfl rfl skipped

theorem contentEdits_after {inside : Forest} (only : OnlyScripts gone) (sound : inside.Sound)
    {pos : Nat} {more : List Edit} (result : Option String)
    (later : ∀ e ∈ more, pos + Text.size inside.text ≤ e.span.start) :
    ∀ e ∈ contentEdits results gone pos inside result ++ more, pos ≤ e.span.start := by
  have inner := edits_after results only sound later
  intro e mem
  rw [contentEdits, List.append_assoc] at mem
  rcases List.mem_append.1 mem with mem | mem
  · obtain ⟨uri, -, rfl⟩ := Option.map_eq_some_iff.1 (Option.mem_toList.1 mem)
    exact Nat.le_refl _
  · exact inner e mem

theorem splice?_edits {f : Forest} (only : OnlyScripts gone) (sound : f.Sound)
    {whole pre post out : List Char} {more : List Edit} (cut : whole = pre ++ (f.text ++ post))
    (later : ∀ e ∈ more, Text.size pre + Text.size f.text ≤ e.span.start)
    (left : splice? whole (Text.size pre + Text.size f.text) more = some out) :
    splice? whole (Text.size pre) ((f.edits results gone (Text.size pre)).map Prod.fst ++ more) =
      some (f.displayed results gone ++ out) := by
  induction f generalizing pre post out more with
  | nil =>
    rw [text_nil, Text.size_nil, Nat.add_zero] at left
    exact left
  | leaf mark token rest ih =>
    obtain ⟨here, alone, sound⟩ := sound
    rw [text_leaf, Text.size_append, ← Nat.add_assoc] at later left
    have bound := edits_after results only sound later
    have cut' : whole = (pre ++ token.lexeme) ++ (rest.text ++ post) := by simp [cut]
    have rest_ := ih sound cut' (by rwa [Text.size_append]) (by rwa [Text.size_append])
    rw [Text.size_append] at rest_
    rw [text_leaf, List.append_assoc] at cut
    rw [edits_leaf only, List.map_append, List.append_assoc, displayed, List.append_assoc]
    exact splice?_token here alone cut bound rest_
  | element name body inside closing tail rest inner_ih rest_ih =>
    obtain ⟨opens, alone, closes, same, inner, sound⟩ := sound
    rw [text_element] at cut
    rw [text_element, Text.size_append, Text.size_append, Text.size_append, ← Nat.add_assoc,
      ← Nat.add_assoc, ← Nat.add_assoc] at later left
    rw [map_edits_element only opens alone, displayed, List.append_assoc]
    generalize (Token.openTag name body).lexeme = opening at *
    generalize (Token.closeTag closing tail).lexeme = ending at *
    have cut_rest : whole = (pre ++ opening ++ inside.text ++ ending) ++ (rest.text ++ post) := by
      simp [cut]
    have cut_ending : whole = (pre ++ opening ++ inside.text) ++ (ending ++ (rest.text ++ post)) := by
      simp [cut]
    have cut_inside : whole = (pre ++ opening) ++ (inside.text ++ (ending ++ (rest.text ++ post))) := by
      simp [cut]
    have cut_opening :
        whole = pre ++ (opening ++ (inside.text ++ (ending ++ (rest.text ++ post)))) := by
      simp [cut]
    have bound := edits_after results only sound later
    have rest_ := rest_ih sound cut_rest (by simpa only [Text.size_append] using later)
      (by simpa only [Text.size_append] using left)
    simp only [Text.size_append] at rest_
    generalize named : (rest.edits results gone _).map Prod.fst ++ more = after at rest_ bound
    -- from the close tag on, whatever has been done to the content
    have closed := splice?_advance cut_ending (by simpa only [Text.size_append] using bound)
      (by simpa only [Text.size_append] using rest_)
    have bound' : ∀ e ∈ after, Text.size (pre ++ opening) + Text.size inside.text ≤ e.span.start := by
      intro e mem
      have start := bound e mem
      rw [Text.size_append]
      omega
    have closed' := by simpa only [Text.size_append] using closed
    have kept := inner_ih inner cut_inside bound' (by simpa only [Text.size_append] using closed')
    have content := splice?_content only inner (body.result? results) cut_inside
      (by simpa only [Text.size_append] using closed') kept
    have after_ : ∀ e ∈ contentEdits results gone (Text.size (pre ++ opening)) inside
        (body.result? results) ++ after, Text.size (pre ++ opening) ≤ e.span.start :=
      contentEdits_after only inner _ bound'
    have whole_ := splice?_advance cut_opening (by simpa only [Text.size_append] using after_)
      (by simpa only [Text.size_append] using content)
    simpa only [named, List.append_assoc] using whole_

theorem splice?_displayed {f : Forest} (only : OnlyScripts gone) (sound : f.Sound) :
    splice? f.text 0 ((f.edits results gone 0).map Prod.fst) = some (f.displayed results gone) := by
  have ends := Text.sliceFrom?_size f.text []
  have cut : f.text = [] ++ (f.text ++ []) := by simp
  have none_ : ∀ e ∈ ([] : List Edit), Text.size [] + Text.size f.text ≤ e.span.start := nofun
  have whole : splice? f.text (Text.size [])
      ((f.edits results gone (Text.size [])).map Prod.fst ++ []) =
        some (f.displayed results gone ++ []) :=
    splice?_edits only sound cut none_ (by simpa [splice?] using ends)
  simpa using whole

theorem edits_perm (results : Results) (gone : Nat → Token → Bool) (pos : Nat) (f : Forest) :
    (f.edits results gone pos).Perm
      (((f.placed pos).filterMap (·.display? results)).map (·, false) ++
        (((f.placed pos).filter fun x => gone x.mark x.token).map fun x =>
          Edit.remove x.element).map (·, true)) := by
  rw [edits]
  induction f.placed pos with
  | nil => exact .nil
  | cons x xs ih =>
    rw [List.flatMap_cons, List.filterMap_cons, List.filter_cons, Placed.edits]
    cases x.display? results with
    | none =>
      cases gone x.mark x.token with
      | false => exact ih
      | true => exact (ih.cons _).trans List.perm_middle.symm
    | some e =>
      cases gone x.mark x.token with
      | false => exact ih.cons _
      | true =>
        have moved := (ih.cons (Edit.remove x.element, true)).trans List.perm_middle.symm
        exact (List.Perm.swap _ _ _).trans (moved.cons (e, false))

theorem displayAll_text {f : Forest} (sound : f.Sound) (cache : ArtifactCache) :
    displayAll (scan (String.ofList f.text)) cache =
      (f.placed 0).filterMap (·.display? cache.get?) := by
  rw [scan_text sound, displayAll, elements, List.filterMap_map]
  rfl

theorem display?_within {f : Forest} (sound : f.Sound) {x : Placed} (mem : x ∈ f.placed 0) {e : Edit}
    (display : x.display? results = some e) : e.span.start < Text.size f.text := by
  have known : (e, false) ∈ f.edits results (fun _ _ => false) 0 := by
    refine List.mem_flatMap.2 ⟨x, mem, ?_⟩
    rw [Placed.edits, display]
    exact List.mem_cons_self
  have only : OnlyScripts fun _ _ => false := fun _ _ is => (Bool.false_ne_true is).elim
  have within := edits_within only sound known
  simpa only [Nat.zero_add] using within.before

end Forest

theorem withEdits_displayed {f : Forest} {cache : ArtifactCache} {removals : List Edit}
    (only : OnlyScripts gone) (sound : f.Sound)
    (removes : removals.Perm
      (((f.placed 0).filter fun x => gone x.mark x.token).map fun x => Edit.remove x.element)) :
    withEdits (String.ofList f.text) (displayAll (scan (String.ofList f.text)) cache ++ removals) =
      String.ofList (f.displayed cache.get? gone) := by
  have perm := (Forest.edits_perm cache.get? gone 0 f).trans
    ((removes.symm.map (·, true)).append_left _)
  have sorted := Edit.mergeSort_of_leads perm (Forest.edits_lead only sound 0)
  rw [withEdits, edited?, Forest.displayAll_text sound, sorted, String.toList_ofList, Forest.splice?_displayed only sound]
  rfl

theorem displayAll_empty (elements : List Element) : displayAll elements .empty = [] := by
  rw [displayAll, List.filterMap_eq_nil_iff]
  intro e _
  cases shownTarget? e <;> rfl

end Html

end Playground
