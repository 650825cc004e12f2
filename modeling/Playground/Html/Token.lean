import Playground.Text.Blank
import Playground.Text.Offset

/-! The lexical pieces of a markup text. Tokens know nothing of positions. -/

namespace Playground.Html

def voidTags : List String :=
  ["area", "base", "br", "col", "embed", "hr", "img", "input", "link", "meta", "param",
    "source", "track", "wbr"]

def rawTextTags : List String := ["script", "style", "textarea", "title"]

structure RawValue where
  /-- From the end of the name to the value: blanks around one `=`. -/
  lead : List Char
  quote : Option Char
  text : List Char
  deriving DecidableEq, Repr

namespace RawValue

def quoteLexeme (v : RawValue) : List Char := v.quote.toList

def lexeme (v : RawValue) : List Char := v.lead ++ v.quoteLexeme ++ v.text ++ v.quoteLexeme

end RawValue

structure RawAttribute where
  lead : List Char
  name : List Char
  value : Option RawValue
  deriving DecidableEq, Repr

namespace RawAttribute

def valueLexeme (a : RawAttribute) : List Char := (a.value.map RawValue.lexeme).getD []

def lexeme (a : RawAttribute) : List Char := a.lead ++ a.name ++ a.valueLexeme

end RawAttribute

structure TagBody where
  attrs : List RawAttribute
  /-- What was skipped before the closing bracket. -/
  trail : List Char
  selfClosing : Bool
  deriving DecidableEq, Repr

namespace TagBody

def bracket (b : TagBody) : List Char := if b.selfClosing then ['/', '>'] else ['>']

def inside (b : TagBody) : List Char := b.attrs.flatMap RawAttribute.lexeme ++ b.trail

def lexeme (b : TagBody) : List Char := b.inside ++ b.bracket

end TagBody

/-- Blanks, `=` and a `/` that does not end the tag: what may stand between attributes. -/
def splitLead : List Char → List Char × List Char
  | [] => ([], [])
  | c :: cs =>
    if c = '/' ∧ cs.head? = some '>' then ([], c :: cs)
    else if isMarkupBlank c || c == '/' || c == '=' then
      let (lead, rest) := splitLead cs
      (c :: lead, rest)
    else ([], c :: cs)

theorem splitLead_append (cs : List Char) : (splitLead cs).1 ++ (splitLead cs).2 = cs := by
  induction cs with
  | nil => rfl
  | cons c cs ih =>
    simp only [splitLead]
    split
    · rfl
    · split
      · simp [ih]
      · rfl

theorem head_of_splitLead_slash {cs rest : List Char} (slash : (splitLead cs).2 = '/' :: rest) :
    rest.head? = some '>' := by
  induction cs with
  | nil => simp [splitLead] at slash
  | cons c cs ih =>
    simp only [splitLead] at slash
    split at slash
    · next ends => simp at slash; simp [← slash, ends]
    · split at slash
      · exact ih slash
      · next other =>
        simp at slash
        simp [slash] at other

def isAttributeNameChar (c : Char) : Bool :=
  !isMarkupBlank c && c != '=' && c != '>' && c != '/'

def isUnquotedChar (c : Char) : Bool := !isMarkupBlank c && c != '>'

def isQuote (c : Char) : Bool := c == '"' || c == '\''

/-- The value after a name, if there is one; fails when the text ends before the value does. -/
def RawValue.read (cs : List Char) : Option (Option RawValue × List Char) :=
  let before := cs.takeWhile isMarkupBlank
  match cs.dropWhile isMarkupBlank with
  | '=' :: r =>
    let lead := before ++ '=' :: r.takeWhile isMarkupBlank
    match r.dropWhile isMarkupBlank with
    | [] => none
    | q :: rest =>
      if isQuote q then
        (Text.splitAt? q rest).map fun (text, after) => (some ⟨lead, some q, text⟩, after)
      else
        some (some ⟨lead, none, (q :: rest).takeWhile isUnquotedChar⟩,
          (q :: rest).dropWhile isUnquotedChar)
  | _ => some (none, cs)

theorem RawValue.read_append {cs rest : List Char} {value : Option RawValue}
    (done : RawValue.read cs = some (value, rest)) :
    (value.map RawValue.lexeme).getD [] ++ rest = cs := by
  simp only [RawValue.read] at done
  have first := List.takeWhile_append_dropWhile (p := isMarkupBlank) (l := cs)
  split at done
  · next r equals =>
    have second := List.takeWhile_append_dropWhile (p := isMarkupBlank) (l := r)
    rw [equals] at first
    split at done
    · simp at done
    · next q tail value_at =>
      rw [value_at] at second
      split at done
      · obtain ⟨⟨text, after⟩, cut, same⟩ := Option.map_eq_some_iff.1 done
        simp only [Prod.mk.injEq] at same
        obtain ⟨rfl, rfl⟩ := same
        have third := Text.append_of_splitAt? cut
        simp [RawValue.lexeme, RawValue.quoteLexeme, third, second, first]
      · simp only [Option.some.injEq, Prod.mk.injEq] at done
        obtain ⟨rfl, rfl⟩ := done
        simp [RawValue.lexeme, RawValue.quoteLexeme, List.takeWhile_append_dropWhile, second, first]
  · simp only [Option.some.injEq, Prod.mk.injEq] at done
    obtain ⟨rfl, rfl⟩ := done
    rfl

def RawAttribute.read (lead : List Char) (c : Char) (cs : List Char) :
    Option (RawAttribute × List Char) :=
  (RawValue.read (cs.dropWhile isAttributeNameChar)).map fun (value, rest) =>
    (⟨lead, c :: cs.takeWhile isAttributeNameChar, value⟩, rest)

theorem RawAttribute.read_lexeme {lead cs rest : List Char} {c : Char} {a : RawAttribute}
    (done : RawAttribute.read lead c cs = some (a, rest)) : a.lexeme ++ rest = lead ++ c :: cs := by
  obtain ⟨⟨value, after⟩, read, same⟩ := Option.map_eq_some_iff.1 done
  simp only [Prod.mk.injEq] at same
  obtain ⟨rfl, rfl⟩ := same
  have kept := RawValue.read_append read
  simp [RawAttribute.lexeme, RawAttribute.valueLexeme, kept, List.takeWhile_append_dropWhile]

theorem RawAttribute.read_length {lead cs rest : List Char} {c : Char} {a : RawAttribute}
    (done : RawAttribute.read lead c cs = some (a, rest)) : rest.length ≤ cs.length := by
  obtain ⟨⟨value, after⟩, read, same⟩ := Option.map_eq_some_iff.1 done
  simp only [Prod.mk.injEq] at same
  obtain ⟨rfl, rfl⟩ := same
  have kept := congrArg List.length (RawValue.read_append read)
  have dropped := (List.dropWhile_sublist isAttributeNameChar (l := cs)).length_le
  simp at kept
  omega

/-- An open tag after its name and what follows it; fails when the text ends first. -/
def TagBody.read (cs : List Char) : Option (TagBody × List Char) :=
  match split : splitLead cs with
  | (_, []) => none
  | (lead, c :: more) =>
    if c = '>' then some (⟨[], lead, false⟩, more)
    else if c = '/' then some (⟨[], lead, true⟩, more.tail)
    else
      match named : RawAttribute.read lead c more with
      | none => none
      | some (a, rest) =>
        have _shorter : rest.length < cs.length := by
          have whole := congrArg List.length (splitLead_append cs)
          have kept := RawAttribute.read_length named
          simp [split] at whole
          omega
        (TagBody.read rest).map fun (body, after) => ({ body with attrs := a :: body.attrs }, after)
termination_by cs.length

theorem TagBody.read_lexeme {cs rest : List Char} {body : TagBody}
    (done : TagBody.read cs = some (body, rest)) : body.lexeme ++ rest = cs := by
  fun_induction TagBody.read cs generalizing body with
  | case1 => simp at done
  | case2 cs lead more split =>
    have whole := splitLead_append cs
    simp only [Option.some.injEq, Prod.mk.injEq] at done
    obtain ⟨rfl, rfl⟩ := done
    simp_all [TagBody.lexeme, TagBody.inside, TagBody.bracket]
  | case3 cs lead more split _ =>
    have whole := splitLead_append cs
    have slash : (splitLead cs).2 = '/' :: more := by simp [split]
    have ends := head_of_splitLead_slash slash
    simp only [Option.some.injEq, Prod.mk.injEq] at done
    obtain ⟨rfl, rfl⟩ := done
    cases more with
    | nil => simp at ends
    | cons d more => simp_all [TagBody.lexeme, TagBody.inside, TagBody.bracket]
  | case4 => simp at done
  | case5 cs lead c more split _ _ a tail named _ ih =>
    have whole := splitLead_append cs
    have kept := RawAttribute.read_lexeme named
    obtain ⟨⟨inner, after⟩, read, same⟩ := Option.map_eq_some_iff.1 done
    simp only [Prod.mk.injEq] at same
    obtain ⟨rfl, rfl⟩ := same
    have inside := ih read
    simp only [TagBody.lexeme, TagBody.inside, TagBody.bracket] at inside ⊢
    simp [split] at whole
    simp [← whole, ← kept, ← inside]

def isTagNameChar (c : Char) : Bool :=
  isAsciiLetter c || isAsciiDigit c || c == '-' || c == '_' || c == ':'

/-- Whether a raw-text element's content ends here: `</`, the tag in any case, and then the end of
the text, a blank, `>` or `/`. -/
def closesRaw (tag cs : List Char) : Bool :=
  match cs with
  | '<' :: '/' :: r =>
    Text.lower (r.take tag.length) == tag &&
      match r.drop tag.length with
      | [] => true
      | c :: _ => isMarkupBlank c || c == '>' || c == '/'
  | _ => false

def splitRaw (tag : List Char) : List Char → List Char × List Char
  | [] => ([], [])
  | c :: cs =>
    if closesRaw tag (c :: cs) then ([], c :: cs)
    else let (content, rest) := splitRaw tag cs; (c :: content, rest)

theorem splitRaw_append (tag cs : List Char) : (splitRaw tag cs).1 ++ (splitRaw tag cs).2 = cs := by
  induction cs with
  | nil => rfl
  | cons c cs ih =>
    simp only [splitRaw]
    split
    · rfl
    · simp [ih]

def splitComment : List Char → List Char × List Char
  | [] => ([], [])
  | '-' :: '-' :: '>' :: cs => (['-', '-', '>'], cs)
  | c :: cs => let (before, after) := splitComment cs; (c :: before, after)

theorem splitComment_append (cs : List Char) : (splitComment cs).1 ++ (splitComment cs).2 = cs := by
  fun_induction splitComment cs with
  | case1 => rfl
  | case2 => rfl
  | case3 c cs _ before after rest ih =>
    rw [rest] at ih
    simp [ih]

inductive Token
  /-- A character outside every tag, comment and raw text. -/
  | char (c : Char)
  | aside (text : List Char)
  /-- A close tag: its name, and the rest up to and with `>`. -/
  | closeTag (name tail : List Char)
  | openTag (name : List Char) (body : TagBody)
  /-- A raw-text element: content, then the close tag, empty if the text ended first. -/
  | raw (name : List Char) (body : TagBody) (content closing : List Char)
  /-- An open tag that never ends, with everything after it. -/
  | unfinished (text : List Char)
  deriving DecidableEq, Repr

namespace Token

def lexeme : Token → List Char
  | char c => [c]
  | aside text => text
  | closeTag name tail => '<' :: '/' :: name ++ tail
  | openTag name body => '<' :: name ++ body.lexeme
  | raw name body content closing => '<' :: name ++ body.lexeme ++ content ++ closing
  | unfinished text => text

def tagOf (name : List Char) : String := String.ofList (Text.lower name)

def ofOpenTag (name : List Char) (body : TagBody) (rest : List Char) : Token × List Char :=
  if !body.selfClosing && tagOf name ∈ rawTextTags then
    let (content, after) := splitRaw (Text.lower name) rest
    let (closing, later) := Text.splitThrough '>' after
    (raw name body content closing, later)
  else (openTag name body, rest)

theorem ofOpenTag_lexeme (name : List Char) (body : TagBody) (rest : List Char) :
    (ofOpenTag name body rest).1.lexeme ++ (ofOpenTag name body rest).2 =
      '<' :: name ++ body.lexeme ++ rest := by
  unfold ofOpenTag
  split
  · have content := splitRaw_append (Text.lower name) rest
    have closing := Text.splitThrough_append '>' (splitRaw (Text.lower name) rest).2
    simp [lexeme, closing, content]
  · simp [lexeme]

def next (c : Char) (cs : List Char) : Token × List Char :=
  if c = '<' then
    match cs with
    | '!' :: '-' :: '-' :: r =>
      let (text, rest) := splitComment r
      (aside ('<' :: '!' :: '-' :: '-' :: text), rest)
    | '/' :: r =>
      if r.takeWhile isTagNameChar = [] then (char c, cs)
      else
        let (tail, rest) := Text.splitThrough '>' (r.dropWhile isTagNameChar)
        (closeTag (r.takeWhile isTagNameChar) tail, rest)
    | d :: r =>
      if d = '!' ∨ d = '?' then
        let (text, rest) := Text.splitThrough '>' (d :: r)
        (aside ('<' :: text), rest)
      else if isAsciiLetter d then
        match TagBody.read ((d :: r).dropWhile isTagNameChar) with
        | none => (unfinished (c :: cs), [])
        | some (body, rest) => ofOpenTag ((d :: r).takeWhile isTagNameChar) body rest
      else (char c, cs)
    | [] => (char c, cs)
  else (char c, cs)

theorem next_lexeme (c : Char) (cs : List Char) :
    (next c cs).1.lexeme ++ (next c cs).2 = c :: cs := by
  unfold next
  split
  · next angle =>
    split
    · next r => simp [lexeme, splitComment_append, angle]
    · next r =>
      split
      · simp [lexeme]
      · simp [lexeme, Text.splitThrough_append, List.takeWhile_append_dropWhile, angle]
    · next d r _ _ =>
      split
      · simp [lexeme, Text.splitThrough_append, angle]
      · split
        · split
          · simp [lexeme]
          · next body rest read =>
            have kept := TagBody.read_lexeme read
            rw [ofOpenTag_lexeme, List.append_assoc, kept]
            simp [List.takeWhile_append_dropWhile, angle]
        · simp [lexeme]
    · simp [lexeme]
  · simp [lexeme]

theorem lexeme_ne_nil (c : Char) (cs : List Char) : (next c cs).1.lexeme ≠ [] := by
  unfold next
  split
  · split
    · simp [lexeme]
    · split <;> simp [lexeme]
    · split
      · simp [lexeme]
      · split
        · split
          · simp [lexeme]
          · unfold ofOpenTag; split <;> simp [lexeme]
        · simp [lexeme]
    · simp [lexeme]
  · simp [lexeme]

def ofText (cs : List Char) : List Token :=
  match cs with
  | [] => []
  | c :: rest =>
    have _shorter : (next c rest).2.length < rest.length + 1 := by
      have kept := congrArg List.length (next_lexeme c rest)
      have some_ := List.length_pos_iff.2 (lexeme_ne_nil c rest)
      simp at kept
      omega
    (next c rest).1 :: ofText (next c rest).2
termination_by cs.length

theorem ofText_lexeme (cs : List Char) : (ofText cs).flatMap lexeme = cs := by
  fun_induction ofText cs with
  | case1 => rfl
  | case2 c rest _ ih => rw [List.flatMap_cons, ih, next_lexeme]

end Token

end Playground.Html
