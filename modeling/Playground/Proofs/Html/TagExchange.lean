import Playground.Proofs.Html.Outline
import Playground.Proofs.Html.Places
import Playground.Proofs.Html.Seams
import Playground.Proofs.Html.Splice

/-! A tag in the place of another one of its name. -/

namespace Playground.Html

open Text

theorem Element.inner_of_close {doc : String} {e : Element} {close : Nat}
    (closes : e.closeStart = some close) : e.inner doc = textIn doc ⟨e.openEnd, close⟩ := by
  rw [inner, content?, closes]
  rfl

theorem Element.inner_of_none {doc : String} {e : Element} (closes : e.closeStart = none) :
    e.inner doc = "" := by
  rw [inner, content?, closes]
  rfl

structure Swapped (doc out : String) (before old new after : List Char) : Prop where
  whole : doc.toList = before ++ (old ++ after)
  whole' : out.toList = before ++ (new ++ after)

namespace Swapped

variable {doc out : String} {before old new after : List Char} {start stop : Nat}

theorem lead (swapped : Swapped doc out before old new after) {first tail : List Char}
    (cut : doc.toList = first ++ tail) (early : size first ≤ size before) :
    ∃ rest, before = first ++ rest ∧ tail = rest ++ (old ++ after) := by
  have place : Boundary doc.toList (size before) := ⟨before, old ++ after, swapped.whole, rfl⟩
  obtain ⟨rest, more, rfl, sized⟩ := splitBytes?_boundary cut place early
  have both : before ++ (old ++ after) = (first ++ rest) ++ more := by
    rw [← swapped.whole, cut, List.append_assoc]
  obtain ⟨same, same'⟩ := append_cut both (by rw [size_append, sized])
  exact ⟨rest, same, by rw [same']⟩

theorem tail (swapped : Swapped doc out before old new after) {stop : Nat}
    (stops : Boundary doc.toList stop) (late : size before + size old ≤ stop) :
    ∃ first rest, after = first ++ rest ∧ stop = size first + (size before + size old) := by
  have cut := swapped.whole
  rw [← List.append_assoc] at cut
  rw [← size_append] at late ⊢
  obtain ⟨first, rest, same, sized⟩ := splitBytes?_boundary cut stops late
  exact ⟨first, rest, same, by rw [sized, Nat.add_comm]⟩

theorem textIn_early (swapped : Swapped doc out before old new after)
    (starts : Boundary doc.toList start) (stops : Boundary doc.toList stop) (order : start ≤ stop)
    (early : stop ≤ size before) : textIn out ⟨start, stop⟩ = textIn doc ⟨start, stop⟩ := by
  obtain ⟨first, piece, last, cut, rfl, rfl, -⟩ := slice?_boundary starts stops order
  have here := textIn_of_append cut
  rw [← List.append_assoc] at cut
  obtain ⟨rest, same, -⟩ := swapped.lead cut (by rwa [size_append])
  have cut' := swapped.whole'
  rw [same, List.append_assoc, List.append_assoc] at cut'
  rw [here, textIn_of_append cut']

theorem textIn_late (swapped : Swapped doc out before old new after)
    (starts : Boundary doc.toList start) (stops : Boundary doc.toList stop) (order : start ≤ stop)
    (late : size before + size old ≤ start) :
    textIn out ⟨movedPlace (size before + size old) (size before + size new) start,
        movedPlace (size before + size old) (size before + size new) stop⟩ =
      textIn doc ⟨start, stop⟩ := by
  obtain ⟨first, rest, rfl, rfl⟩ := swapped.tail starts late
  have cut := swapped.whole
  have cut' := swapped.whole'
  simp only [← List.append_assoc] at cut cut'
  have place : size first + (size before + size old) = size (before ++ old ++ first) := by
    rw [size_append, size_append, Nat.add_comm]
  have place' : size first + (size before + size new) = size (before ++ new ++ first) := by
    rw [size_append, size_append, Nat.add_comm]
  rw [place] at order
  obtain ⟨piece, last, rfl, rfl⟩ := splitBytes?_boundary cut stops order
  have ends : size (before ++ old ++ first) + size piece =
      size first + size piece + (size before + size old) := by
    rw [← place, Nat.add_right_comm]
  have ends' : size first + size piece + (size before + size new) =
      size (before ++ new ++ first) + size piece := by
    rw [← place', Nat.add_right_comm]
  rw [ends, movedPlace_add, movedPlace_add, ends', place', textIn_of_append cut', ← ends, place,
    textIn_of_append cut]

theorem textIn_around (swapped : Swapped doc out before old new after)
    (starts : Boundary doc.toList start) (stops : Boundary doc.toList stop)
    (early : start ≤ size before) (late : size before + size old ≤ stop) :
    ∃ first last, size before = start + size first ∧
      (textIn doc ⟨start, stop⟩).toList = first ++ (old ++ last) ∧
      (textIn out ⟨start, movedPlace (size before + size old) (size before + size new) stop⟩).toList =
        first ++ (new ++ last) := by
  obtain ⟨a, b, cut, rfl⟩ := starts
  obtain ⟨first, rfl, -⟩ := swapped.lead cut early
  obtain ⟨last, c, rfl, rfl⟩ := swapped.tail stops late
  have whole : doc.toList = a ++ ((first ++ (old ++ last)) ++ c) := by
    rw [swapped.whole]
    simp only [List.append_assoc]
  have whole' : out.toList = a ++ ((first ++ (new ++ last)) ++ c) := by
    rw [swapped.whole']
    simp only [List.append_assoc]
  have stop_ : ∀ piece, size last + (size (a ++ first) + size piece) =
      size a + size (first ++ (piece ++ last)) := by
    intro piece
    simp only [size_append]
    omega
  refine ⟨first, last, size_append a first, ?_, ?_⟩
  · rw [stop_, textIn_of_append whole, String.toList_ofList]
  · rw [movedPlace_add, stop_, textIn_of_append whole', String.toList_ofList]

variable {x : Element}

theorem inner_early (swapped : Swapped doc out before old new after) (placed : x.IsIn doc)
    (early : x.start < size before + size old)
    (inside : ∀ close, x.closeStart = some close →
      close ≤ size before ∧ close < size before + size old) :
    (x.moved (size before + size old) (size before + size new)).inner out = x.inner doc := by
  have close := x.moved_closeStart (size before + size old) (size before + size new)
  cases closes : x.closeStart with
  | none =>
    rw [closes] at close
    rw [Element.inner_of_none closes, Element.inner_of_none close]
  | some c =>
    obtain ⟨here, behind⟩ := inside c closes
    rw [closes, Option.map_some, movedPlace_before behind] at close
    rw [Element.inner_of_close closes, Element.inner_of_close close, Element.moved_openEnd_early early]
    exact swapped.textIn_early placed.openEndBoundary (placed.closeBoundary c closes)
      (placed.closed c closes).1 here

theorem inner_late (swapped : Swapped doc out before old new after) (placed : x.IsIn doc)
    (late : size before + size old ≤ x.start) :
    (x.moved (size before + size old) (size before + size new)).inner out = x.inner doc := by
  have close := x.moved_closeStart (size before + size old) (size before + size new)
  cases closes : x.closeStart with
  | none =>
    rw [closes] at close
    rw [Element.inner_of_none closes, Element.inner_of_none close]
  | some c =>
    rw [closes, Option.map_some] at close
    rw [Element.inner_of_close closes, Element.inner_of_close close, Element.moved_openEnd_late late]
    have named := placed.named
    have bracket := placed.bracket
    exact swapped.textIn_late placed.openEndBoundary (placed.closeBoundary c closes)
      (placed.closed c closes).1 (by omega)

theorem inner_around (swapped : Swapped doc out before old new after) (placed : x.IsIn doc)
    {edit : Edit} (turns : edit.Turns (size before) old new) {close : Nat}
    (closes : x.closeStart = some close) (early : x.openEnd ≤ size before)
    (late : size before + size old ≤ close) :
    edit.Turns x.openEnd (x.inner doc).toList
      ((x.moved (size before + size old) (size before + size new)).inner out).toList := by
  have named := placed.named
  have bracket := placed.bracket
  have close' := x.moved_closeStart (size before + size old) (size before + size new)
  rw [closes, Option.map_some] at close'
  obtain ⟨first, last, sized, cut, cut'⟩ := swapped.textIn_around placed.openEndBoundary
    (placed.closeBoundary close closes) early late
  rw [Element.inner_of_close closes, Element.inner_of_close close',
    Element.moved_openEnd_early (by omega), cut, cut']
  rw [sized] at turns
  exact turns.around first last

end Swapped

def Token.withBody (body : TagBody) : Token → Token
  | openTag name _ => openTag name body
  | raw name _ content closing => raw name body content closing
  | t => t

theorem Token.ofOpenTag_withBody {name rest later : List Char} {body body' : TagBody} {t : Token}
    (opens : ofOpenTag name body rest = (t, later)) (same : body'.selfClosing = body.selfClosing) :
    ofOpenTag name body' rest = (t.withBody body', later) := by
  unfold ofOpenTag at opens ⊢
  rw [same]
  split at opens
  · next raw =>
    rw [if_pos raw]
    cases opens
    rfl
  · next other =>
    rw [if_neg other]
    cases opens
    rfl

theorem Token.ofOpenTag_cases {name rest later : List Char} {body : TagBody} {t : Token}
    (opens : ofOpenTag name body rest = (t, later)) :
    t = openTag name body ∧ rest = later ∨
      ∃ content closing, t = raw name body content closing ∧ rest = content ++ (closing ++ later) := by
  unfold ofOpenTag at opens
  split at opens
  · have content := splitRaw_append (Text.lower name) rest
    have closing := Text.splitThrough_append '>' (splitRaw (Text.lower name) rest).2
    obtain ⟨rfl, later⟩ := Prod.mk.inj opens
    exact .inr ⟨_, _, rfl, by rw [← later, closing, content]⟩
  · obtain ⟨rfl, later⟩ := Prod.mk.inj opens
    exact .inl ⟨rfl, later⟩

theorem Token.elementIn_ofOpenTag {name rest later : List Char} {body : TagBody} {t : Token}
    {pos : Nat} {stack : List String} {ts : List Token} {e : Element}
    (opens : ofOpenTag name body rest = (t, later)) (found : t.elementIn pos stack ts = some e) :
    ∃ close stop, e = { Element.ofOpenTag pos name body with closeStart := close, stop := stop } := by
  obtain ⟨d, here, same⟩ := Option.map_eq_some_iff.1 found
  subst same
  rcases ofOpenTag_cases opens with ⟨rfl, -⟩ | ⟨content, closing, rfl, -⟩
  · obtain rfl := Option.some.inj here
    split
    · exact ⟨_, _, rfl⟩
    · exact ⟨_, _, rfl⟩
  · obtain rfl := Option.some.inj here
    exact ⟨_, _, rfl⟩

theorem Token.exists_elementIn {name rest later : List Char} {body : TagBody} {t : Token}
    (opens : ofOpenTag name body rest = (t, later)) (pos : Nat) (stack : List String)
    (ts : List Token) : ∃ e, t.elementIn pos stack ts = some e := by
  rcases ofOpenTag_cases opens with ⟨rfl, -⟩ | ⟨content, closing, rfl, -⟩
  · exact ⟨_, rfl⟩
  · exact ⟨_, rfl⟩

/-- An element among the tokens of its text. -/
structure Element.OpensAt (doc : String) (e : Element) (before : List Token) (name : List Char)
    (body : TagBody) (rest : List Char) (t : Token) (after : List Token) : Prop where
  begins : TagStart name body
  text : doc.toList = before.flatMap Token.lexeme ++ '<' :: (name ++ (body.lexeme ++ rest))
  opens : Token.ofOpenTag name body rest = (t, after.flatMap Token.lexeme)
  tokens : Token.ofText doc.toList = before ++ t :: after
  element : t.elementIn (width before) (restackAll [] before) after = some e

theorem exists_opensAt {doc : String} {e : Element} (mem : e ∈ scan doc) :
    ∃ before name body rest t after, e.OpensAt doc before name body rest t after := by
  rw [scan_outline, mem_outline] at mem
  obtain ⟨before, t, after, tokens, found⟩ := mem
  rw [List.append_nil, Nat.zero_add] at found
  obtain ⟨read, whole⟩ := Token.ofText_rest tokens
  obtain ⟨d, here, -⟩ := Option.map_eq_some_iff.1 found
  obtain ⟨name, body, rest, begins, cut, opens⟩ := Token.ofText_tagged read here
  rw [List.flatMap_cons, cut] at whole
  exact ⟨before, name, body, rest, t, after, begins, whole, opens, tokens, found⟩

namespace Element.OpensAt

variable {doc : String} {e : Element} {before after : List Token} {name rest : List Char}
  {body : TagBody} {t : Token}

theorem shape (at_ : e.OpensAt doc before name body rest t after) :
    ∃ close stop, e = { Element.ofOpenTag (width before) name body with
      closeStart := close, stop := stop } :=
  Token.elementIn_ofOpenTag at_.opens at_.element

theorem read (at_ : e.OpensAt doc before name body rest t after) (cs : List Char) :
    Token.ofText (before.flatMap Token.lexeme ++ '<' :: cs) = before ++ Token.ofText ('<' :: cs) :=
  Token.ofText_cut at_.tokens (List.cons_ne_nil _ _) (.inr rfl)

theorem read_after (at_ : e.OpensAt doc before name body rest t after) :
    Token.ofText (after.flatMap Token.lexeme) = after := by
  have tokens := at_.tokens
  rw [← List.singleton_append, ← List.append_assoc] at tokens
  exact (Token.ofText_rest tokens).1

theorem lexeme_append (at_ : e.OpensAt doc before name body rest t after) :
    t.lexeme ++ after.flatMap Token.lexeme = '<' :: (name ++ (body.lexeme ++ rest)) := by
  rcases Token.ofOpenTag_cases at_.opens with ⟨rfl, rfl⟩ | ⟨content, closing, rfl, rfl⟩
  · simp [Token.lexeme]
  · simp [Token.lexeme]

theorem scan_eq (at_ : e.OpensAt doc before name body rest t after) :
    scan doc = outline 0 [] before (t :: after) ++
      e :: outline (width before + size t.lexeme) (t.restack (restackAll [] before)) after [] := by
  rw [scan_outline, at_.tokens, outline_append, List.append_nil, outline, Nat.zero_add,
    List.append_nil, at_.element]
  rfl

end Element.OpensAt

section Content

variable {doc out : String} {e e' : Element} {before after : List Token} {name rest : List Char}
  {body body' : TagBody} {t t' : Token}

theorem Element.OpensAt.swapped (at_ : e.OpensAt doc before name body rest t after)
    (at_' : e'.OpensAt out before name body' rest t' after) :
    Swapped doc out (before.flatMap Token.lexeme) t.lexeme t'.lexeme (after.flatMap Token.lexeme) :=
  ⟨by rw [at_.lexeme_append, at_.text], by rw [at_'.lexeme_append, at_'.text]⟩

theorem Element.OpensAt.mem (at_ : e.OpensAt doc before name body rest t after) : e ∈ scan doc := by
  rw [at_.scan_eq]
  exact List.mem_append_right _ List.mem_cons_self

theorem Element.OpensAt.stop_le (at_ : e.OpensAt doc before name body rest t after) :
    width before + size t.lexeme ≤ e.stop := by
  have opened := ((scan_places doc).1 e at_.mem).1.opened
  rcases Token.ofOpenTag_cases at_.opens with ⟨rfl, -⟩ | ⟨content, closing, rfl, -⟩
  · obtain ⟨close, stop, rfl⟩ := at_.shape
    have openEnd := Element.openEnd_ofOpenTag (width before) name body
    exact Nat.le_trans (Nat.le_of_eq openEnd.symm) opened
  · have element := at_.element
    rw [Token.elementIn_alone rfl] at element
    exact Nat.le_of_eq (Token.element?_bounds element).2.2.1.symm

theorem Element.OpensAt.start (at_ : e.OpensAt doc before name body rest t after) :
    e.start = width before := (Token.elementIn_start at_.element).2

theorem Element.OpensAt.inner_raw {content closing : List Char}
    (at_ : e.OpensAt doc before name body rest (.raw name body content closing) after) :
    e.inner doc = String.ofList content := by
  have swapped := at_.swapped at_
  have element := at_.element
  let tag := '<' :: (name ++ body.lexeme)
  have openEnd : (Element.ofOpenTag (width before) name body).openEnd =
      size (before.flatMap Token.lexeme ++ tag) := by
    rw [Element.openEnd_ofOpenTag, size_append (before.flatMap Token.lexeme)]
    rfl
  have whole : doc.toList = (before.flatMap Token.lexeme ++ tag) ++
      (content ++ (closing ++ after.flatMap Token.lexeme)) := by
    rw [swapped.whole]
    simp [tag, Token.lexeme]
  rw [Token.elementIn_alone rfl] at element
  cases element
  rw [Element.inner_of_close rfl]
  change textIn doc ⟨(Element.ofOpenTag (width before) name body).openEnd,
    (Element.ofOpenTag (width before) name body).openEnd + size content⟩ = _
  rw [openEnd, textIn_of_append whole]

theorem Element.OpensAt.content_opened
    (at_ : e.OpensAt doc before name body rest (.openTag name body) after)
    (opens : body.isAlone name = false) :
    e.openEnd = width before + size (Token.openTag name body).lexeme ∧
      e.closeStart = some ((extent (restackAll [] before).length 0
        (Token.tagOf name :: restackAll [] before) after).start +
          (width before + size (Token.openTag name body).lexeme)) := by
  have element := at_.element
  have single : (Token.openTag name body).isAlone = false := opens
  have ends := extent_shift (restackAll [] before).length 0
    (width before + size (Token.openTag name body).lexeme)
    (Token.tagOf name :: restackAll [] before) after
  rw [Nat.zero_add] at ends
  simp only [Token.elementIn, Token.element?, Option.map_some, single, Bool.false_eq_true, if_false,
    Token.restack_openTag opens, ends, Option.some.injEq] at element
  subst element
  exact ⟨Element.openEnd_ofOpenTag _ _ _, rfl⟩

theorem Element.OpensAt.closeStart_alone
    (at_ : e.OpensAt doc before name body rest (.openTag name body) after)
    (alone : body.isAlone name = true) : e.closeStart = none := by
  have element := at_.element
  have single : (Token.openTag name body).isAlone = true := alone
  rw [Token.elementIn_alone single] at element
  cases element
  rfl

theorem inner_withBody (at_ : e.OpensAt doc before name body rest t after)
    (at_' : e'.OpensAt out before name body' rest (t.withBody body') after)
    (same : body'.selfClosing = body.selfClosing) : e'.inner out = e.inner doc := by
  have swapped := at_.swapped at_'
  have placed := ((scan_places doc).1 e at_.mem).1
  rcases Token.ofOpenTag_cases at_.opens with ⟨rfl, -⟩ | ⟨content, closing, rfl, -⟩
  · have alone' : body'.isAlone name = body.isAlone name := by
      rw [TagBody.isAlone, TagBody.isAlone, same]
    cases alone : body.isAlone name with
    | true =>
      rw [Element.inner_of_none (at_.closeStart_alone alone),
        Element.inner_of_none (at_'.closeStart_alone (alone'.trans alone))]
    | false =>
      obtain ⟨openEnd, closes⟩ := at_.content_opened alone
      obtain ⟨openEnd', closes'⟩ := at_'.content_opened (alone'.trans alone)
      have late := swapped.textIn_late placed.openEndBoundary (placed.closeBoundary _ closes)
        (placed.closed _ closes).1 (Nat.le_of_eq openEnd.symm)
      have start := movedPlace_add (width before + size (Token.openTag name body).lexeme)
        (width before + size (Token.openTag name body').lexeme) 0
      rw [Nat.zero_add, Nat.zero_add] at start
      rw [Element.inner_of_close closes, Element.inner_of_close closes', openEnd', ← late, openEnd]
      exact congrArg (textIn out) (congr (congrArg Span.mk start.symm) (movedPlace_add _ _ _).symm)
  · rw [at_.inner_raw]
    exact at_'.inner_raw

theorem exchange_withBody (opens : Token.ofOpenTag name body rest = (t, after.flatMap Token.lexeme))
    (same : body'.selfClosing = body.selfClosing) (stack : List String) :
    Exchange stack [t] [t.withBody body'] after := by
  have alone : body'.isAlone name = body.isAlone name := by
    rw [TagBody.isAlone, TagBody.isAlone, same]
  have restack : (t.withBody body').restack stack = t.restack stack := by
    rcases Token.ofOpenTag_cases opens with ⟨rfl, -⟩ | ⟨content, closing, rfl, -⟩
    · rw [Token.withBody, Token.restack, Token.restack, alone]
    · rfl
  have high : stack.length ≤ (t.restack stack).length := by
    rcases Token.ofOpenTag_cases opens with ⟨rfl, -⟩ | ⟨content, closing, rfl, -⟩
    · rw [Token.restack]
      split
      · exact Nat.le_refl _
      · exact Nat.le_succ _
    · exact Nat.le_refl _
  refine ⟨fun depth inner pos => ?_, fun depth inner pos => ?_, .same after ?_⟩
  · exact closing?_cons_none.2 ⟨Nat.lt_of_lt_of_le inner high, rfl⟩
  · exact closing?_cons_none.2 ⟨Nat.lt_of_lt_of_le inner (restack ▸ high), rfl⟩
  · exact restack.symm

end Content

end Playground.Html
