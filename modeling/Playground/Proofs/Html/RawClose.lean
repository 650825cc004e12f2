import Mathlib.Order.Bounds.Basic
import Playground.Proofs.Html.RawText
import Playground.Proofs.Html.TagExchange

/-! Places where raw text ends. -/

namespace Playground.Html

open Text

/-- Where raw text that starts at a byte offset ends, and where its close tag does. -/
def rawClose? (tag doc : String) (start : Nat) : Option (Nat × Nat) :=
  (sliceFrom? doc.toList start).map fun rest =>
    let (content, after) := splitRaw tag.toList rest
    let close := start + size content
    (close, close + size (splitThrough '>' after).1)

/-- Whether a character stands at a byte offset. -/
def StandsAt (c : Char) (doc : List Char) (pos : Nat) : Prop :=
  ∃ before after, doc = before ++ c :: after ∧ pos = size before

/-- Whether a close tag of an element stands at a byte offset: `</`, the tag in any letter case, and
then the end of the text, a blank, `>` or `/`. -/
def ClosesAt (tag doc : List Char) (pos : Nat) : Prop :=
  ∃ before name after, doc = before ++ '<' :: '/' :: (name ++ after) ∧ pos = size before ∧
    lower name = tag ∧ ∀ c, after.head? = some c → isRawStop c = true

/-- The place behind the next `c`, or the end of the text. -/
inductive BehindNext (c : Char) (doc : List Char) (start : Nat) : Nat → Prop
  | found {pos : Nat} (next : IsLeast {p | start ≤ p ∧ StandsAt c doc p} pos) :
      BehindNext c doc start (pos + c.utf8Size)
  | missing (none_ : ∀ p, start ≤ p → ¬ StandsAt c doc p) : BehindNext c doc start (size doc)

/-- Where raw text that starts at a byte offset ends, and where its close tag does. -/
inductive RawEnds (tag doc : List Char) (start : Nat) : Nat → Nat → Prop
  | closed {close stop : Nat} (first : IsLeast {p | start ≤ p ∧ ClosesAt tag doc p} close)
      (behind : BehindNext '>' doc close stop) : RawEnds tag doc start close stop
  | unclosed (none_ : ∀ p, start ≤ p → ¬ ClosesAt tag doc p) :
      RawEnds tag doc start (size doc) (size doc)

theorem BehindNext.unique {c : Char} {doc : List Char} {start p q : Nat}
    (first : BehindNext c doc start p) (second : BehindNext c doc start q) : p = q := by
  cases first with
  | found next =>
    cases second with
    | found next' => rw [next.unique next']
    | missing none_ => exact absurd next.1.2 (none_ _ next.1.1)
  | missing none_ =>
    cases second with
    | found next => exact absurd next.1.2 (none_ _ next.1.1)
    | missing => rfl

theorem RawEnds.unique {tag doc : List Char} {start close stop close' stop' : Nat}
    (first : RawEnds tag doc start close stop) (second : RawEnds tag doc start close' stop') :
    close = close' ∧ stop = stop' := by
  cases first with
  | closed first behind =>
    cases second with
    | closed first' behind' =>
      obtain rfl := first.unique first'
      exact ⟨rfl, behind.unique behind'⟩
    | unclosed none_ => exact absurd first.1.2 (none_ _ first.1.1)
  | unclosed none_ =>
    cases second with
    | closed first _ => exact absurd first.1.2 (none_ _ first.1.1)
    | unclosed => exact ⟨rfl, rfl⟩

theorem cut_from {doc before rest x y : List Char} (whole : doc = before ++ rest)
    (same : doc = x ++ y) (late : size before ≤ size x) :
    ∃ m, rest = m ++ y ∧ size x = size before + size m := by
  obtain ⟨m, c, rfl, sized⟩ := splitBytes?_boundary whole ⟨x, y, same, rfl⟩ late
  have both : x ++ y = (before ++ m) ++ c := by
    rw [← same, whole, List.append_assoc]
  obtain ⟨-, rfl⟩ := append_cut both (by rw [sized, size_append])
  exact ⟨m, rfl, sized⟩

theorem behindNext_splitThrough (c : Char) (before rest : List Char) :
    BehindNext c (before ++ rest) (size before) (size before + size (splitThrough c rest).1) := by
  by_cases found : c ∈ rest
  · obtain ⟨a, b, rfl, clean⟩ := List.eq_append_cons_of_mem found
    have least : IsLeast {p | size before ≤ p ∧ StandsAt c (before ++ (a ++ c :: b)) p}
        (size before + size a) := by
      refine ⟨⟨Nat.le_add_right _ _, before ++ a, b, by simp, by simp⟩, ?_⟩
      rintro p ⟨late, x, y, same, rfl⟩
      obtain ⟨m, inside, sized⟩ := cut_from rfl same late
      rw [sized]
      -- An earlier place would have the character before the first one of its kind.
      rcases List.append_eq_append_iff.1 inside with ⟨k, rfl, -⟩ | ⟨k, rfl, cut⟩
      · rw [size_append]
        omega
      · cases k with
        | nil => simp
        | cons d k =>
          obtain ⟨rfl, -⟩ := List.cons.inj cut
          exact absurd (by simp) clean
    rw [splitThrough_stop clean, size_append, ← Nat.add_assoc]
    exact .found least
  · rw [splitThrough_clean found, ← size_append]
    refine .missing ?_
    rintro p late ⟨x, y, same, rfl⟩
    obtain ⟨m, rfl, -⟩ := cut_from rfl same late
    exact found (by simp)

theorem splitRaw_not_closed {tag cs content after : List Char} (cut : splitRaw tag cs = (content, after)) :
    ∀ s, s <:+ content → s ≠ [] → closesRaw tag (s ++ after) = false := by
  induction cs generalizing content with
  | nil =>
    cases cut
    exact fun s suffix some_ => absurd (List.suffix_nil.1 suffix) some_
  | cons c cs ih =>
    rw [splitRaw] at cut
    split at cut
    · cases cut
      exact fun s suffix some_ => absurd (List.suffix_nil.1 suffix) some_
    · next stays =>
      cases inner : splitRaw tag cs with
      | mk a b =>
        have kept := splitRaw_append tag cs
        rw [inner] at cut kept
        cases cut
        intro s suffix some_
        rcases List.suffix_cons_iff.1 suffix with rfl | inside
        · rw [List.cons_append, kept]
          exact Bool.eq_false_iff.2 stays
        · exact ih inner s inside some_

theorem closesAt_iff {tag doc : List Char} {pos : Nat} :
    ClosesAt tag doc pos ↔
      ∃ before after, doc = before ++ after ∧ pos = size before ∧ closesRaw tag after = true := by
  constructor
  · rintro ⟨before, name, after, rfl, rfl, named, stops⟩
    exact ⟨before, _, rfl, rfl, closesRaw_iff.2 ⟨name, after, rfl, named, stops⟩⟩
  · rintro ⟨before, _, rfl, rfl, closes⟩
    obtain ⟨name, after, rfl, named, stops⟩ := closesRaw_iff.1 closes
    exact ⟨before, name, after, rfl, rfl, named, stops⟩

theorem ClosesAt.late {tag before content after : List Char} {pos : Nat}
    (open_ : ∀ s, s <:+ content → s ≠ [] → closesRaw tag (s ++ after) = false)
    (closes : ClosesAt tag (before ++ (content ++ after)) pos) (late : size before ≤ pos) :
    size before + size content ≤ pos ∧ after ≠ [] := by
  obtain ⟨x, y, same, rfl, shut⟩ := closesAt_iff.1 closes
  have some_ : y ≠ [] := by
    rintro rfl
    cases shut
  obtain ⟨m, inside, sized⟩ := cut_from rfl same late
  rw [sized]
  rcases List.append_eq_append_iff.1 inside with ⟨k, rfl, rfl⟩ | ⟨k, rfl, rfl⟩
  · rw [size_append]
    exact ⟨by omega, by simp [some_]⟩
  · cases k with
    | nil => exact ⟨by simp, by simpa using some_⟩
    | cons d k =>
      rw [open_ (d :: k) (List.suffix_append _ _) (List.cons_ne_nil d k)] at shut
      cases shut

theorem rawEnds_splitRaw {tag rest content after : List Char}
    (cut : splitRaw tag rest = (content, after)) (before : List Char) :
    RawEnds tag (before ++ rest) (size before) (size before + size content)
      (size before + size content + size (splitThrough '>' after).1) := by
  have open_ := splitRaw_not_closed cut
  have kept := splitRaw_append tag rest
  rw [cut] at kept
  subst kept
  by_cases ended : after = []
  · subst ended
    have whole : size before + size content = size (before ++ (content ++ [])) := by simp
    rw [splitThrough, size_nil, Nat.add_zero, whole]
    exact .unclosed fun p late closes => absurd rfl (closes.late open_ late).2
  · have shut := (Token.closes_of_splitRaw cut ended).1
    have behind := behindNext_splitThrough '>' (before ++ content) after
    rw [size_append, List.append_assoc] at behind
    refine .closed ⟨⟨Nat.le_add_right _ _, ?_⟩, fun p other => (other.2.late open_ other.1).1⟩
      behind
    exact closesAt_iff.2 ⟨before ++ content, after, by simp, by simp, shut⟩

theorem rawClose?_eq_some_iff {tag doc : String} {start close stop : Nat} :
    rawClose? tag doc start = some (close, stop) ↔
      Boundary doc.toList start ∧ RawEnds tag.toList doc.toList start close stop := by
  have cut : ∀ before rest, doc.toList = before ++ rest → start = size before →
      ∃ close stop, rawClose? tag doc start = some (close, stop) ∧
        RawEnds tag.toList doc.toList start close stop := by
    rintro before rest whole rfl
    refine ⟨_, _, ?_, whole ▸ rawEnds_splitRaw rfl before⟩
    rw [rawClose?, whole, sliceFrom?_size]
    rfl
  constructor
  · intro found
    obtain ⟨rest, slice, -⟩ := Option.map_eq_some_iff.1 found
    obtain ⟨⟨before, _⟩, split, rfl⟩ := Option.map_eq_some_iff.1 slice
    obtain ⟨whole, sized⟩ := append_of_splitBytes? split
    obtain ⟨close', stop', found', ends⟩ := cut before _ whole.symm sized.symm
    cases found.symm.trans found'
    exact ⟨⟨before, _, whole.symm, sized.symm⟩, ends⟩
  · rintro ⟨⟨before, rest, whole, sized⟩, ends⟩
    obtain ⟨close', stop', found, ends'⟩ := cut before rest whole sized
    obtain ⟨rfl, rfl⟩ := ends.unique ends'
    exact found

theorem scan_rawClose {doc : String} {e : Element} (mem : e ∈ scan doc) (raw : e.tag ∈ rawTextTags)
    {close : Nat} (closes : e.closeStart = some close) :
    rawClose? e.tag doc e.openEnd = some (close, e.stop) := by
  obtain ⟨before, name, body, rest, t, after, at_⟩ := exists_opensAt mem
  obtain ⟨_, _, same⟩ := at_.shape
  have tag : e.tag = Token.tagOf name := congrArg Element.tag same
  have openEnd : e.openEnd = size (before.flatMap Token.lexeme ++ '<' :: (name ++ body.lexeme)) := by
    rw [same, size_append]
    exact Element.openEnd_ofOpenTag _ _ _
  have whole : doc.toList =
      (before.flatMap Token.lexeme ++ '<' :: (name ++ body.lexeme)) ++ rest := by
    rw [at_.text]
    simp
  have token := congrArg Prod.fst at_.opens
  have element := at_.element
  cases single : body.selfClosing with
  | true =>
    -- A tag that closes itself is all of its element.
    rw [Token.ofOpenTag, single] at token
    cases token
    rw [Token.elementIn_alone (by simp [Token.isAlone, TagBody.isAlone, single])] at element
    cases element
    cases closes
  | false =>
    rw [Token.ofOpenTag, if_pos (by simp [single, ← tag, raw])] at token
    cases token
    rw [Token.elementIn_alone rfl] at element
    cases element
    cases closes
    have named : (Token.tagOf name).toList = lower name := String.toList_ofList
    rw [rawClose?, tag, named, openEnd, whole, sliceFrom?_size, Option.map_some, ← openEnd]
    rfl

/-- Raw text that starts at a place between characters ends at the first close tag from there on and
that one behind the next `>`, and both with the text when there is none; the scripts, styles, text
areas and titles of a scan are given these places. -/
theorem raw_text_ends (doc : String) :
    (∀ tag start close stop, rawClose? tag doc start = some (close, stop) ↔
      Boundary doc.toList start ∧ RawEnds tag.toList doc.toList start close stop) ∧
    ∀ e ∈ scan doc, e.tag ∈ rawTextTags → ∀ close, e.closeStart = some close →
      rawClose? e.tag doc e.openEnd = some (close, e.stop) :=
  ⟨fun _ _ _ _ => rawClose?_eq_some_iff, fun _ mem raw _ closes => scan_rawClose mem raw closes⟩

theorem longer_name_passed :
    let doc := "<script>a</scripts></SCRIPT b>c"
    ∃ e ∈ scan doc, e.tag ∈ rawTextTags ∧ e.closeStart = some 19 ∧
      rawClose? e.tag doc e.openEnd = some (19, 30) := by
  have shape : scan "<script>a</scripts></SCRIPT b>c" = [⟨"script", [], 0, 7, 8, some 19, 30⟩] := by
    decide +kernel
  have mem := List.mem_singleton_self (Element.mk "script" [] 0 7 8 (some 19) 30)
  rw [← shape] at mem
  have raw : "script" ∈ rawTextTags := by decide
  exact ⟨_, mem, raw, rfl, (raw_text_ends _).2 _ mem raw 19 rfl⟩

end Playground.Html
