import Playground.Proofs.Html.Outline

/-! Where the content of a raw-text element ends. -/

namespace Playground.Html

open Text

def isRawStop (c : Char) : Bool := isMarkupBlank c || c == '>' || c == '/'

theorem closesRaw_iff {tag cs : List Char} :
    closesRaw tag cs = true ↔ ∃ name rest, cs = '<' :: '/' :: (name ++ rest) ∧ lower name = tag ∧
      ∀ c, rest.head? = some c → isRawStop c = true := by
  constructor
  · intro closes
    unfold closesRaw at closes
    split at closes
    · next r =>
      rw [Bool.and_eq_true, beq_iff_eq] at closes
      refine ⟨r.take tag.length, r.drop tag.length, by rw [List.take_append_drop], closes.1, ?_⟩
      intro c head
      have stops := closes.2
      cases after : r.drop tag.length with
      | nil =>
        rw [after] at head
        cases head
      | cons d rest =>
        rw [after] at head stops
        cases head
        exact stops
    · cases closes
  · rintro ⟨name, rest, rfl, named, stops⟩
    have sized : tag.length = name.length := by rw [← named, lower, List.length_map]
    simp only [closesRaw, sized, List.take_left, List.drop_left, named, beq_self_eq_true,
      Bool.true_and]
    cases rest with
    | nil => rfl
    | cons c rest => exact stops c rfl

/-- Whether a text begins with the end of a raw-text element: `</`, its tag in any letter case, and
then a blank, `>` or `/`. -/
def EndsRaw (tag cs : List Char) : Prop :=
  ∃ name c rest, cs = '<' :: '/' :: (name ++ c :: rest) ∧ lower name = tag ∧ isRawStop c = true

theorem EndsRaw.head {tag cs : List Char} (ends : EndsRaw tag cs) : cs.head? = some '<' := by
  obtain ⟨name, c, rest, rfl, -⟩ := ends
  rfl

/-- Before another tag the end of raw text stands in a text or not at all: it cannot reach beyond. -/
theorem closesRaw_append {tag s : List Char} (foreign : '<' ∉ tag) (some_ : s ≠ [])
    (later : List Char) : closesRaw tag (s ++ '<' :: later) = true ↔ EndsRaw tag s := by
  rw [closesRaw_iff]
  constructor
  · rintro ⟨name, rest, whole, named, stops⟩
    have unnamed : '<' ∉ '/' :: name := by
      rintro (_ | ⟨_, mem⟩)
      exact foreign (named ▸ lower_eq_self_of_mem mem (by decide))
    obtain ⟨c, s, rfl⟩ := List.exists_cons_of_ne_nil some_
    obtain ⟨rfl, inside⟩ := List.cons.inj whole
    have cut : s ++ '<' :: later = ('/' :: name) ++ rest := inside
    rcases List.append_eq_append_iff.1 cut with
      ⟨a, short, after⟩ | ⟨a, rfl, after⟩
    · cases a with
      | nil => exact absurd (stops '<' (by rw [← List.nil_append rest, ← after]; rfl)) (by decide)
      | cons d a =>
        obtain ⟨rfl, -⟩ := List.cons.inj after
        exact absurd (short ▸ List.mem_append_right s List.mem_cons_self) unnamed
    · cases a with
      | nil => exact absurd (stops '<' (by rw [after]; rfl)) (by decide)
      | cons d a => exact ⟨name, d, a, rfl, named, stops d (by rw [after]; rfl)⟩
  · rintro ⟨name, c, rest, rfl, named, stop⟩
    refine ⟨name, c :: (rest ++ '<' :: later), by simp, named, ?_⟩
    rintro d ⟨⟩
    exact stop

theorem splitRaw_whole_iff {tag u v : List Char} (closes : closesRaw tag v = true) :
    splitRaw tag (u ++ v) = (u, v) ↔ ∀ s, s <:+ u → s ≠ [] → closesRaw tag (s ++ v) = false := by
  induction u with
  | nil =>
    obtain ⟨c, cs, rfl⟩ : ∃ c cs, v = c :: cs := by
      obtain ⟨name, rest, rfl, -⟩ := closesRaw_iff.1 closes
      exact ⟨_, _, rfl⟩
    refine iff_of_true ?_ (fun s suffix some_ => absurd (List.suffix_nil.1 suffix) some_)
    rw [List.nil_append, splitRaw, if_pos closes]
  | cons c u ih =>
    rw [List.cons_append, splitRaw]
    constructor
    · intro whole s suffix some_
      split at whole
      · cases whole
      · next stays =>
        rcases List.suffix_cons_iff.1 suffix with rfl | inside
        · exact Bool.eq_false_iff.2 stays
        · simp only [Prod.mk.injEq, List.cons.injEq, true_and] at whole
          exact ih.1 (Prod.ext whole.1 whole.2) s inside some_
    · intro open_
      have stays := open_ (c :: u) (List.suffix_refl _) (List.cons_ne_nil c u)
      rw [List.cons_append] at stays
      rw [if_neg (Bool.eq_false_iff.1 stays),
        ih.2 fun s suffix => open_ s (suffix.trans (List.suffix_cons c u))]

theorem splitRaw_content_iff {tag u later : List Char} (foreign : '<' ∉ tag)
    (closes : closesRaw tag ('<' :: later) = true) :
    splitRaw tag (u ++ '<' :: later) = (u, '<' :: later) ↔ ∀ s, s <:+ u → ¬ EndsRaw tag s := by
  rw [splitRaw_whole_iff closes]
  refine forall₂_congr fun s _ => ?_
  constructor
  · intro open_ ends
    have some_ : s ≠ [] := by
      rintro rfl
      cases ends.head
    exact Bool.eq_false_iff.1 (open_ some_) ((closesRaw_append foreign some_ later).2 ends)
  · intro never some_
    exact Bool.eq_false_iff.2 fun ends => never ((closesRaw_append foreign some_ later).1 ends)

def scriptAround (content : String) : String := "<script>" ++ content ++ "</script>"

/-- Whether a text stays whole between the tags of a script: a scan finds one element there, a script
that holds the text. -/
def IsScriptContent (content : String) : Prop :=
  ∃ e, scan (scriptAround content) = [e] ∧ e.tag = "script" ∧ e.inner (scriptAround content) = content

def scriptEnd : List Char := '<' :: "/script>".toList

theorem tagStart_script : TagStart "script".toList .bare :=
  tagStart_bare ⟨'s', "cript".toList, rfl, by decide⟩ (List.all_eq_true.1 (by decide))

/-- What a scan finds between the tags of a script begins with a script, and the tokens behind that
one's close tag tell the rest. -/
theorem scan_scriptAround {text inside after closing rest : List Char}
    (cut : splitRaw "script".toList (text ++ scriptEnd) = (inside, after))
    (closed : splitThrough '>' after = (closing, rest)) :
    ∃ e more, scan (scriptAround (String.ofList text)) = e :: more ∧ e.tag = "script" ∧
      e.inner (scriptAround (String.ofList text)) = String.ofList inside ∧
        (rest = [] → more = []) := by
  let doc := scriptAround (String.ofList text)
  let script := Token.raw "script".toList .bare inside closing
  have around : doc.toList =
      '<' :: ("script".toList ++ (TagBody.bare.lexeme ++ (text ++ scriptEnd))) := by
    simp only [doc, scriptAround, String.toList_append, String.toList_ofList, List.append_assoc]
    rfl
  have next : Token.ofOpenTag "script".toList .bare (text ++ scriptEnd) = (script, rest) := by
    have raw : (!TagBody.bare.selfClosing && decide (Token.tagOf "script".toList ∈ rawTextTags)) =
        true := by decide
    have lower_ : lower "script".toList = "script".toList := by decide
    rw [Token.ofOpenTag, if_pos raw, lower_, cut]
    dsimp only
    rw [closed]
  have tokens : Token.ofText doc.toList = script :: Token.ofText rest := by
    rw [around, Token.ofText_cons, Token.next_openTag tagStart_script, next]
  have whole := Token.ofText_lexeme doc.toList
  rw [tokens, List.flatMap_cons] at whole
  have named : Token.tagOf "script".toList = "script" := by decide
  let tag := Element.ofOpenTag 0 "script".toList .bare
  let e := tag.closedAt (tag.openEnd + size inside) (tag.openEnd + size inside + size closing)
  have found : script.script? (size []) = some e := by
    simp only [script, Token.script?, named, if_true]
    rfl
  have inner := Token.script?_inner ((Token.ofText rest).flatMap Token.lexeme) found
  rw [List.nil_append, whole, String.ofList_toList] at inner
  have element : script.elementIn 0 [] (Token.ofText rest ++ []) = some e :=
    Token.elementIn_alone rfl 0 [] _
  refine ⟨e, outline (0 + size script.lexeme) (script.restack []) (Token.ofText rest) [], ?_,
    Token.script?_tag found, inner, ?_⟩
  · rw [scan_outline, tokens, outline, element]
    rfl
  · rintro rfl
    rw [Token.ofText, outline]

theorem isScriptContent_iff (content : String) :
    IsScriptContent content ↔ ∀ s, s <:+ content.toList → ¬ EndsRaw "script".toList s := by
  have foreign : '<' ∉ "script".toList := by decide
  have closes : closesRaw "script".toList ('<' :: "/script>".toList) = true := by decide
  obtain ⟨inside, after, cut⟩ : ∃ inside after,
      splitRaw "script".toList (content.toList ++ scriptEnd) = (inside, after) := ⟨_, _, rfl⟩
  obtain ⟨closing, rest, closed⟩ : ∃ closing rest, splitThrough '>' after = (closing, rest) :=
    ⟨_, _, rfl⟩
  obtain ⟨e, more, listed, script, inner, last⟩ := scan_scriptAround cut closed
  rw [String.ofList_toList] at listed inner
  have kept := splitRaw_append "script".toList (content.toList ++ scriptEnd)
  have whole : splitRaw "script".toList (content.toList ++ scriptEnd) = (content.toList, scriptEnd) ↔
      ∀ s, s <:+ content.toList → ¬ EndsRaw "script".toList s := splitRaw_content_iff foreign closes
  rw [← whole, cut]
  rw [cut] at kept
  constructor
  · rintro ⟨e', alone, -, held⟩
    rw [listed] at alone
    obtain ⟨rfl, -⟩ := List.cons.inj alone
    have first : inside = content.toList := by rw [← held, inner, String.toList_ofList]
    rw [first] at kept ⊢
    exact Prod.ext rfl (List.append_cancel_left kept)
  · intro same
    obtain ⟨rfl, rfl⟩ := Prod.mk.inj same
    have ended : splitThrough '>' scriptEnd = (scriptEnd, []) := by decide
    obtain ⟨-, rfl⟩ := Prod.mk.inj (closed.symm.trans ended)
    rw [last rfl] at listed
    exact ⟨e, listed, script, inner.trans String.ofList_toList⟩

end Playground.Html
