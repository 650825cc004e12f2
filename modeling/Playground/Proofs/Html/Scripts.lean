import Playground.Html.Element
import Playground.Proofs.Text.Offset

/-! The script elements of a text. -/

namespace Playground.Html

/-- The value of the first attribute of that name, as elements carry it. -/
def TagBody.attr? (b : TagBody) (name : String) : Option String :=
  (b.attrs.find? fun a => sameIgnoringCase (String.ofList (Text.lower a.name)) name).map fun a =>
    (a.value.map fun v => Entity.decode (String.ofList v.text)).getD ""

theorem Element.attr?_ofOpenTag (pos : Nat) (name : List Char) (body : TagBody) (key : String) :
    (Element.ofOpenTag pos name body).attr? key = body.attr? key := by
  obtain ⟨attrs, trail, selfClosing⟩ := body
  simp only [Element.attr?, Element.find?, Element.ofOpenTag, TagBody.attr?]
  generalize pos + 1 + Text.size name = start
  induction attrs generalizing start with
  | nil => rfl
  | cons a attrs ih =>
    rw [RawAttribute.placeAll, List.find?_cons, List.find?_cons]
    change _ = Option.map _ (match sameIgnoringCase (a.place start).name key with
      | true => some a
      | false => _)
    cases same : sameIgnoringCase (a.place start).name key with
    | true => rfl
    | false => exact ih _

def TagBody.isScriptOf (name : List Char) (b : TagBody) (type_ : String) : Bool :=
  Token.tagOf name == "script" &&
    match b.attr? "type" with
    | some value => sameIgnoringCase (trimBlanks value) type_
    | none => false

theorem Element.isScriptOf_ofOpenTag (pos : Nat) (name : List Char) (body : TagBody)
    (type_ : String) :
    (Element.ofOpenTag pos name body).isScriptOf type_ = body.isScriptOf name type_ := by
  unfold Element.isScriptOf TagBody.isScriptOf
  rw [Element.attr?_ofOpenTag]
  rfl

theorem Element.openEnd_ofOpenTag (pos : Nat) (name : List Char) (body : TagBody) :
    (Element.ofOpenTag pos name body).openEnd = pos + Text.size ('<' :: name ++ body.lexeme) := by
  simp [Element.ofOpenTag, TagBody.lexeme, Char.utf8Size]
  omega

def Token.script? (pos : Nat) : Token → Option Element
  | .openTag name body =>
    if tagOf name = "script" then some (Element.ofOpenTag pos name body) else none
  | .raw name body content closing =>
    let element := Element.ofOpenTag pos name body
    let close := element.openEnd + Text.size content
    if tagOf name = "script" then some (element.closedAt close (close + Text.size closing)) else none
  | _ => none

def Token.scripts : Nat → List Token → List Element
  | _, [] => []
  | pos, t :: ts => (t.script? pos).toList ++ scripts (pos + Text.size t.lexeme) ts

/-- A token as texts have them: open tags of raw-text elements close themselves. -/
def Token.Opens : Token → Prop
  | .openTag name body => body.selfClosing = true ∨ tagOf name ∉ rawTextTags
  | _ => True

theorem Token.opens_next (c : Char) (cs : List Char) : (next c cs).1.Opens := by
  unfold next
  split
  · split
    · exact trivial
    · split <;> exact trivial
    · split
      · exact trivial
      · split
        · split
          · exact trivial
          · next body rest read =>
            unfold ofOpenTag
            split
            · exact trivial
            · next normal =>
              simp only [Bool.and_eq_true, Bool.not_eq_true', decide_eq_true_eq, not_and] at normal
              cases closing : body.selfClosing with
              | true => exact .inl closing
              | false => exact .inr (normal closing)
        · exact trivial
    · exact trivial
  · exact trivial

theorem Token.opens_of_mem {t : Token} {cs : List Char} (mem : t ∈ ofText cs) : t.Opens := by
  fun_induction ofText cs with
  | case1 => cases mem
  | case2 c rest _ ih =>
    rcases List.mem_cons.1 mem with rfl | later
    · exact opens_next c rest
    · exact ih later

namespace Scan

def listed (s : Scan) : List Element :=
  s.finished.reverse ++ s.opened.reverse.flatMap fun o => o.element :: o.inside.reverse

theorem listed_add (elements : List Element) (s : Scan) :
    (s.add elements).listed = s.listed ++ elements.reverse := by
  obtain ⟨pos, opened, finished⟩ := s
  cases opened with
  | nil => simp [add, listed]
  | cons o outer => simp [add, listed]

theorem listed_closeInnermost {s : Scan} {o : OpenElement} {outer : List OpenElement}
    (opened : s.opened = o :: outer) (close stop : Nat) :
    ∃ before after, s.listed = before ++ o.element :: after ∧
      (s.closeInnermost close stop).listed =
        before ++ o.element.closedAt close stop :: after := by
  obtain ⟨pos, _, finished⟩ := s
  cases opened
  refine ⟨listed ⟨pos, outer, finished⟩, o.inside.reverse, ?_, ?_⟩
  · simp [listed]
  · rw [closeInnermost, listed_add]
    simp

def ScriptsShut (s : Scan) : Prop := ∀ o ∈ s.opened, o.element.tag ≠ "script"

def scripts (s : Scan) : List Element := s.listed.filter (·.tag == "script")

theorem opened_add (elements : List Element) (s : Scan) :
    (s.add elements).opened.map OpenElement.element = s.opened.map OpenElement.element := by
  obtain ⟨pos, opened, finished⟩ := s
  cases opened <;> rfl

theorem ScriptsShut.add {s : Scan} (shut : s.ScriptsShut) (elements : List Element) :
    (s.add elements).ScriptsShut := by
  intro o mem
  have same := List.mem_map_of_mem (f := OpenElement.element) mem
  rw [opened_add] at same
  obtain ⟨o', mem', same⟩ := List.mem_map.1 same
  rw [← same]
  exact shut o' mem'

theorem closeInnermost_scripts {s : Scan} (shut : s.ScriptsShut) (close stop : Nat) :
    (s.closeInnermost close stop).ScriptsShut ∧
      (s.closeInnermost close stop).scripts = s.scripts := by
  cases opened : s.opened with
  | nil =>
    rw [closeInnermost, opened]
    exact ⟨shut, rfl⟩
  | cons o outer =>
    have plain : o.element.tag ≠ "script" := shut o (by rw [opened]; simp)
    constructor
    · rw [closeInnermost, opened]
      apply ScriptsShut.add
      intro p mem
      exact shut p (by rw [opened]; exact List.mem_cons_of_mem o mem)
    · obtain ⟨before, after, whole, changed⟩ := listed_closeInnermost opened close stop
      unfold scripts
      rw [whole, changed]
      simp [Element.closedAt, plain]

theorem closeMany_scripts {s : Scan} (shut : s.ScriptsShut) (place n : Nat) :
    (s.closeMany place n).ScriptsShut ∧ (s.closeMany place n).scripts = s.scripts := by
  induction n generalizing s with
  | zero => exact ⟨shut, rfl⟩
  | succ n ih =>
    obtain ⟨shut', same⟩ := closeInnermost_scripts shut place place
    obtain ⟨shut'', same'⟩ := ih shut'
    exact ⟨shut'', same'.trans same⟩

theorem closeTag_scripts {s : Scan} (shut : s.ScriptsShut) (tag : String) (close stop : Nat) :
    (s.closeTag tag close stop).ScriptsShut ∧ (s.closeTag tag close stop).scripts = s.scripts := by
  unfold closeTag
  split
  · exact ⟨shut, rfl⟩
  · next depth _ =>
    obtain ⟨shut', same⟩ := closeMany_scripts shut close depth
    obtain ⟨shut'', same'⟩ := closeInnermost_scripts shut' close stop
    exact ⟨shut'', same'.trans same⟩

theorem scripts_add {s : Scan} (e : Element) :
    (s.add [e]).scripts = s.scripts ++ (if e.tag = "script" then [e] else []) := by
  unfold scripts
  rw [listed_add, List.filter_append]
  by_cases script : e.tag = "script" <;> simp [script]

theorem act_scripts {s : Scan} {t : Token} (shut : s.ScriptsShut) (opens : t.Opens) :
    (s.act t).ScriptsShut ∧ (s.act t).scripts = s.scripts ++ (t.script? s.pos).toList := by
  cases t with
  | char c => exact ⟨shut, by simp [act, Token.script?]⟩
  | aside text => exact ⟨shut, by simp [act, Token.script?]⟩
  | unfinished text => exact ⟨shut, by simp [act, Token.script?]⟩
  | closeTag name tail =>
    obtain ⟨shut', same⟩ := closeTag_scripts shut (Token.tagOf name) s.pos
      (s.pos + Text.size (Token.closeTag name tail).lexeme)
    exact ⟨shut', by rw [act, same]; simp [Token.script?]⟩
  | raw name body content closing =>
    refine ⟨shut.add _, ?_⟩
    rw [act, scripts_add, Token.script?]
    by_cases script : Token.tagOf name = "script"
    · simp [Element.closedAt, Element.ofOpenTag, script]
    · simp [Element.closedAt, Element.ofOpenTag, script]
  | openTag name body =>
    rw [act]
    split
    · refine ⟨shut.add _, ?_⟩
      rw [scripts_add, Token.script?]
      by_cases script : Token.tagOf name = "script"
      · simp [Element.ofOpenTag, script]
      · simp [Element.ofOpenTag, script]
    · next stays =>
      have plain : Token.tagOf name ≠ "script" := by
        intro script
        rcases opens with closing | normal
        · simp [closing] at stays
        · rw [script] at normal
          exact normal (by decide)
      constructor
      · intro o mem
        rcases List.mem_cons.1 mem with rfl | mem
        · exact plain
        · exact shut o mem
      · simp [scripts, listed, Token.script?, plain, Element.ofOpenTag]

theorem foldl_scripts {ts : List Token} {s : Scan} (shut : s.ScriptsShut)
    (opens : ∀ t ∈ ts, t.Opens) :
    (ts.foldl step s).ScriptsShut ∧
      (ts.foldl step s).scripts = s.scripts ++ Token.scripts s.pos ts := by
  induction ts generalizing s with
  | nil => exact ⟨shut, by simp [Token.scripts]⟩
  | cons t ts ih =>
    obtain ⟨shut', same⟩ := act_scripts shut (opens t List.mem_cons_self)
    obtain ⟨shut'', same'⟩ :=
      ih (s := s.step t) shut' (fun u mem => opens u (List.mem_cons_of_mem t mem))
    refine ⟨shut'', ?_⟩
    rw [List.foldl_cons, same', Token.scripts, ← List.append_assoc, ← same]
    rfl

theorem closeMany_opened (s : Scan) (place n : Nat) :
    (s.closeMany place n).opened.length = s.opened.length - n := by
  induction n generalizing s with
  | zero => rfl
  | succ n ih =>
    rw [closeMany, ih]
    cases opened : s.opened with
    | nil => simp [closeInnermost, opened]
    | cons o outer =>
      have same := congrArg List.length
        (opened_add (o.inside ++ [o.element.closedAt place place]) { s with opened := outer })
      simp only [List.length_map] at same
      rw [closeInnermost, opened]
      simp only [same, List.length_cons]
      omega

theorem finish_eq_listed (s : Scan) : s.finish = (s.closeMany s.pos s.opened.length).listed := by
  have none_open := closeMany_opened s s.pos s.opened.length
  rw [Nat.sub_self, List.length_eq_zero_iff] at none_open
  simp [finish, listed, none_open]

end Scan

theorem scripts_of_scan (doc : String) :
    (scan doc).filter (·.tag == "script") = Token.scripts 0 (Token.ofText doc.toList) := by
  have opens : ∀ t ∈ Token.ofText doc.toList, t.Opens := fun t mem => Token.opens_of_mem mem
  have shut : Scan.start.ScriptsShut := by
    intro o mem
    cases mem
  obtain ⟨shut', same⟩ := Scan.foldl_scripts shut opens
  rw [scan, elementsOf, Scan.finish_eq_listed]
  exact ((Scan.closeMany_scripts shut' _ _).2.trans same).trans (by simp [Scan.scripts, Scan.listed, Scan.start])

theorem Token.mem_scripts {ts : List Token} {pos : Nat} {e : Element} :
    e ∈ scripts pos ts ↔ ∃ before t after, ts = before ++ t :: after ∧
      t.script? (pos + Text.size (before.flatMap lexeme)) = some e := by
  induction ts generalizing pos with
  | nil => simp [scripts]
  | cons t ts ih =>
    rw [scripts, List.mem_append, Option.mem_toList, ih]
    constructor
    · rintro (here | ⟨before, u, after, rfl, later⟩)
      · exact ⟨[], t, ts, rfl, here⟩
      · refine ⟨t :: before, u, after, rfl, ?_⟩
        rwa [List.flatMap_cons, Text.size_append, ← Nat.add_assoc]
    · rintro ⟨before, u, after, whole, found⟩
      cases before with
      | nil =>
        cases whole
        exact .inl found
      | cons v before =>
        cases whole
        rw [List.flatMap_cons, Text.size_append, ← Nat.add_assoc] at found
        exact .inr ⟨before, u, after, rfl, found⟩

theorem mem_scan_script {doc : String} {e : Element} (script : e.tag = "script") :
    e ∈ scan doc ↔ ∃ before t after, Token.ofText doc.toList = before ++ t :: after ∧
      t.script? (Text.size (before.flatMap Token.lexeme)) = some e := by
  have listed : e ∈ scan doc ↔ e ∈ (scan doc).filter (·.tag == "script") := by simp [script]
  rw [listed, scripts_of_scan, Token.mem_scripts]
  simp only [Nat.zero_add]

theorem Token.script?_tag {t : Token} {pos : Nat} {e : Element} (found : t.script? pos = some e) :
    e.tag = "script" := by
  unfold script? at found
  dsimp only at found
  split at found
  · split at found
    · next named =>
      cases found
      exact named
    · cases found
  · split at found
    · next named =>
      cases found
      exact named
    · cases found
  · cases found

theorem Token.script?_span {t : Token} {pos : Nat} {e : Element} (found : t.script? pos = some e) :
    e.start = pos ∧ e.stop = pos + Text.size t.lexeme := by
  unfold script? at found
  dsimp only at found
  split at found
  · split at found
    · cases found
      refine ⟨rfl, ?_⟩
      simp [Element.ofOpenTag, lexeme, TagBody.lexeme, Char.utf8Size]
      omega
    · cases found
  · split at found
    · cases found
      refine ⟨rfl, ?_⟩
      simp [Element.ofOpenTag, Element.closedAt, lexeme, TagBody.lexeme, Char.utf8Size]
      omega
    · cases found
  · cases found

def Token.content : Token → List Char
  | .raw _ _ content _ => content
  | _ => []

theorem Token.script?_inner {t : Token} {before : List Char} (after : List Char) {e : Element}
    (found : t.script? (Text.size before) = some e) :
    e.inner (String.ofList (before ++ (t.lexeme ++ after))) = String.ofList t.content := by
  unfold script? at found
  dsimp only at found
  split at found
  · split at found
    · cases found
      rfl
    · cases found
  · next name body content closing =>
    split at found
    · cases found
      have whole : before ++ (lexeme (.raw name body content closing) ++ after) =
          (before ++ '<' :: (name ++ body.lexeme)) ++ (content ++ (closing ++ after)) := by
        simp [lexeme]
      have opened : (Element.ofOpenTag (Text.size before) name body).openEnd =
          Text.size (before ++ '<' :: (name ++ body.lexeme)) := by
        simp [Element.ofOpenTag, TagBody.lexeme, Char.utf8Size]
        omega
      rw [whole]
      simp only [Element.inner, Element.content?, Element.closedAt, Option.map_some, textIn,
        String.toList_ofList, opened, Text.slice?_append, Option.getD_some]
      rfl
    · cases found
  · cases found

def Token.isScriptOf (type_ : String) : Token → Bool
  | .openTag name body => body.isScriptOf name type_
  | .raw name body _ _ => body.isScriptOf name type_
  | _ => false

theorem Token.script?_isScriptOf {t : Token} {pos : Nat} {e : Element}
    (found : t.script? pos = some e) (type_ : String) :
    e.isScriptOf type_ = t.isScriptOf type_ := by
  cases t with
  | openTag name body =>
    simp only [script?, Option.ite_none_right_eq_some, Option.some.injEq] at found
    rw [← found.2]
    exact Element.isScriptOf_ofOpenTag pos name body type_
  | raw name body content closing =>
    simp only [script?, Option.ite_none_right_eq_some, Option.some.injEq] at found
    rw [← found.2]
    exact Element.isScriptOf_ofOpenTag pos name body type_
  | char | aside | closeTag | unfinished => cases found

theorem Element.isScriptOf_tag {e : Element} {type_ : String} (is : e.isScriptOf type_ = true) :
    e.tag = "script" := by
  unfold isScriptOf at is
  rw [Bool.and_eq_true, beq_iff_eq] at is
  exact is.1

theorem Token.script?_of_isScriptOf {t : Token} {type_ : String} (is : t.isScriptOf type_ = true)
    (pos : Nat) : ∃ e, t.script? pos = some e := by
  cases t with
  | openTag name body =>
    simp only [isScriptOf, TagBody.isScriptOf, Bool.and_eq_true, beq_iff_eq] at is
    exact ⟨_, by rw [script?, if_pos is.1]⟩
  | raw name body content closing =>
    simp only [isScriptOf, TagBody.isScriptOf, Bool.and_eq_true, beq_iff_eq] at is
    exact ⟨_, by rw [script?, if_pos is.1]⟩
  | char | aside | closeTag | unfinished => cases is

end Playground.Html
