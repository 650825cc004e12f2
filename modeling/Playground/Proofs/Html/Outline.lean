import Playground.Proofs.Html.Forest

/-! The elements of a text by looking ahead: each ends where the stack of open tags falls below its
place. -/

namespace Playground.Html

open Text

namespace Token

def restack (stack : List String) : Token → List String
  | openTag name body => if body.isAlone name then stack else tagOf name :: stack
  | closeTag name _ =>
    match stack.findIdx? (· == tagOf name) with
    | none => stack
    | some depth => stack.drop (depth + 1)
  | _ => stack

end Token

def restackAll (stack : List String) (ts : List Token) : List String := ts.foldl Token.restack stack

def width (ts : List Token) : Nat := size (ts.flatMap Token.lexeme)

@[simp] theorem width_nil : width [] = 0 := rfl

@[simp] theorem width_cons (t : Token) (ts : List Token) :
    width (t :: ts) = size t.lexeme + width ts := by
  rw [width, List.flatMap_cons, size_append, ← width]

@[simp] theorem width_append (ts us : List Token) : width (ts ++ us) = width ts + width us := by
  rw [width, List.flatMap_append, size_append, ← width, ← width]

@[simp] theorem restackAll_nil (stack : List String) : restackAll stack [] = stack := rfl

@[simp] theorem restackAll_cons (stack : List String) (t : Token) (ts : List Token) :
    restackAll stack (t :: ts) = restackAll (t.restack stack) ts := rfl

@[simp] theorem restackAll_append (stack : List String) (ts us : List Token) :
    restackAll stack (ts ++ us) = restackAll (restackAll stack ts) us := List.foldl_append

/-- What closes the element that was opened on `depth` others: its close tag, or the place where an
element around it is closed. -/
def closing? (depth : Nat) : Nat → List String → List Token → Option Span
  | _, _, [] => none
  | pos, stack, t :: ts =>
    if (t.restack stack).length < depth then some ⟨pos, pos⟩
    else if (t.restack stack).length = depth then some ⟨pos, pos + size t.lexeme⟩
    else closing? depth (pos + size t.lexeme) (t.restack stack) ts

def extent (depth pos : Nat) (stack : List String) (ts : List Token) : Span :=
  (closing? depth pos stack ts).getD ⟨pos + width ts, pos + width ts⟩

theorem extent_cons (depth pos : Nat) (stack : List String) (t : Token) (ts : List Token) :
    extent depth pos stack (t :: ts) =
      if (t.restack stack).length < depth then ⟨pos, pos⟩
      else if (t.restack stack).length = depth then ⟨pos, pos + size t.lexeme⟩
      else extent depth (pos + size t.lexeme) (t.restack stack) ts := by
  rw [extent, closing?, width_cons, ← Nat.add_assoc]
  split
  · rfl
  · split <;> rfl

def Element.closedBy (e : Element) (span : Span) : Element := e.closedAt span.start span.stop

def Token.elementIn (pos : Nat) (stack : List String) (rest : List Token) (t : Token) :
    Option Element :=
  (t.element? pos).map fun e =>
    if t.isAlone then e
    else e.closedBy (extent stack.length (pos + size t.lexeme) (t.restack stack) rest)

theorem Token.restack_alone {t : Token} (alone : t.isAlone = true) (stack : List String) :
    t.restack stack = stack := by
  cases t with
  | openTag name body => exact if_pos alone
  | closeTag | unfinished => cases alone
  | char | aside | raw => rfl

theorem Token.elementIn_alone {t : Token} (alone : t.isAlone = true) (pos : Nat)
    (stack : List String) (rest : List Token) : t.elementIn pos stack rest = t.element? pos := by
  simp only [elementIn, alone, if_true, Option.map_id']

theorem Token.restack_openTag {name : List Char} {body : TagBody} (more : body.isAlone name = false)
    (stack : List String) : (openTag name body).restack stack = tagOf name :: stack := by
  simp only [restack, more, Bool.false_eq_true, if_false]

theorem Token.restack_deeper {t : Token} {pos : Nat} {e : Element} (tagged : t.element? pos = some e)
    (opens : t.isAlone = false) (stack : List String) : stack.length < (t.restack stack).length := by
  cases t with
  | openTag name body =>
    rw [restack_openTag opens]
    exact Nat.lt_succ_self _
  | raw => cases opens
  | char | aside | closeTag | unfinished => cases tagged

theorem Token.restack_closeTag {name : List Char} {tag : String} (same : tagOf name = tag)
    (tail : List Char) (stack : List String) : (closeTag name tail).restack (tag :: stack) = stack := by
  simp [restack, List.findIdx?_cons, same]

def outline : Nat → List String → List Token → List Token → List Element
  | _, _, [], _ => []
  | pos, stack, t :: ts, rest =>
    (t.elementIn pos stack (ts ++ rest)).toList ++
      outline (pos + size t.lexeme) (t.restack stack) ts rest

theorem outline_append (pos : Nat) (stack : List String) (ts us rest : List Token) :
    outline pos stack (ts ++ us) rest =
      outline pos stack ts (us ++ rest) ++
        outline (pos + width ts) (restackAll stack ts) us rest := by
  induction ts generalizing pos stack with
  | nil => rfl
  | cons t ts ih =>
    rw [List.cons_append, outline, outline, ih, List.append_assoc, List.append_assoc, width_cons,
      restackAll_cons, Nat.add_assoc]

/-- Open elements, closed as told by how many are around them, with what is inside them. -/
def spread (close : Nat → Span) : List OpenElement → List Element
  | [] => []
  | o :: outer => spread close outer ++ (o.element.closedBy (close outer.length) :: o.inside.reverse)

theorem spread_congr {close close' : Nat → Span} {opened : List OpenElement}
    (same : ∀ depth < opened.length, close depth = close' depth) :
    spread close opened = spread close' opened := by
  induction opened with
  | nil => rfl
  | cons o outer ih =>
    rw [spread, spread, ih fun depth inner => same depth (Nat.lt_succ_of_lt inner),
      same outer.length (Nat.lt_succ_self _)]

namespace Scan

variable {close close' : Nat → Span} {s : Scan}

def settledBy (close : Nat → Span) (s : Scan) : List Element :=
  s.finished.reverse ++ spread close s.opened

def tags (s : Scan) : List String := s.opened.map fun o => o.element.tag

@[simp] theorem length_tags (s : Scan) : s.tags.length = s.opened.length := List.length_map _

theorem tags_add (elements : List Element) (s : Scan) : (s.add elements).tags = s.tags := by
  obtain ⟨pos, opened, finished⟩ := s
  cases opened <;> rfl

theorem tags_closeInnermost (at_ stop : Nat) (s : Scan) :
    (s.closeInnermost at_ stop).tags = s.tags.drop 1 := by
  obtain ⟨pos, opened, finished⟩ := s
  cases opened with
  | nil => rfl
  | cons o outer => exact tags_add _ _

theorem tags_closeMany (place n : Nat) (s : Scan) : (s.closeMany place n).tags = s.tags.drop n := by
  induction n generalizing s with
  | zero => rfl
  | succ n ih => rw [closeMany, ih, tags_closeInnermost, List.drop_drop, Nat.add_comm]

theorem tags_step (s : Scan) (t : Token) : (s.step t).tags = t.restack s.tags := by
  cases t with
  | char c | aside text | unfinished text => rfl
  | raw name body content closing => exact tags_add _ _
  | openTag name body =>
    have alone : (body.selfClosing || decide ((Element.ofOpenTag s.pos name body).tag ∈ voidTags)) =
        body.isAlone name := rfl
    change (act s (.openTag name body)).tags = _
    simp only [act, alone, Token.restack]
    split
    · exact tags_add _ _
    · rfl
  | closeTag name tail =>
    have found : (s.tags.findIdx? fun tag => tag == Token.tagOf name) =
        s.opened.findIdx? fun o => o.element.tag == Token.tagOf name := List.findIdx?_map
    change (closeTag (Token.tagOf name) s.pos _ s).tags = _
    rw [Token.restack, found, closeTag]
    cases s.opened.findIdx? fun o => o.element.tag == Token.tagOf name with
    | none => rfl
    | some depth =>
      dsimp only
      rw [tags_closeInnermost, tags_closeMany, List.drop_drop]

theorem settledBy_congr (same : ∀ depth < s.opened.length, close depth = close' depth) :
    s.settledBy close = s.settledBy close' := by
  rw [settledBy, settledBy, spread_congr same]

theorem settledBy_add (elements : List Element) (s : Scan) :
    (s.add elements).settledBy close = s.settledBy close ++ elements.reverse := by
  obtain ⟨pos, opened, finished⟩ := s
  cases opened with
  | nil => simp [add, settledBy, spread]
  | cons o outer => simp [add, settledBy, spread]

theorem settledBy_closeInnermost {at_ stop : Nat}
    (told : ∀ depth, depth + 1 = s.opened.length → close depth = ⟨at_, stop⟩) :
    (s.closeInnermost at_ stop).settledBy close = s.settledBy close := by
  obtain ⟨pos, opened, finished⟩ := s
  cases opened with
  | nil => rfl
  | cons o outer =>
    have here := told outer.length rfl
    rw [closeInnermost, settledBy_add]
    simp [settledBy, spread, here, Element.closedBy]

theorem settledBy_closeMany {place n : Nat}
    (told : ∀ depth < s.opened.length, s.opened.length ≤ depth + n → close depth = ⟨place, place⟩) :
    (s.closeMany place n).settledBy close = s.settledBy close := by
  induction n generalizing s with
  | zero => rfl
  | succ n ih =>
    have fewer := congrArg List.length (tags_closeInnermost place place s)
    rw [List.length_drop, length_tags, length_tags] at fewer
    rw [closeMany, ih, settledBy_closeInnermost]
    · intro depth last
      exact told depth (by omega) (by omega)
    · intro depth inner outer
      exact told depth (by omega) (by omega)

theorem finish_eq (s : Scan) : s.finish = s.settledBy fun _ => ⟨s.pos, s.pos⟩ := by
  have none_open := closeMany_opened s s.pos s.opened.length
  rw [Nat.sub_self, List.length_eq_zero_iff] at none_open
  have closed : (s.closeMany s.pos s.opened.length).settledBy (fun _ => ⟨s.pos, s.pos⟩) =
      s.settledBy fun _ => ⟨s.pos, s.pos⟩ := settledBy_closeMany fun _ _ _ => rfl
  rw [← closed, settledBy, none_open, finish, spread, List.append_nil]

theorem settledBy_past (elements : List Element) (n : Nat) (s : Scan) :
    (s.past elements n).settledBy close = s.settledBy close ++ elements := by
  have added := @settledBy_add close elements.reverse s
  rwa [List.reverse_reverse] at added

theorem settledBy_closeTag (s : Scan) (name tail : List Char) (ts : List Token) :
    (s.act (.closeTag name tail)).settledBy
        (fun depth => extent depth s.pos s.tags (.closeTag name tail :: ts)) =
      s.settledBy fun depth => extent depth s.pos s.tags (.closeTag name tail :: ts) := by
  have found : (s.tags.findIdx? fun tag => tag == Token.tagOf name) =
      s.opened.findIdx? fun o => o.element.tag == Token.tagOf name := List.findIdx?_map
  rw [act, closeTag]
  cases at_ : s.opened.findIdx? fun o => o.element.tag == Token.tagOf name with
  | none => rfl
  | some n =>
    have inner : n < s.opened.length := (List.findIdx?_eq_some_iff_findIdx_eq.1 at_).1
    have left : (Token.restack s.tags (.closeTag name tail)).length = s.opened.length - (n + 1) := by
      rw [Token.restack, found, at_]
      dsimp only
      rw [List.length_drop, length_tags]
    have fewer := congrArg List.length (tags_closeMany s.pos n s)
    rw [List.length_drop, length_tags, length_tags] at fewer
    dsimp only
    rw [settledBy_closeInnermost, settledBy_closeMany]
    · intro depth _ implicit
      rw [extent_cons, if_pos (by omega)]
    · intro depth last
      rw [extent_cons, if_neg (by omega), if_pos (by omega)]

theorem settledBy_step (s : Scan) (t : Token) (ts : List Token) :
    (s.step t).settledBy (fun depth => extent depth (s.step t).pos (s.step t).tags ts) =
      s.settledBy (fun depth => extent depth s.pos s.tags (t :: ts)) ++
        (t.elementIn s.pos s.tags ts).toList := by
  have kept : ∀ depth < (t.restack s.tags).length,
      extent depth s.pos s.tags (t :: ts) =
        extent depth (s.step t).pos (s.step t).tags ts := by
    intro depth inner
    rw [extent_cons, if_neg (by omega), if_neg (by omega), tags_step]
    rfl
  by_cases alone : t.isAlone = true
  · rw [Token.restack_alone alone, length_tags] at kept
    rw [settledBy_congr kept, Token.elementIn_alone alone, step_alone alone]
    exact settledBy_past _ _ _
  cases t with
  | char | aside | raw => exact absurd rfl alone
  | unfinished text =>
    have same : Token.restack s.tags (.unfinished text) = s.tags := rfl
    rw [same, length_tags] at kept
    rw [settledBy_congr kept]
    exact (List.append_nil _).symm
  | openTag name body =>
    have more : body.isAlone name = false := by simpa [Token.isAlone] using alone
    have same := Token.restack_openTag more s.tags
    have tags := tags_step s (.openTag name body)
    rw [same, List.length_cons, length_tags] at kept
    rw [settledBy_congr fun depth inner => kept depth (Nat.lt_succ_of_lt inner), Token.elementIn,
      tags, same]
    simp only [step_openTag more, settledBy, spread, Token.element?, Option.map_some,
      Option.toList_some, Token.isAlone, more, length_tags, Bool.false_eq_true, if_false,
      List.reverse_nil, List.append_assoc]
  | closeTag name tail =>
    have stays : (s.step (.closeTag name tail)).settledBy (fun depth =>
        extent depth (s.step (.closeTag name tail)).pos (s.step (.closeTag name tail)).tags ts) =
          (s.step (.closeTag name tail)).settledBy
            fun depth => extent depth s.pos s.tags (.closeTag name tail :: ts) := by
      refine (settledBy_congr fun depth inner => ?_).symm
      rw [← length_tags, tags_step] at inner
      exact kept depth inner
    have closed := settledBy_closeTag s name tail ts
    rw [stays]
    exact closed.trans (List.append_nil _).symm

theorem foldl_finish (s : Scan) (ts : List Token) :
    (ts.foldl step s).finish =
      s.settledBy (fun depth => extent depth s.pos s.tags ts) ++ outline s.pos s.tags ts [] := by
  induction ts generalizing s with
  | nil =>
    rw [List.foldl_nil, finish_eq, outline, List.append_nil]
    rfl
  | cons t ts ih =>
    rw [List.foldl_cons, ih, settledBy_step, outline, tags_step, List.append_assoc, List.append_nil]
    rfl

end Scan

theorem scan_outline (doc : String) : scan doc = outline 0 [] (Token.ofText doc.toList) [] :=
  Scan.foldl_finish Scan.start (Token.ofText doc.toList)

def Attribute.mapPlaces (f : Nat → Nat) (a : Attribute) : Attribute :=
  { a with
    span := ⟨f a.span.start, f a.span.stop⟩
    valueSpan := a.valueSpan.map fun v => ⟨f v.start, f v.stop⟩ }

namespace Element

def mapPlaces (f : Nat → Nat) (e : Element) : Element :=
  { e with
    attrs := e.attrs.map (·.mapPlaces f)
    start := f e.start
    attrsEnd := f e.attrsEnd
    openEnd := f e.openEnd
    closeStart := e.closeStart.map f
    stop := f e.stop }

theorem mapPlaces_mapPlaces (f g : Nat → Nat) (e : Element) :
    (e.mapPlaces f).mapPlaces g = e.mapPlaces fun place => g (f place) := by
  simp only [mapPlaces, List.map_map, Option.map_map]
  congr 1
  apply List.map_congr_left
  intro a _
  simp only [Function.comp_apply, Attribute.mapPlaces, Option.map_map]
  rfl

def shift (n : Nat) (e : Element) : Element := e.mapPlaces (· + n)

end Element

theorem RawAttribute.place_shift (a : RawAttribute) (pos n : Nat) :
    a.place (pos + n) = (a.place pos).mapPlaces (· + n) := by
  have later : ∀ m, pos + n + m = pos + m + n := fun m => Nat.add_right_comm pos n m
  obtain ⟨lead, name, value⟩ := a
  cases value with
  | none => simp [place, Attribute.mapPlaces, later, Nat.add_right_comm _ n]
  | some v => simp [place, Attribute.mapPlaces, later, Nat.add_right_comm _ n]

theorem RawAttribute.placeAll_shift (pos n : Nat) (attrs : List RawAttribute) :
    placeAll (pos + n) attrs = (placeAll pos attrs).map (·.mapPlaces (· + n)) := by
  induction attrs generalizing pos with
  | nil => rfl
  | cons a attrs ih =>
    rw [placeAll, placeAll, List.map_cons, place_shift, Nat.add_right_comm, ih]

theorem Element.ofOpenTag_shift (pos n : Nat) (name : List Char) (body : TagBody) :
    Element.ofOpenTag (pos + n) name body = (Element.ofOpenTag pos name body).shift n := by
  have attrs := RawAttribute.placeAll_shift (pos + 1 + size name) n body.attrs
  simp only [ofOpenTag, shift, mapPlaces, Option.map_none, ← attrs, Nat.add_right_comm _ n]

theorem Token.element?_shift (pos n : Nat) (t : Token) :
    t.element? (pos + n) = (t.element? pos).map (·.shift n) := by
  cases t with
  | openTag name body => exact congrArg some (Element.ofOpenTag_shift pos n name body)
  | raw name body content closing =>
    simp only [element?, Element.ofOpenTag_shift, Option.map_some]
    simp [Element.shift, Element.mapPlaces, Element.closedAt, Nat.add_right_comm _ n]
  | char | aside | closeTag | unfinished => rfl

theorem closing?_shift (depth pos n : Nat) (stack : List String) (ts : List Token) :
    closing? depth (pos + n) stack ts =
      (closing? depth pos stack ts).map fun span => ⟨span.start + n, span.stop + n⟩ := by
  induction ts generalizing pos stack with
  | nil => rfl
  | cons t ts ih =>
    rw [closing?, closing?, Nat.add_right_comm, ih]
    split
    · rfl
    · split <;> rfl

theorem extent_shift (depth pos n : Nat) (stack : List String) (ts : List Token) :
    extent depth (pos + n) stack ts =
      ⟨(extent depth pos stack ts).start + n, (extent depth pos stack ts).stop + n⟩ := by
  rw [extent, extent, closing?_shift, Nat.add_right_comm]
  cases closing? depth pos stack ts <;> rfl

theorem Token.elementIn_shift (pos n : Nat) (stack : List String) (rest : List Token) (t : Token) :
    t.elementIn (pos + n) stack rest = (t.elementIn pos stack rest).map (·.shift n) := by
  rw [elementIn, elementIn, element?_shift, Nat.add_right_comm, extent_shift, Option.map_map,
    Option.map_map]
  congr 1
  funext e
  simp only [Function.comp_apply]
  split <;> rfl

theorem outline_shift (pos n : Nat) (stack : List String) (ts rest : List Token) :
    outline (pos + n) stack ts rest = (outline pos stack ts rest).map (·.shift n) := by
  induction ts generalizing pos stack with
  | nil => rfl
  | cons t ts ih =>
    rw [outline, outline, Nat.add_right_comm, ih, Token.elementIn_shift, List.map_append,
      Option.toList_map]

section Closing

variable {depth pos : Nat} {stack : List String} {ts : List Token}

theorem closing?_append (depth pos : Nat) (stack : List String) (ts us : List Token) :
    closing? depth pos stack (ts ++ us) = (closing? depth pos stack ts).or
      (closing? depth (pos + width ts) (restackAll stack ts) us) := by
  induction ts generalizing pos stack with
  | nil => rfl
  | cons t ts ih =>
    rw [List.cons_append, closing?, closing?, ih, width_cons, restackAll_cons, Nat.add_assoc]
    split
    · rfl
    · split <;> rfl

theorem closing?_bounds {span : Span} (closes : closing? depth pos stack ts = some span) :
    pos ≤ span.start ∧ span.start ≤ span.stop ∧ span.stop ≤ pos + width ts := by
  induction ts generalizing pos stack with
  | nil => cases closes
  | cons t ts ih =>
    rw [closing?] at closes
    rw [width_cons]
    split at closes
    · cases closes
      exact ⟨Nat.le_refl _, Nat.le_refl _, Nat.le_add_right _ _⟩
    · split at closes
      · cases closes
        exact ⟨Nat.le_refl _, Nat.le_add_right _ _, by dsimp only; omega⟩
      · have later := ih closes
        omega

theorem closing?_cons_none {t : Token} : closing? depth pos stack (t :: ts) = none ↔
    depth < (t.restack stack).length ∧
      closing? depth (pos + size t.lexeme) (t.restack stack) ts = none := by
  rw [closing?]
  split
  · exact iff_of_false nofun fun ⟨opened, _⟩ => by omega
  · split
    · exact iff_of_false nofun fun ⟨opened, _⟩ => by omega
    · exact (and_iff_right (by omega)).symm

theorem lt_length_of_closing? (stays : closing? depth pos stack ts = none)
    (opened : depth < stack.length) : depth < (restackAll stack ts).length := by
  induction ts generalizing pos stack with
  | nil => exact opened
  | cons t ts ih =>
    obtain ⟨here, later⟩ := closing?_cons_none.1 stays
    exact ih later here

theorem closing?_outer {outer pos' : Nat} (stays : closing? depth pos stack ts = none)
    (around : outer ≤ depth) : closing? outer pos' stack ts = none := by
  induction ts generalizing pos pos' stack with
  | nil => rfl
  | cons t ts ih =>
    obtain ⟨here, later⟩ := closing?_cons_none.1 stays
    exact closing?_cons_none.2 ⟨Nat.lt_of_le_of_lt around here, ih later⟩

theorem closing?_cut {span : Span} (closes : closing? depth pos stack ts = some span) :
    ∃ before t after, ts = before ++ t :: after ∧ closing? depth pos stack before = none ∧
      span.start = pos + width before ∧
      ((t.restack (restackAll stack before)).length < depth ∧ span.stop = span.start ∨
        (t.restack (restackAll stack before)).length = depth ∧
          span.stop = span.start + size t.lexeme) := by
  induction ts generalizing pos stack with
  | nil => cases closes
  | cons t ts ih =>
    rw [closing?] at closes
    split at closes
    · next outer =>
      cases closes
      exact ⟨[], t, ts, rfl, rfl, rfl, .inl ⟨outer, rfl⟩⟩
    · next stays =>
      split at closes
      · next own =>
        cases closes
        exact ⟨[], t, ts, rfl, rfl, rfl, .inr ⟨own, rfl⟩⟩
      · next inner =>
        obtain ⟨before, u, after, rfl, none_, start, stop⟩ := ih closes
        refine ⟨t :: before, u, after, rfl, ?_, ?_, stop⟩
        · rw [closing?, if_neg stays, if_neg inner]
          exact none_
        · rw [start, width_cons, Nat.add_assoc]

end Closing

theorem mem_outline {e : Element} {pos : Nat} {stack : List String} {ts rest : List Token} :
    e ∈ outline pos stack ts rest ↔ ∃ before t after, ts = before ++ t :: after ∧
      t.elementIn (pos + width before) (restackAll stack before) (after ++ rest) = some e := by
  induction ts generalizing pos stack with
  | nil => simp [outline]
  | cons t ts ih =>
    rw [outline, List.mem_append, Option.mem_toList, ih]
    constructor
    · rintro (here | ⟨before, u, after, rfl, later⟩)
      · exact ⟨[], t, ts, rfl, here⟩
      · refine ⟨t :: before, u, after, rfl, ?_⟩
        rwa [width_cons, ← Nat.add_assoc]
    · rintro ⟨before, u, after, whole, found⟩
      cases before with
      | nil =>
        cases whole
        exact .inl found
      | cons v before =>
        cases whole
        rw [width_cons, ← Nat.add_assoc] at found
        exact .inr ⟨before, u, after, rfl, found⟩

theorem length_outline (pos : Nat) (stack : List String) (ts us us' : List Token) :
    (outline pos stack ts us).length = (outline pos stack ts us').length := by
  induction ts generalizing pos stack with
  | nil => rfl
  | cons t ts ih =>
    rw [outline, outline, List.length_append, List.length_append, ih, Token.elementIn, Token.elementIn]
    cases t.element? pos <;> rfl

namespace Forest

theorem restackAll_tokens {f : Forest} (sound : f.Sound) (stack : List String) :
    restackAll stack f.tokens = stack := by
  induction f generalizing stack with
  | nil => rfl
  | leaf mark token rest ih =>
    rw [tokens, restackAll_cons, Token.restack_alone sound.2.1, ih sound.2.2]
  | element name body inside closing tail rest inner_ih rest_ih =>
    obtain ⟨-, more, -, same, inner, later⟩ := sound
    have closes := Token.restack_closeTag same tail stack
    rw [tokens, restackAll_cons, Token.restack_openTag more, restackAll_append, inner_ih inner,
      restackAll_cons, closes, rest_ih later]

theorem closing?_tokens {f : Forest} (sound : f.Sound) {depth pos : Nat} {stack : List String}
    (opened : depth < stack.length) : closing? depth pos stack f.tokens = none := by
  induction f generalizing pos stack with
  | nil => rfl
  | leaf mark token rest ih =>
    rw [tokens, closing?, Token.restack_alone sound.2.1, if_neg (by omega), if_neg (by omega)]
    exact ih sound.2.2 opened
  | element name body inside closing tail rest inner_ih rest_ih =>
    obtain ⟨-, more, -, same, inner, later⟩ := sound
    have closes := Token.restack_closeTag same tail stack
    have deeper : depth < (Token.tagOf name :: stack).length := Nat.lt_succ_of_lt opened
    rw [tokens, closing?, Token.restack_openTag more, if_neg (by omega), if_neg (by omega),
      closing?_append, inner_ih inner deeper, restackAll_tokens inner, Option.none_or, closing?,
      closes, if_neg (by omega), if_neg (by omega)]
    exact rest_ih later opened

theorem outline_tokens {f : Forest} (sound : f.Sound) (pos : Nat) (stack : List String)
    (ts : List Token) : outline pos stack f.tokens ts = f.elements pos := by
  induction f generalizing pos stack ts with
  | nil => rfl
  | leaf mark token rest ih =>
    rw [tokens, outline, Token.elementIn_alone sound.2.1, Token.restack_alone sound.2.1,
      ih sound.2.2, elements, elements, placed, List.map_append]
    cases token.element? pos <;> rfl
  | element name body inside closing tail rest inner_ih rest_ih =>
    obtain ⟨-, more, -, same, inner, later⟩ := sound
    have closes := Token.restack_closeTag same tail stack
    let openEnd := pos + size (Token.openTag name body).lexeme
    have own : extent stack.length openEnd (Token.tagOf name :: stack)
        (inside.tokens ++ (Token.closeTag closing tail :: (rest.tokens ++ ts))) =
          ⟨openEnd + size inside.text,
            openEnd + size inside.text + size (Token.closeTag closing tail).lexeme⟩ := by
      rw [extent, closing?_append, closing?_tokens inner (Nat.lt_succ_self _),
        restackAll_tokens inner, Option.none_or, closing?, closes, if_neg (Nat.lt_irrefl _),
        if_pos rfl]
      rfl
    have element : (Token.openTag name body).elementIn pos stack
        (inside.tokens ++ (Token.closeTag closing tail :: (rest.tokens ++ ts))) =
          some ((Element.ofOpenTag pos name body).closedAt (openEnd + size inside.text)
            (openEnd + size inside.text + size (Token.closeTag closing tail).lexeme)) := by
      simp only [Token.elementIn, Token.element?, Option.map_some, Token.isAlone, more,
        Token.restack_openTag more, Bool.false_eq_true, if_false]
      exact congrArg (fun span => some (Element.closedBy _ span)) own
    rw [tokens, outline, List.append_assoc, List.cons_append, element, Token.restack_openTag more,
      outline_append, restackAll_tokens inner, outline, closes, inner_ih inner, rest_ih later]
    simp only [elements, placed, List.map_cons, List.map_append]
    rfl

theorem elements_shift {f : Forest} (sound : f.Sound) (pos n : Nat) :
    f.elements (pos + n) = (f.elements pos).map (·.shift n) := by
  rw [← outline_tokens sound _ [] [], ← outline_tokens sound _ [] [], outline_shift]

end Forest

theorem Token.element?_bounds {t : Token} {pos : Nat} {e : Element} (found : t.element? pos = some e) :
    0 < size t.lexeme ∧ e.start = pos ∧ e.stop = pos + size t.lexeme ∧
      ∀ close, e.closeStart = some close → close ≤ e.stop := by
  have span := element?_span found
  simp only [Element.span, Span.mk.injEq] at span
  have angle : '<'.utf8Size = 1 := by decide
  cases t with
  | openTag name body =>
    cases found
    refine ⟨?_, span.1, span.2, ?_⟩
    · rw [lexeme, List.cons_append, size_cons]
      omega
    · rintro close ⟨⟩
  | raw name body content closing =>
    cases found
    refine ⟨?_, span.1, span.2, ?_⟩
    · rw [lexeme, List.cons_append, List.cons_append, List.cons_append, size_cons]
      omega
    · rintro close ⟨⟩
      exact Nat.le_add_right _ _
  | char | aside | closeTag | unfinished => cases found

theorem Token.elementIn_start {t : Token} {pos : Nat} {stack : List String} {rest : List Token}
    {e : Element} (found : t.elementIn pos stack rest = some e) : 0 < size t.lexeme ∧ e.start = pos := by
  obtain ⟨d, here, rfl⟩ := Option.map_eq_some_iff.1 found
  obtain ⟨some_, start, -⟩ := element?_bounds here
  refine ⟨some_, ?_⟩
  split <;> exact start

theorem outline_starts {e : Element} {pos : Nat} {stack : List String} {ts rest : List Token}
    (mem : e ∈ outline pos stack ts rest) : pos ≤ e.start ∧ e.start < pos + width ts := by
  obtain ⟨before, t, after, rfl, found⟩ := mem_outline.1 mem
  obtain ⟨some_, start⟩ := Token.elementIn_start found
  rw [start, width_append, width_cons]
  omega

def movedPlace (old new place : Nat) : Nat := if old ≤ place then place - old + new else place

/-- The element once the text up to `old` ends at `new`; an element that starts before `old` keeps
its open tag. -/
def Element.moved (old new : Nat) (e : Element) : Element :=
  if old ≤ e.start then e.mapPlaces (movedPlace old new)
  else
    { e with
      closeStart := e.closeStart.map (movedPlace old new)
      stop := movedPlace old new e.stop }

theorem movedPlace_before {old new place : Nat} (before : place < old) :
    movedPlace old new place = place := if_neg (Nat.not_le.2 before)

theorem movedPlace_add (old new place : Nat) : movedPlace old new (place + old) = place + new := by
  rw [movedPlace, if_pos (Nat.le_add_left _ _), Nat.add_sub_cancel]

theorem Element.moved_shift (old new : Nat) (e : Element) :
    (e.shift old).moved old new = e.shift new := by
  have behind : old ≤ (e.shift old).start := Nat.le_add_left _ _
  have places : (fun place => movedPlace old new (place + old)) = (· + new) :=
    funext fun place => movedPlace_add old new place
  rw [moved, if_pos behind, shift, mapPlaces_mapPlaces, places]
  rfl

theorem Element.moved_closedBy {old new : Nat} {e : Element} (early : e.start < old) (span : Span) :
    (e.closedBy span).moved old new =
      e.closedBy ⟨movedPlace old new span.start, movedPlace old new span.stop⟩ :=
  if_neg (Nat.not_le.2 early)

theorem Element.moved_tag (old new : Nat) (e : Element) : (e.moved old new).tag = e.tag := by
  unfold moved
  split <;> rfl

theorem Element.moved_closeStart (old new : Nat) (e : Element) :
    (e.moved old new).closeStart = e.closeStart.map (movedPlace old new) := by
  unfold moved
  split <;> rfl

theorem Element.moved_openEnd_early {old new : Nat} {e : Element} (early : e.start < old) :
    (e.moved old new).openEnd = e.openEnd := by
  rw [moved, if_neg (Nat.not_le.2 early)]

theorem Element.moved_openEnd_late {old new : Nat} {e : Element} (late : old ≤ e.start) :
    (e.moved old new).openEnd = movedPlace old new e.openEnd := by
  rw [moved, if_pos late]
  rfl

/-- Stacks that tokens bring together: the tokens cannot tell which of the two they began with. -/
inductive Rejoins (stack stack' : List String) : List Token → Prop
  | same (ts : List Token) (same : stack = stack') : Rejoins stack stack' ts
  | done : Rejoins stack stack' []
  | close (name tail : List Char) (ts : List Token)
      (joins : (Token.closeTag name tail).restack stack = (Token.closeTag name tail).restack stack') :
      Rejoins stack stack' (.closeTag name tail :: ts)

namespace Rejoins

variable {stack stack' : List String} {ts : List Token}

theorem extent (rejoins : Rejoins stack stack' ts) (depth pos : Nat) :
    extent depth pos stack ts = Html.extent depth pos stack' ts := by
  cases rejoins with
  | same _ same => rw [same]
  | done => rfl
  | close name tail ts joins => rw [extent_cons, extent_cons, joins]

theorem outline (rejoins : Rejoins stack stack' ts) (pos : Nat) (rest : List Token) :
    outline pos stack ts rest = Html.outline pos stack' ts rest := by
  cases rejoins with
  | same _ same => rw [same]
  | done => rfl
  | close name tail ts joins =>
    rw [Html.outline, Html.outline, joins]
    rfl

end Rejoins

/-- Tokens in the middle of a text and others in their place: neither closes what was opened before
them, and what follows brings the stacks they leave together. -/
structure Exchange (stack : List String) (old new after : List Token) : Prop where
  closes : ∀ depth < stack.length, ∀ pos, closing? depth pos stack old = none
  closes' : ∀ depth < stack.length, ∀ pos, closing? depth pos stack new = none
  rejoins : Rejoins (restackAll stack old) (restackAll stack new) after

namespace Exchange

variable {stack : List String} {before old new after : List Token}

theorem extent_here (exchange : Exchange stack old new after) {depth : Nat}
    (opened : depth < stack.length) (pos : Nat) :
    extent depth pos stack (new ++ after) =
      ⟨movedPlace (pos + width old) (pos + width new) (extent depth pos stack (old ++ after)).start,
        movedPlace (pos + width old) (pos + width new)
          (extent depth pos stack (old ++ after)).stop⟩ := by
  have past : ∀ ts us, closing? depth pos stack ts = none →
      extent depth pos stack (ts ++ us) =
        ⟨(extent depth 0 (restackAll stack ts) us).start + (pos + width ts),
          (extent depth 0 (restackAll stack ts) us).stop + (pos + width ts)⟩ := by
    intro ts us none_
    rw [← extent_shift, extent, extent, closing?_append, none_, Option.none_or, Nat.zero_add,
      width_append, Nat.add_assoc]
  rw [past _ _ (exchange.closes depth opened pos), past _ _ (exchange.closes' depth opened pos),
    movedPlace_add, movedPlace_add, exchange.rejoins.extent]

theorem extent (exchange : Exchange (restackAll stack before) old new after)
    (some_ : 0 < width old) {depth : Nat} (opened : depth < stack.length) (pos : Nat) :
    extent depth pos stack (before ++ (new ++ after)) =
      ⟨movedPlace (pos + width before + width old) (pos + width before + width new)
          (Html.extent depth pos stack (before ++ (old ++ after))).start,
        movedPlace (pos + width before + width old) (pos + width before + width new)
          (Html.extent depth pos stack (before ++ (old ++ after))).stop⟩ := by
  cases closes : closing? depth pos stack before with
  | some span =>
    have bounds := closing?_bounds closes
    have same : ∀ ts, Html.extent depth pos stack (before ++ ts) = span := by
      intro ts
      rw [Html.extent, closing?_append, closes]
      rfl
    rw [same, same, movedPlace_before (by omega), movedPlace_before (by omega)]
  | none =>
    have past : ∀ ts, Html.extent depth pos stack (before ++ ts) =
        Html.extent depth (pos + width before) (restackAll stack before) ts := by
      intro ts
      rw [Html.extent, Html.extent, closing?_append, closes, Option.none_or, width_append,
        Nat.add_assoc]
    rw [past, past]
    exact exchange.extent_here (lt_length_of_closing? closes opened) _

theorem outline_before (exchange : Exchange (restackAll stack before) old new after)
    (some_ : 0 < width old) (pos : Nat) :
    outline pos stack before (new ++ after) =
      (outline pos stack before (old ++ after)).map
        (·.moved (pos + width before + width old) (pos + width before + width new)) := by
  induction before generalizing pos stack with
  | nil => rfl
  | cons t before ih =>
    have places : ∀ ts, pos + size t.lexeme + width before + width ts =
        pos + width (t :: before) + width ts := by
      intro ts
      rw [width_cons, Nat.add_assoc pos]
    rw [outline, outline, List.map_append, ih exchange, places, places, ← Option.toList_map]
    congr 2
    rw [Token.elementIn, Token.elementIn]
    cases found : t.element? pos with
    | none => rfl
    | some e =>
      obtain ⟨-, start, stop, close⟩ := Token.element?_bounds found
      have bracket : pos + size t.lexeme ≤ pos + width (t :: before) := by
        rw [width_cons]
        omega
      have early : e.start < pos + width (t :: before) + width old := by omega
      simp only [Option.map_some]
      split
      · next alone =>
        have stays : e.closeStart.map (movedPlace (pos + width (t :: before) + width old)
            (pos + width (t :: before) + width new)) = e.closeStart := by
          cases closes : e.closeStart with
          | none => rfl
          | some c =>
            have inside := close c closes
            rw [Option.map_some, movedPlace_before (by omega)]
        rw [Element.moved, if_neg (Nat.not_le.2 early), stays, movedPlace_before (by omega)]
      · next opens =>
        have deeper := Token.restack_deeper found (eq_false_of_ne_true opens) stack
        have later : Exchange (restackAll (t.restack stack) before) old new after := exchange
        have moved := later.extent some_ deeper (pos + size t.lexeme)
        rw [places, places] at moved
        rw [moved, Element.moved_closedBy early]

theorem outline_after (exchange : Exchange stack old new after) (pos : Nat) (rest : List Token) :
    outline (pos + width new) (restackAll stack new) after rest =
      (outline (pos + width old) (restackAll stack old) after rest).map
        (·.moved (pos + width old) (pos + width new)) := by
  have whole : ∀ n stack, outline n stack after rest = (outline 0 stack after rest).map (·.shift n) := by
    intro n stack
    rw [← outline_shift, Nat.zero_add]
  rw [whole, whole (pos + width old), exchange.rejoins.outline, List.map_map]
  congr 1
  funext e
  exact (Element.moved_shift _ _ e).symm

end Exchange

end Playground.Html
