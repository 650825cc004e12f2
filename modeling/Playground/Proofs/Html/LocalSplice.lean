import Playground.Proofs.Html.Outline
import Playground.Proofs.Html.Places
import Playground.Proofs.Html.Seams
import Playground.Proofs.Html.Splice

/-! Well-formed text in the place of an element or of its content. -/

namespace Playground.Html

open Text

theorem suffix_restack {base stack : List String} {t : Token} (suffix : base <:+ stack)
    (high : base.length ≤ (t.restack stack).length) : base <:+ t.restack stack := by
  cases t with
  | openTag name body =>
    rw [Token.restack]
    split
    · exact suffix
    · exact suffix.trans (List.suffix_cons _ _)
  | closeTag name tail =>
    rw [Token.restack] at high ⊢
    split
    · exact suffix
    · next found =>
      rw [found] at high
      exact List.suffix_of_suffix_length_le suffix (List.drop_suffix _ _) high
  | char | aside | raw | unfinished => exact suffix

theorem suffix_restackAll {base stack : List String} {ts : List Token} {pos : Nat}
    (suffix : base <:+ stack)
    (stays : ∀ depth < base.length, closing? depth pos stack ts = none) :
    base <:+ restackAll stack ts := by
  induction ts generalizing pos stack with
  | nil => exact suffix
  | cons t ts ih =>
    have above : ∀ depth < base.length, depth < (t.restack stack).length ∧
        closing? depth (pos + size t.lexeme) (t.restack stack) ts = none :=
      fun depth inner => closing?_cons_none.1 (stays depth inner)
    have high : base.length ≤ (t.restack stack).length := by
      cases base with
      | nil => exact Nat.zero_le _
      | cons tag base => exact (above base.length (Nat.lt_succ_self _)).1
    exact ih (suffix_restack suffix high) fun depth inner => (above depth inner).2

theorem Rejoins.of_suffix {base stack : List String} {t : Token} (suffix : base <:+ stack)
    (low : (t.restack stack).length < base.length) (ts : List Token) :
    Rejoins stack base (t :: ts) := by
  obtain ⟨inner, rfl⟩ := suffix
  have long : base.length ≤ (inner ++ base).length := by
    rw [List.length_append]
    omega
  cases t with
  | openTag name body =>
    rw [Token.restack] at low
    split at low
    · omega
    · rw [List.length_cons] at low
      omega
  | char | aside | raw | unfinished => exact absurd long (Nat.not_le.2 low)
  | closeTag name tail =>
    refine .close name tail ts ?_
    rw [Token.restack, Token.restack, List.findIdx?_append] at *
    cases above : inner.findIdx? fun tag => tag == Token.tagOf name with
    | some depth =>
      have inside := (List.findIdx?_eq_some_iff_findIdx_eq.1 above).1
      rw [above, Option.some_or] at low
      dsimp only at low
      rw [List.length_drop, List.length_append] at low
      omega
    | none =>
      rw [above, Option.none_or] at low
      cases below : base.findIdx? fun tag => tag == Token.tagOf name with
      | none =>
        rw [below] at low
        exact absurd long (Nat.not_le.2 low)
      | some depth =>
        have place : depth + inner.length + 1 = inner.length + (depth + 1) := by omega
        simp only [Option.none_or, Option.map_some, place, List.drop_append]
        simp

structure Cut (doc : String) (span : Span) (before inside after : List Token) : Prop where
  tokens : Token.ofText doc.toList = before ++ (inside ++ after)
  start : span.start = width before
  stop : span.stop = width before + width inside
  read : ∀ cs, Token.ofText (before.flatMap Token.lexeme ++ cs) = before ++ Token.ofText cs
  rejoins : Rejoins (restackAll (restackAll [] before) inside) (restackAll [] before) after
  closes : ∀ depth < (restackAll [] before).length, ∀ pos,
    closing? depth pos (restackAll [] before) inside = none
  early : ∀ f : Forest, f.Sound → outline 0 [] before (f.tokens ++ after) =
    (outline 0 [] before (inside ++ after)).map (·.moved span.stop (span.start + width f.tokens))

theorem exchange_forest {stack : List String} {inside after : List Token}
    (closes : ∀ depth < stack.length, ∀ pos, closing? depth pos stack inside = none)
    (rejoins : Rejoins (restackAll stack inside) stack after) {f : Forest} (sound : f.Sound) :
    Exchange stack inside f.tokens after where
  closes := closes
  closes' := fun _ opened _ => Forest.closing?_tokens sound opened
  rejoins := by rwa [Forest.restackAll_tokens sound]

theorem cut_inside {pos : Nat} {stack : List String} {rest : List Token} {tag : String} :
    ∃ inside after, rest = inside ++ after ∧
      (extent stack.length pos (tag :: stack) rest).start = pos + width inside ∧
      (∀ depth < (tag :: stack).length, ∀ pos, closing? depth pos (tag :: stack) inside = none) ∧
      Rejoins (restackAll (tag :: stack) inside) (tag :: stack) after := by
  cases closes : closing? stack.length pos (tag :: stack) rest with
  | none =>
    refine ⟨rest, [], (List.append_nil _).symm, ?_, ?_, .done⟩
    · rw [extent, closes]
      rfl
    · intro depth inner pos'
      exact closing?_outer closes (Nat.le_of_lt_succ inner)
  | some span =>
    obtain ⟨inside, t, after, rfl, none_, start, low⟩ := closing?_cut closes
    have stays : ∀ depth < (tag :: stack).length, ∀ pos,
        closing? depth pos (tag :: stack) inside = none :=
      fun depth inner pos' => closing?_outer none_ (Nat.le_of_lt_succ inner)
    refine ⟨inside, t :: after, rfl, ?_, stays, ?_⟩
    · rw [extent, closes]
      exact start
    · have suffix := suffix_restackAll (List.suffix_refl _) fun depth inner => stays depth inner pos
      refine .of_suffix suffix ?_ after
      rw [List.length_cons]
      rcases low with ⟨low, -⟩ | ⟨low, -⟩
      · omega
      · omega

theorem closing?_opened {name : List Char} {body : TagBody} {stack : List String}
    {more : List Token} (opens : body.isAlone name = false)
    (stays : ∀ depth < stack.length, ∀ pos,
      closing? depth pos (Token.tagOf name :: stack) more = none) :
    ∀ depth < stack.length, ∀ pos, closing? depth pos stack (.openTag name body :: more) = none := by
  intro depth inner pos
  rw [closing?_cons_none, Token.restack_openTag opens]
  exact ⟨Nat.lt_succ_of_lt inner, stays depth inner _⟩

theorem cut_closed {pos : Nat} {stack : List String} {rest : List Token} {tag : String} :
    ∃ more after, rest = more ++ after ∧
      (extent stack.length pos (tag :: stack) rest).stop = pos + width more ∧
      (∀ depth < stack.length, ∀ pos, closing? depth pos (tag :: stack) more = none) ∧
      Rejoins (restackAll (tag :: stack) more) stack after := by
  cases closes : closing? stack.length pos (tag :: stack) rest with
  | none =>
    refine ⟨rest, [], (List.append_nil _).symm, ?_, ?_, .done⟩
    · rw [extent, closes]
      rfl
    · intro depth inner pos'
      exact closing?_outer closes (Nat.le_of_lt inner)
  | some span =>
    obtain ⟨inside, t, after, rfl, none_, place, low⟩ := closing?_cut closes
    have stays : ∀ depth < stack.length, ∀ pos, closing? depth pos (tag :: stack) inside = none :=
      fun depth inner pos' => closing?_outer none_ (Nat.le_of_lt inner)
    have suffix : stack <:+ restackAll (tag :: stack) inside :=
      suffix_restackAll (List.suffix_cons _ _) fun depth inner => stays depth inner pos
    have stops : (extent stack.length pos (tag :: stack) (inside ++ t :: after)).stop = span.stop := by
      rw [extent, closes]
      rfl
    rcases low with ⟨low, stop⟩ | ⟨low, stop⟩
    · exact ⟨inside, t :: after, rfl, by rw [stops, stop, place], stays, .of_suffix suffix low after⟩
    · have back : t.restack (restackAll (tag :: stack) inside) = stack :=
        ((suffix_restack suffix (Nat.le_of_eq low.symm)).eq_of_length low.symm).symm
      refine ⟨inside ++ [t], after, by simp, ?_, ?_, .same after ?_⟩
      · rw [stops, stop, place, width_append, width_cons, width_nil, Nat.add_zero, Nat.add_assoc]
      · intro depth inner pos'
        rw [closing?_append, stays depth inner, Option.none_or, closing?_cons_none, back]
        exact ⟨inner, rfl⟩
      · rw [restackAll_append, restackAll_cons, back, restackAll_nil]

theorem cut_element {t : Token} {pos : Nat} {stack : List String} {rest : List Token} {e : Element}
    (found : t.elementIn pos stack rest = some e) :
    ∃ more after, rest = more ++ after ∧ e.stop = pos + width (t :: more) ∧
      (∀ depth < stack.length, ∀ pos, closing? depth pos stack (t :: more) = none) ∧
      Rejoins (restackAll stack (t :: more)) stack after := by
  cases alone : t.isAlone with
  | true =>
    rw [Token.elementIn_alone alone] at found
    obtain ⟨-, -, stop, -⟩ := Token.element?_bounds found
    refine ⟨[], rest, rfl, ?_, ?_, .same rest (Token.restack_alone alone stack)⟩
    · rw [stop, width_cons, width_nil, Nat.add_zero]
    · intro depth inner pos
      rw [closing?_cons_none, Token.restack_alone alone]
      exact ⟨inner, rfl⟩
  | false =>
    obtain ⟨name, body, rfl⟩ : ∃ name body, t = .openTag name body := by
      cases t with
      | openTag name body => exact ⟨name, body, rfl⟩
      | closeTag | unfinished => cases found
      | char | aside | raw => cases alone
    have restack := Token.restack_openTag alone stack
    simp only [Token.elementIn, Token.element?, Option.map_some, alone, Bool.false_eq_true, if_false,
      restack, Option.some.injEq] at found
    subst found
    obtain ⟨more, after, rfl, stop, stays, rejoins⟩ := @cut_closed
      (pos + size (Token.openTag name body).lexeme) stack rest (Token.tagOf name)
    refine ⟨more, after, rfl, ?_, closing?_opened alone stays, ?_⟩
    · rw [width_cons, ← Nat.add_assoc, ← stop]
      rfl
    · rwa [restackAll_cons, restack]

theorem textIn_before {doc : String} {ts us : List Token}
    (whole : doc.toList = ts.flatMap Token.lexeme ++ us.flatMap Token.lexeme) :
    (textIn doc ⟨0, width ts⟩).toList = ts.flatMap Token.lexeme := by
  have cut := slice?_append [] (ts.flatMap Token.lexeme) (us.flatMap Token.lexeme)
  rw [List.nil_append, ← whole, size_nil, Nat.zero_add] at cut
  rw [textIn, width, cut, Option.getD_some, String.toList_ofList]

variable {doc : String} {e : Element}

theorem cut_whole (mem : e ∈ scan doc) (calm : ¬ Token.Dangles (textIn doc ⟨0, e.start⟩).toList) :
    ∃ before inside after, Cut doc e.span before inside after := by
  rw [scan_outline, mem_outline] at mem
  obtain ⟨before, t, rest, tokens, found⟩ := mem
  rw [List.append_nil, Nat.zero_add] at found
  obtain ⟨more, after, rfl, stop, closes, rejoins⟩ := cut_element found
  have whole := (Token.ofText_rest tokens).2
  obtain ⟨some_, start⟩ := Token.elementIn_start found
  have some_' : 0 < width (t :: more) := by
    rw [width_cons]
    omega
  refine ⟨before, t :: more, after, tokens, start, stop, ?_, rejoins, closes, ?_⟩
  · intro cs
    refine Token.ofText_cut tokens (List.cons_ne_nil _ _) (.inl ?_)
    rwa [start, textIn_before whole] at calm
  · intro f sound
    have moved := (exchange_forest closes rejoins sound).outline_before some_' 0
    rw [Nat.zero_add] at moved
    rwa [Element.span, start, stop]

theorem opened_of_content {t : Token} {pos close : Nat} {stack : List String} {rest : List Token}
    (read : Token.ofText (t.lexeme ++ rest.flatMap Token.lexeme) = t :: rest)
    (found : t.elementIn pos stack rest = some e) (closes : e.closeStart = some close)
    (normal : e.tag ∉ rawTextTags) :
    ∃ name body, t = .openTag name body ∧ body.isAlone name = false ∧
      e = (Element.ofOpenTag pos name body).closedBy (extent stack.length
        (pos + size (Token.openTag name body).lexeme) (Token.tagOf name :: stack) rest) := by
  cases alone : t.isAlone with
  | true =>
    rw [Token.elementIn_alone alone] at found
    obtain ⟨name, body, tail, -, -, opens⟩ := Token.ofText_tagged read found
    unfold Token.ofOpenTag at opens
    split at opens
    · next raw =>
      simp only [Bool.and_eq_true, decide_eq_true_eq] at raw
      cases (Prod.mk.inj opens).1
      cases found
      exact absurd raw.2 normal
    · cases (Prod.mk.inj opens).1
      cases found
      cases closes
  | false =>
    cases t with
    | openTag name body =>
      refine ⟨name, body, rfl, alone, ?_⟩
      simp only [Token.elementIn, Token.element?, Option.map_some, alone, Bool.false_eq_true,
        if_false, Token.restack_openTag alone, Option.some.injEq] at found
      exact found.symm
    | closeTag | unfinished => cases found
    | char | aside | raw => cases alone

section Opened

variable {before inside rest after : List Token} {name : List Char} {body : TagBody}

theorem ofText_opened
    (tokens : Token.ofText doc.toList = before ++ Token.openTag name body :: rest)
    (read : Token.ofText ((Token.openTag name body).lexeme ++ rest.flatMap Token.lexeme) =
      .openTag name body :: rest) (cs : List Char) :
    Token.ofText ((before ++ [Token.openTag name body]).flatMap Token.lexeme ++ cs) =
      before ++ [.openTag name body] ++ Token.ofText cs := by
  have whole := (Token.ofText_rest tokens).2
  rw [List.flatMap_cons] at whole
  have here : Token.openTag name body ∈ Token.ofText doc.toList := by
    rw [tokens]
    simp
  have sound := Token.sound_of_mem here rfl
  have reads : Token.ofText (before.flatMap Token.lexeme ++ ((Token.openTag name body).lexeme ++
      rest.flatMap Token.lexeme)) = before ++ Token.ofText
        ((Token.openTag name body).lexeme ++ rest.flatMap Token.lexeme) := by
    rw [← whole, tokens, read]
  have again := @Token.ofText_exchange before ((Token.openTag name body).lexeme ++ cs) _ reads
    (by simp [Token.lexeme]) (.inr rfl)
  rw [sound.ofText] at again
  rw [List.flatMap_append, List.flatMap_cons, List.flatMap_nil, List.append_nil, List.append_assoc,
    again, List.append_assoc]
  rfl

theorem restackAll_opened (opens : body.isAlone name = false) :
    restackAll [] (before ++ [.openTag name body]) = Token.tagOf name :: restackAll [] before := by
  rw [restackAll_append, restackAll_cons, Token.restack_openTag opens, restackAll_nil]

theorem outline_openTag (opens : body.isAlone name = false) (pos : Nat) (stack : List String)
    (ts : List Token) :
    outline pos stack [.openTag name body] ts = [(Element.ofOpenTag pos name body).closedBy
      (extent stack.length (pos + size (Token.openTag name body).lexeme)
        (Token.tagOf name :: stack) ts)] := by
  have opens' : (Token.openTag name body).isAlone = false := opens
  simp only [outline, Token.elementIn, Token.element?, opens', Token.restack_openTag opens,
    Option.map_some, Option.toList_some, List.nil_append, List.append_nil, Bool.false_eq_true,
    if_false]

theorem outline_opened (opens : body.isAlone name = false)
    (stays : ∀ depth < (Token.tagOf name :: restackAll [] before).length, ∀ pos,
      closing? depth pos (Token.tagOf name :: restackAll [] before) inside = none)
    (rejoins : Rejoins (restackAll (Token.tagOf name :: restackAll [] before) inside)
      (Token.tagOf name :: restackAll [] before) after) {f : Forest} (sound : f.Sound) :
    outline 0 [] (before ++ [.openTag name body]) (f.tokens ++ after) =
      (outline 0 [] (before ++ [.openTag name body]) (inside ++ after)).map
        (·.moved (width (before ++ [.openTag name body]) + width inside)
          (width (before ++ [.openTag name body]) + width f.tokens)) := by
  let opened := Element.ofOpenTag (width before) name body
  let openEnd := width before + size (Token.openTag name body).lexeme
  have inner := exchange_forest stays rejoins sound
  have outer : Exchange (restackAll [] before) (.openTag name body :: inside)
      (.openTag name body :: f.tokens) after := by
    refine ⟨?_, ?_, ?_⟩
    · exact closing?_opened opens fun depth above => stays depth (Nat.lt_succ_of_lt above)
    · exact closing?_opened opens fun depth above => inner.closes' depth (Nat.lt_succ_of_lt above)
    · rw [restackAll_cons, restackAll_cons, Token.restack_openTag opens]
      exact inner.rejoins
  have widths : width (before ++ [.openTag name body]) = openEnd := by
    rw [width_append, width_cons, width_nil, Nat.add_zero]
  have places : ∀ ts, 0 + width before + width (.openTag name body :: ts) = openEnd + width ts := by
    intro ts
    rw [width_cons, Nat.zero_add, ← Nat.add_assoc]
  have some_ : 0 < width (Token.openTag name body :: inside) := by
    have angle := Char.utf8Size_pos '<'
    rw [width_cons, Token.lexeme, List.cons_append, size_cons]
    omega
  have earlier := outer.outline_before some_ 0
  rw [places, places, List.cons_append, List.cons_append] at earlier
  have early : opened.start < openEnd + width inside := by
    have bracket : opened.start = width before := rfl
    have end_ : openEnd + width inside = width before + width (Token.openTag name body :: inside) := by
      rw [width_cons, ← Nat.add_assoc]
    omega
  rw [widths, outline_append, outline_append, List.map_append, outline_openTag opens,
    outline_openTag opens, Nat.zero_add, inner.extent_here (Nat.lt_succ_self _) openEnd,
    List.map_cons, List.map_nil, Element.moved_closedBy early, List.singleton_append,
    List.singleton_append, earlier]

end Opened

theorem cut_content {close : Nat} (mem : e ∈ scan doc) (closes : e.closeStart = some close)
    (normal : e.tag ∉ rawTextTags) :
    ∃ before inside after, Cut doc ⟨e.openEnd, close⟩ before inside after := by
  rw [scan_outline, mem_outline] at mem
  obtain ⟨before, t, rest, tokens, found⟩ := mem
  rw [List.append_nil, Nat.zero_add] at found
  have read := (Token.ofText_rest tokens).1
  rw [List.flatMap_cons] at read
  obtain ⟨name, body, rfl, opens, same⟩ := opened_of_content read found closes normal
  obtain ⟨inside, after, rfl, start, stays, rejoins⟩ :=
    @cut_inside (width before + size (Token.openTag name body).lexeme) (restackAll [] before) rest
      (Token.tagOf name)
  have widths : width (before ++ [.openTag name body]) =
      width before + size (Token.openTag name body).lexeme := by
    rw [width_append, width_cons, width_nil, Nat.add_zero]
  have openEnd : e.openEnd = width (before ++ [.openTag name body]) := by
    rw [same, widths]
    exact Element.openEnd_ofOpenTag _ _ _
  have close_ : close = width (before ++ [.openTag name body]) + width inside := by
    rw [same] at closes
    rw [widths]
    exact (Option.some.inj closes).symm.trans start
  rw [openEnd, close_]
  refine ⟨before ++ [.openTag name body], inside, after, ?_, rfl, rfl, ofText_opened tokens read, ?_,
    ?_, fun f sound => outline_opened opens stays rejoins sound⟩
  · rw [tokens, List.append_assoc]
    rfl
  · rwa [restackAll_opened opens]
  · rwa [restackAll_opened opens]

/-- All of an element that no angle before it runs into, or the content of one that can hold others. -/
inductive Replaceable (doc : String) : Span → Prop
  | whole (e : Element) (mem : e ∈ scan doc)
      (calm : ¬ Token.Dangles (textIn doc ⟨0, e.start⟩).toList) : Replaceable doc e.span
  | content (e : Element) (mem : e ∈ scan doc) (close : Nat) (closes : e.closeStart = some close)
      (normal : e.tag ∉ rawTextTags) : Replaceable doc ⟨e.openEnd, close⟩

def Element.isInside (span : Span) (e : Element) : Bool :=
  decide (span.start ≤ e.start ∧ e.stop ≤ span.stop)

namespace Replaceable

variable {span : Span}

theorem cut (replaceable : Replaceable doc span) :
    ∃ before inside after, Cut doc span before inside after := by
  cases replaceable with
  | whole e mem calm => exact cut_whole mem calm
  | content e mem close closes normal => exact cut_content mem closes normal

theorem inside (replaceable : Replaceable doc span) {x : Element} (mem : x ∈ scan doc)
    (starts : span.start ≤ x.start) (before : x.start < span.stop) : x.stop ≤ span.stop := by
  obtain ⟨placed, -, related, -⟩ := scan_places doc
  have here := (placed x mem).1
  have named := here.named
  have bracket := here.bracket
  have some_ := here.start_lt_stop
  cases replaceable with
  | whole e mem' calm =>
    have closed := (placed e mem').1.closed
    simp only [Element.span] at starts before ⊢
    by_cases same : e = x
    · exact Nat.le_of_eq (by rw [same])
    · rcases related e mem' x mem same with apart | apart | ⟨c, at_, -, inner⟩ | ⟨c, -, outer, -⟩
      · omega
      · omega
      · exact Nat.le_trans inner (closed c at_).2
      · omega
  | content e mem' close closes normal =>
    have closed := (placed e mem').1.closed close closes
    have named' := (placed e mem').1.named
    have bracket' := (placed e mem').1.bracket
    dsimp only at starts before ⊢
    have same : e ≠ x := by
      rintro rfl
      omega
    rcases related e mem' x mem same with apart | apart | ⟨c, at_, -, inner⟩ | ⟨c, -, outer, -⟩
    · omega
    · omega
    · cases closes.symm.trans at_
      exact inner
    · omega

end Replaceable

namespace Cut

theorem scan_eq (cut : Cut doc span before inside after) :
    scan doc = outline 0 [] before (inside ++ after) ++
      (outline span.start (restackAll [] before) inside after ++
        outline span.stop (restackAll (restackAll [] before) inside) after []) := by
  rw [scan_outline, cut.tokens, outline_append, outline_append, Nat.zero_add, cut.stop, cut.start]
  simp only [List.append_nil]

theorem start_lt (cut : Cut doc span before inside after) :
    ∀ e ∈ outline 0 [] before (inside ++ after), e.start < span.start := by
  intro e mem
  have starts := outline_starts mem
  rw [cut.start]
  omega

theorem filter_outside (cut : Cut doc span before inside after) (replaceable : Replaceable doc span) :
    (scan doc).filter (fun e => !e.isInside span) = outline 0 [] before (inside ++ after) ++
      outline span.stop (restackAll (restackAll [] before) inside) after [] := by
  have order : span.start ≤ span.stop := by
    rw [cut.start, cut.stop]
    exact Nat.le_add_right _ _
  have none_ : (outline span.start (restackAll [] before) inside after).filter
      (fun e => !e.isInside span) = [] := by
    refine List.filter_eq_nil_iff.2 fun e mem => ?_
    have starts := outline_starts mem
    have known : e ∈ scan doc := by
      rw [cut.scan_eq]
      exact List.mem_append_right _ (List.mem_append_left _ mem)
    rw [cut.start, ← cut.stop, ← cut.start] at starts
    have inner : e.isInside span = true :=
      decide_eq_true ⟨starts.1, replaceable.inside known starts.1 starts.2⟩
    rw [inner]
    exact Bool.false_ne_true
  have outside : ∀ e ∈ scan doc, e.start < span.start ∨ span.stop ≤ e.start →
      (!e.isInside span) = true := by
    intro e mem apart
    have some_ := ((scan_places doc).1 e mem).1.start_lt_stop
    rw [Bool.not_eq_true', Element.isInside, decide_eq_false_iff_not]
    omega
  rw [cut.scan_eq] at outside
  rw [cut.scan_eq, List.filter_append, List.filter_append, none_, List.nil_append,
    List.filter_eq_self.2, List.filter_eq_self.2]
  · intro e mem
    exact outside e (List.mem_append_right _ (List.mem_append_right _ mem))
      (.inr (outline_starts mem).1)
  · intro e mem
    exact outside e (List.mem_append_left _ mem) (.inl (cut.start_lt e mem))

end Cut

/-- A well-formed text put in the place of an element or of its content leaves the elements outside
that place as they are, those after it moved, and brings its own. -/
theorem splice_local {m : String} {span : Span} (replaceable : Replaceable doc span)
    (fine : WellFormed m = true) :
    ∃ out before after, edited? doc [⟨span, m⟩] = some out ∧
      (scan doc).filter (fun e => !e.isInside span) = before ++ after ∧
      (∀ e ∈ before, e.start < span.start) ∧ (∀ e ∈ after, span.stop ≤ e.start) ∧
      scan out = before.map (·.moved span.stop (span.start + m.utf8ByteSize)) ++
        ((scan m).map (·.shift span.start) ++
          after.map (·.moved span.stop (span.start + m.utf8ByteSize))) := by
  obtain ⟨before, inside, after, cut⟩ := replaceable.cut
  obtain ⟨f, sound, text⟩ := WellFormed.forest fine
  have length : width f.tokens = m.utf8ByteSize := by
    rw [← size_toList, ← text]
    rfl
  have own : scan m = f.elements 0 := by
    rw [← Forest.scan_text sound, text, String.ofList_toList]
  obtain ⟨-, whole⟩ := Token.ofText_rest cut.tokens
  rw [List.flatMap_append] at whole
  have rest : Token.ofText (after.flatMap Token.lexeme) = after := by
    have tokens := cut.tokens
    rw [← List.append_assoc] at tokens
    exact (Token.ofText_rest tokens).1
  have late : ∀ e ∈ outline span.stop (restackAll (restackAll [] before) inside) after [],
      span.stop ≤ e.start := fun e mem => (outline_starts mem).1
  refine ⟨_, _, _, edited?_single whole cut.start cut.stop, cut.filter_outside replaceable,
    cut.start_lt, late, ?_⟩
  have exchange := exchange_forest cut.closes cut.rejoins sound
  have later := exchange.outline_after span.start []
  have places : span.start + width inside = span.stop := by rw [cut.start, cut.stop]
  have shifted := Forest.elements_shift sound 0 span.start
  rw [Nat.zero_add] at shifted
  rw [places, length] at later
  rw [scan_outline, String.toList_ofList, cut.read, ← text, Forest.text,
    Token.ofText_lexemes sound.tokens, rest, outline_append, outline_append, List.append_nil,
    cut.early f sound, length, Forest.outline_tokens sound, own, ← shifted, ← later, Nat.zero_add,
    ← cut.start]

def boldBeforeText : String := "<p><b>x</b>y"

def boldWord : Element := ⟨"b", [], 3, 5, 6, some 7, 11⟩

theorem bold_word_replaced :
    Replaceable boldBeforeText boldWord.span ∧ WellFormed "<i>long</i>" = true ∧
      ∃ out before after, edited? boldBeforeText [⟨boldWord.span, "<i>long</i>"⟩] = some out ∧
        (scan boldBeforeText).filter (fun e => !e.isInside boldWord.span) = before ++ after ∧
        (∀ e ∈ before, e.start < 3) ∧ (∀ e ∈ after, 11 ≤ e.start) ∧
        scan out = before.map (·.moved 11 14) ++
          ((scan "<i>long</i>").map (·.shift 3) ++ after.map (·.moved 11 14)) := by
  have mem : boldWord ∈ scan boldBeforeText := by decide +kernel
  have calm : ¬ Token.Dangles (textIn boldBeforeText ⟨0, 3⟩).toList := by decide +kernel
  have fine : WellFormed "<i>long</i>" = true := by decide +kernel
  have replaceable : Replaceable boldBeforeText boldWord.span := .whole boldWord mem calm
  exact ⟨replaceable, fine, splice_local replaceable fine⟩

end Playground.Html
