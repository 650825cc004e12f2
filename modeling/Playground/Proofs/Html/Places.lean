import Playground.Proofs.Html.Scripts
import Playground.Proofs.Html.Lexing

/-! Where the elements of a text stand. What is finished below each open element is laminar. -/

namespace Playground.Html

variable {doc : String}

structure Attribute.IsIn (doc : String) (a : Attribute) : Prop where
  starts : Text.Boundary doc.toList a.span.start
  stops : Text.Boundary doc.toList a.span.stop
  named : a.span.start < a.span.stop
  valueBoundaries : ∀ v, a.valueSpan = some v →
    Text.Boundary doc.toList v.start ∧ Text.Boundary doc.toList v.stop
  valueInside : ∀ v, a.valueSpan = some v →
    a.span.start < v.start ∧ v.start ≤ v.stop ∧ v.stop ≤ a.span.stop
  decoded : a.value = a.valueSpan.map fun v => Entity.decode (textIn doc v)

structure Element.OpensIn (doc : String) (e : Element) : Prop where
  angle : ∃ before after, doc.toList = before ++ '<' :: after ∧ e.start = Text.size before
  attrsEndBoundary : Text.Boundary doc.toList e.attrsEnd
  openEndBoundary : Text.Boundary doc.toList e.openEnd
  named : e.start < e.attrsEnd
  bracket : e.attrsEnd < e.openEnd
  attrs : ∀ a ∈ e.attrs, a.IsIn doc ∧ e.start < a.span.start ∧ a.span.stop ≤ e.attrsEnd
  ordered : e.attrs.Pairwise fun a b => a.span.stop ≤ b.span.start

structure Element.IsIn (doc : String) (e : Element) : Prop extends e.OpensIn doc where
  stopBoundary : Text.Boundary doc.toList e.stop
  closeBoundary : ∀ close, e.closeStart = some close → Text.Boundary doc.toList close
  opened : e.openEnd ≤ e.stop
  closed : ∀ close, e.closeStart = some close → e.openEnd ≤ close ∧ close ≤ e.stop

/-- Whether `b` lies in the content of `a`. -/
def Element.Holds (a b : Element) : Prop :=
  ∃ close, a.closeStart = some close ∧ a.openEnd ≤ b.start ∧ b.stop ≤ close

instance (a b : Element) : Decidable (a.Holds b) :=
  match found : a.closeStart with
  | none => .isFalse fun ⟨_, some_, _⟩ => nomatch found.symm.trans some_
  | some close =>
    decidable_of_iff (a.openEnd ≤ b.start ∧ b.stop ≤ close)
      ⟨fun inside => ⟨close, found, inside⟩, fun ⟨_, some_, inside⟩ =>
        Option.some.inj (found.symm.trans some_) ▸ inside⟩

def Element.Leads (a b : Element) : Prop :=
  a.start < b.start ∧ (a.stop ≤ b.start ∨ a.tag ∉ rawTextTags ∧ a.Holds b)

theorem Element.IsIn.start_lt_stop {e : Element} (placed : e.IsIn doc) : e.start < e.stop := by
  have named := placed.named
  have bracket := placed.bracket
  have opened := placed.opened
  omega

section Tags

theorem boundaries_of_append {doc : String} {before piece after : List Char}
    (whole : doc.toList = before ++ (piece ++ after)) :
    Text.Boundary doc.toList (Text.size before) ∧
      Text.Boundary doc.toList (Text.size before + Text.size piece) := by
  refine ⟨⟨before, piece ++ after, whole, rfl⟩, ⟨before ++ piece, after, ?_, ?_⟩⟩
  · rw [whole, List.append_assoc]
  · rw [Text.size_append]

theorem textIn_of_append {before piece after : List Char}
    (whole : doc.toList = before ++ (piece ++ after)) :
    textIn doc ⟨Text.size before, Text.size before + Text.size piece⟩ = String.ofList piece := by
  rw [textIn, whole, Text.slice?_append, Option.getD_some]

theorem RawAttribute.size_lexeme (a : RawAttribute) :
    Text.size a.lexeme = Text.size a.lead + Text.size a.name + Text.size a.valueLexeme := by
  rw [lexeme, Text.size_append, Text.size_append]

theorem RawValue.size_lexeme (v : RawValue) :
    Text.size v.lexeme =
      Text.size v.lead + Text.size v.quoteLexeme + Text.size v.text + Text.size v.quoteLexeme := by
  rw [lexeme, Text.size_append, Text.size_append, Text.size_append]

theorem size_pos_of_ne_nil {cs : List Char} (some_ : cs ≠ []) : 0 < Text.size cs := by
  cases cs with
  | nil => exact absurd rfl some_
  | cons c cs =>
    have positive := Char.utf8Size_pos c
    rw [Text.size_cons]
    omega

theorem RawAttribute.isIn_place {a : RawAttribute} {before after : List Char} (named : a.name ≠ [])
    (whole : doc.toList = before ++ (a.lexeme ++ after)) :
    (a.place (Text.size before)).IsIn doc := by
  have name := size_pos_of_ne_nil named
  have written : doc.toList =
      (before ++ a.lead) ++ ((a.name ++ a.valueLexeme) ++ after) := by
    rw [whole, lexeme]
    simp
  obtain ⟨starts, stops⟩ := boundaries_of_append written
  rw [Text.size_append] at starts stops
  rw [Text.size_append, ← Nat.add_assoc] at stops
  cases valued : a.value with
  | none =>
    refine ⟨starts, stops, ?_, ?_, ?_, ?_⟩
    · simp only [place]
      omega
    · intro v found
      simp [place, valued] at found
    · intro v found
      simp [place, valued] at found
    · simp [place, valued]
  | some v =>
    have lexeme_ : a.valueLexeme = v.lexeme := by rw [valueLexeme, valued]; rfl
    have text : doc.toList =
        (before ++ a.lead ++ a.name ++ v.lead ++ v.quoteLexeme) ++
          (v.text ++ (v.quoteLexeme ++ after)) := by
      rw [written, lexeme_, RawValue.lexeme]
      simp
    obtain ⟨first, last⟩ := boundaries_of_append text
    have decoded := textIn_of_append text
    have sized := v.size_lexeme
    simp only [Text.size_append] at first last decoded
    refine ⟨starts, stops, ?_, ?_, ?_, ?_⟩
    · simp only [place]
      omega
    · intro w found
      simp only [place, valued, Option.map_some, Option.some.injEq] at found
      subst found
      exact ⟨first, last⟩
    · intro w found
      simp only [place, valued, Option.map_some, Option.some.injEq] at found
      subst found
      simp only [place, lexeme_]
      omega
    · simp only [place, valued, Option.map_some, decoded]

theorem RawAttribute.isIn_placeAll {as : List RawAttribute} {before after : List Char}
    (named : ∀ a ∈ as, a.name ≠ [])
    (whole : doc.toList = before ++ (as.flatMap RawAttribute.lexeme ++ after)) :
    (∀ a ∈ placeAll (Text.size before) as, a.IsIn doc ∧ Text.size before ≤ a.span.start ∧
        a.span.stop ≤ Text.size before + Text.size (as.flatMap RawAttribute.lexeme)) ∧
      (placeAll (Text.size before) as).Pairwise fun a b => a.span.stop ≤ b.span.start := by
  induction as generalizing before with
  | nil => exact ⟨fun a mem => (List.not_mem_nil mem).elim, .nil⟩
  | cons a as ih =>
    have first : doc.toList = before ++ (a.lexeme ++ (as.flatMap RawAttribute.lexeme ++ after)) := by
      rw [whole, List.flatMap_cons, List.append_assoc]
    have placed := isIn_place (named a List.mem_cons_self) first
    have next : doc.toList = (before ++ a.lexeme) ++ (as.flatMap RawAttribute.lexeme ++ after) := by
      rw [first, List.append_assoc]
    obtain ⟨others, ordered⟩ := ih (fun b mem => named b (List.mem_cons_of_mem a mem)) next
    rw [Text.size_append] at others ordered
    have sized := a.size_lexeme
    have starts : (a.place (Text.size before)).span.start = Text.size before + Text.size a.lead := rfl
    have stops : (a.place (Text.size before)).span.stop = Text.size before + Text.size a.lexeme := by
      rw [sized, ← Nat.add_assoc, ← Nat.add_assoc]
      rfl
    rw [placeAll, List.flatMap_cons, Text.size_append]
    constructor
    · rw [List.forall_mem_cons]
      refine ⟨⟨placed, by omega, by omega⟩, fun b mem => ?_⟩
      obtain ⟨here, starts', stops'⟩ := others b mem
      exact ⟨here, by omega, by omega⟩
    · rw [List.pairwise_cons]
      refine ⟨fun b mem => ?_, ordered⟩
      rw [stops]
      exact (others b mem).2.1

theorem AttributesSound.named {ending : List Char} {as : List RawAttribute}
    (sound : AttributesSound ending as) : ∀ a ∈ as, a.name ≠ [] := by
  induction as with
  | nil => exact fun a mem => (List.not_mem_nil mem).elim
  | cons a as ih =>
    rw [List.forall_mem_cons]
    exact ⟨sound.1.named, ih sound.2⟩

theorem Element.opensIn_ofOpenTag {name before after : List Char} {body : TagBody}
    (begins : TagStart name body)
    (whole : doc.toList = before ++ ('<' :: name ++ body.lexeme ++ after)) :
    (Element.ofOpenTag (Text.size before) name body).OpensIn doc := by
  have angle : Text.size ['<'] = 1 := rfl
  have named : ∀ a ∈ body.attrs, a.name ≠ [] := begins.sound.attributes.named
  have attrs : doc.toList = (before ++ ['<'] ++ name) ++
      (body.attrs.flatMap RawAttribute.lexeme ++ (body.trail ++ body.bracket ++ after)) := by
    rw [whole, TagBody.lexeme, TagBody.inside]
    simp
  have inside : doc.toList = (before ++ ['<'] ++ name) ++ (body.inside ++ (body.bracket ++ after)) := by
    rw [attrs, TagBody.inside]
    simp
  have bracket : doc.toList = (before ++ ['<'] ++ name ++ body.inside) ++ (body.bracket ++ after) := by
    rw [inside, List.append_assoc _ body.inside]
  have sized : Text.size body.inside =
      Text.size (body.attrs.flatMap RawAttribute.lexeme) + Text.size body.trail := by
    rw [TagBody.inside, Text.size_append]
  have positive : 0 < Text.size body.bracket :=
    size_pos_of_ne_nil (List.ne_nil_of_mem body.mem_bracket)
  obtain ⟨placed, ordered⟩ := RawAttribute.isIn_placeAll named attrs
  obtain ⟨attrsEnd, openEnd⟩ := boundaries_of_append bracket
  simp only [Text.size_append, angle] at placed ordered attrsEnd openEnd
  refine ⟨⟨before, name ++ body.lexeme ++ after, whole, rfl⟩, attrsEnd, openEnd, ?_, ?_, ?_, ordered⟩
  · simp only [ofOpenTag]
    omega
  · simp only [ofOpenTag]
    omega
  · intro a mem
    obtain ⟨here, starts, stops⟩ := placed a mem
    refine ⟨here, ?_, ?_⟩
    · simp only [ofOpenTag]
      omega
    · simp only [ofOpenTag]
      omega

theorem Element.OpensIn.isIn_ofOpenTag {pos : Nat} {name : List Char} {body : TagBody}
    (opens : (Element.ofOpenTag pos name body).OpensIn doc) :
    (Element.ofOpenTag pos name body).IsIn doc where
  toOpensIn := opens
  stopBoundary := opens.openEndBoundary
  closeBoundary := by rintro _ ⟨⟩
  opened := Nat.le_refl _
  closed := by rintro _ ⟨⟩

theorem Element.isIn_raw {name content closing before after : List Char} {body : TagBody}
    (begins : TagStart name body)
    (whole : doc.toList = before ++ ((Token.raw name body content closing).lexeme ++ after)) :
    let openEnd := (Element.ofOpenTag (Text.size before) name body).openEnd
    ((Element.ofOpenTag (Text.size before) name body).closedAt (openEnd + Text.size content)
      (openEnd + Text.size content + Text.size closing)).IsIn doc := by
  intro openEnd
  have open_ : doc.toList = before ++ ('<' :: name ++ body.lexeme ++ (content ++ closing ++ after)) := by
    rw [whole, Token.lexeme]
    simp
  have tag := Element.opensIn_ofOpenTag begins open_
  have opening : openEnd = Text.size (before ++ ('<' :: name ++ body.lexeme)) := by
    rw [Text.size_append]
    exact Element.openEnd_ofOpenTag _ _ _
  have text : doc.toList =
      (before ++ ('<' :: name ++ body.lexeme)) ++ (content ++ (closing ++ after)) := by
    rw [open_]
    simp
  have text' : doc.toList =
      (before ++ ('<' :: name ++ body.lexeme) ++ content) ++ (closing ++ after) := by
    rw [text]
    simp
  obtain ⟨-, at_close⟩ := boundaries_of_append text
  obtain ⟨-, at_stop⟩ := boundaries_of_append text'
  rw [← opening] at at_close
  rw [Text.size_append, ← opening] at at_stop
  exact
    { toOpensIn := ⟨tag.angle, tag.attrsEndBoundary, tag.openEndBoundary, tag.named, tag.bracket,
        tag.attrs, tag.ordered⟩
      stopBoundary := at_stop
      closeBoundary := by rintro _ ⟨⟩; exact at_close
      opened := by
        change openEnd ≤ openEnd + _ + _
        omega
      closed := by rintro _ ⟨⟩; exact ⟨Nat.le_add_right _ _, Nat.le_add_right _ _⟩ }

def Token.TagStarts : Token → Prop
  | .openTag name body => TagStart name body
  | .raw name body _ _ => TagStart name body
  | _ => True

theorem Token.tagStarts_next (c : Char) (cs : List Char) : (next c cs).1.TagStarts := by
  cases begins c cs with
  | plain _ _ plain =>
    rw [next_plain plain]
    exact trivial
  | stray _ other =>
    rw [next_stray other]
    exact trivial
  | comment r => exact trivial
  | close r =>
    rw [next_close]
    split <;> exact trivial
  | mark d r mark other =>
    rw [next_mark mark other]
    exact trivial
  | letter d r letter =>
    rw [next_letter letter]
    split
    · exact trivial
    · next body rest read =>
      have begins := tagStart_of_read letter read
      unfold ofOpenTag
      split <;> exact begins

theorem Token.tagStarts_of_mem {t : Token} {cs : List Char} (mem : t ∈ ofText cs) :
    t.TagStarts := by
  fun_induction ofText cs with
  | case1 => cases mem
  | case2 c rest _ ih =>
    rcases List.mem_cons.1 mem with rfl | later
    · exact tagStarts_next c rest
    · exact ih later

end Tags

/-- Elements of the region of a text between two places, in the order of their open tags. -/
structure Laminar (doc : String) (lo hi : Nat) (es : List Element) : Prop where
  placed : ∀ e ∈ es, e.IsIn doc ∧ lo ≤ e.start ∧ e.stop ≤ hi
  leads : es.Pairwise Element.Leads

namespace Laminar

variable {lo mid hi : Nat} {es : List Element}

theorem nil (doc : String) (lo hi : Nat) : Laminar doc lo hi [] :=
  ⟨fun _ mem => (List.not_mem_nil mem).elim, .nil⟩

theorem singleton {e : Element} (placed : e.IsIn doc) : Laminar doc e.start e.stop [e] :=
  ⟨by simpa using placed, List.pairwise_singleton _ _⟩

theorem widen {hi' : Nat} (laminar : Laminar doc lo hi es) (later : hi ≤ hi') :
    Laminar doc lo hi' es := by
  refine ⟨fun e mem => ?_, laminar.leads⟩
  obtain ⟨placed, starts, stops⟩ := laminar.placed e mem
  exact ⟨placed, starts, Nat.le_trans stops later⟩

theorem append {fs : List Element} (first : Laminar doc lo mid es) (second : Laminar doc mid hi fs)
    (low : lo ≤ mid) (high : mid ≤ hi) : Laminar doc lo hi (es ++ fs) := by
  constructor
  · intro e mem
    rcases List.mem_append.1 mem with mem | mem
    · obtain ⟨placed, starts, stops⟩ := first.placed e mem
      exact ⟨placed, starts, Nat.le_trans stops high⟩
    · obtain ⟨placed, starts, stops⟩ := second.placed e mem
      exact ⟨placed, Nat.le_trans low starts, stops⟩
  · refine List.pairwise_append.2 ⟨first.leads, second.leads, fun e mem f mem' => ?_⟩
    obtain ⟨placed, -, stops⟩ := first.placed e mem
    obtain ⟨-, starts, -⟩ := second.placed f mem'
    have nonempty := placed.start_lt_stop
    exact ⟨by omega, .inl (by omega)⟩

theorem close {e : Element} {close stop : Nat} (opens : e.OpensIn doc) (normal : e.tag ∉ rawTextTags)
    (inside : Laminar doc e.openEnd close es) (opened : e.openEnd ≤ close) (closed : close ≤ stop)
    (at_close : Text.Boundary doc.toList close) (at_stop : Text.Boundary doc.toList stop) :
    Laminar doc e.start stop (e.closedAt close stop :: es) := by
  have named := opens.named
  have bracket := opens.bracket
  have placed : (e.closedAt close stop).IsIn doc :=
    { toOpensIn := ⟨opens.angle, opens.attrsEndBoundary, opens.openEndBoundary, named, bracket,
        opens.attrs, opens.ordered⟩
      stopBoundary := at_stop
      closeBoundary := by rintro _ ⟨⟩; exact at_close
      opened := Nat.le_trans opened closed
      closed := by rintro _ ⟨⟩; exact ⟨opened, closed⟩ }
  constructor
  · rw [List.forall_mem_cons]
    refine ⟨⟨placed, Nat.le_refl _, Nat.le_refl _⟩, fun f mem => ?_⟩
    obtain ⟨here, starts, stops⟩ := inside.placed f mem
    exact ⟨here, by omega, by omega⟩
  · refine List.pairwise_cons.2 ⟨fun f mem => ?_, inside.leads⟩
    obtain ⟨-, starts, stops⟩ := inside.placed f mem
    have later : e.start < f.start := by omega
    exact ⟨later, .inr ⟨normal, close, rfl, starts, stops⟩⟩

end Laminar

/-- The finished elements below each open element fill the region from the end of its open tag to
where the next region begins; the innermost region ends at `place`. -/
def Settled (doc : String) : Nat → List OpenElement → List Element → Prop
  | place, [], finished => Laminar doc 0 place finished.reverse
  | place, o :: outer, finished =>
    o.element.OpensIn doc ∧ o.element.tag ∉ rawTextTags ∧ o.element.openEnd ≤ place ∧
      Laminar doc o.element.openEnd place o.inside.reverse ∧
        Settled doc o.element.start outer finished

namespace Scan

def SettledAt (doc : String) (place : Nat) (s : Scan) : Prop :=
  Settled doc place s.opened s.finished

variable {s : Scan} {place : Nat}

theorem SettledAt.add {place' : Nat} {es : List Element} (settled : s.SettledAt doc place)
    (more : Laminar doc place place' es.reverse) (later : place ≤ place') :
    (s.add es).SettledAt doc place' := by
  obtain ⟨pos, opened, finished⟩ := s
  cases opened with
  | nil =>
    simp only [SettledAt, Settled, Scan.add, List.reverse_append] at settled ⊢
    exact settled.append more (Nat.zero_le _) later
  | cons o outer =>
    obtain ⟨opens, normal, opened, inside, outside⟩ := settled
    refine ⟨opens, normal, Nat.le_trans opened later, ?_, outside⟩
    rw [List.reverse_append]
    exact inside.append more opened later

theorem SettledAt.widen {place' : Nat} (settled : s.SettledAt doc place) (later : place ≤ place') :
    s.SettledAt doc place' := by
  obtain ⟨pos, opened, finished⟩ := s
  cases opened with
  | nil => exact Laminar.widen settled later
  | cons o outer =>
    obtain ⟨opens, normal, opened, inside, outside⟩ := settled
    exact ⟨opens, normal, Nat.le_trans opened later, inside.widen later, outside⟩

theorem SettledAt.closeInnermost {close stop : Nat} (settled : s.SettledAt doc close)
    (at_close : Text.Boundary doc.toList close) (at_stop : Text.Boundary doc.toList stop)
    (closed : close ≤ stop) : (s.closeInnermost close stop).SettledAt doc stop := by
  obtain ⟨pos, opened, finished⟩ := s
  cases opened with
  | nil => exact settled.widen closed
  | cons o outer =>
    obtain ⟨opens, normal, opened, inside, outside⟩ := settled
    have region := inside.close opens normal opened closed at_close at_stop
    have named := opens.named
    have bracket := opens.bracket
    have around : SettledAt doc o.element.start ⟨pos, outer, finished⟩ := outside
    refine around.add ?_ (by omega)
    rw [List.reverse_append]
    exact region

theorem SettledAt.closeMany (settled : s.SettledAt doc place)
    (at_place : Text.Boundary doc.toList place) (n : Nat) :
    (s.closeMany place n).SettledAt doc place := by
  induction n generalizing s with
  | zero => exact settled
  | succ n ih => exact ih (settled.closeInnermost at_place at_place (Nat.le_refl _))

theorem SettledAt.closeTag {close stop : Nat} (settled : s.SettledAt doc close)
    (at_close : Text.Boundary doc.toList close) (at_stop : Text.Boundary doc.toList stop)
    (closed : close ≤ stop) (tag : String) : (s.closeTag tag close stop).SettledAt doc stop := by
  unfold Scan.closeTag
  split
  · exact settled.widen closed
  · next depth _ => exact (settled.closeMany at_close depth).closeInnermost at_close at_stop closed

theorem SettledAt.act {t : Token} {before after : List Char} (settled : s.SettledAt doc s.pos)
    (here : s.pos = Text.size before) (whole : doc.toList = before ++ (t.lexeme ++ after))
    (opens : t.Opens) (starts : t.TagStarts) :
    (s.act t).SettledAt doc (s.pos + Text.size t.lexeme) := by
  obtain ⟨at_start, at_end⟩ := boundaries_of_append whole
  rw [← here] at at_start at_end
  have later : s.pos ≤ s.pos + Text.size t.lexeme := Nat.le_add_right _ _
  cases t with
  | char c => exact settled.widen later
  | aside text => exact settled.widen later
  | unfinished text => exact settled.widen later
  | closeTag name tail => exact settled.closeTag at_start at_end later _
  | openTag name body =>
    have tag := Element.opensIn_ofOpenTag starts whole
    rw [← here] at tag
    have openEnd : (Element.ofOpenTag s.pos name body).openEnd =
        s.pos + Text.size (Token.openTag name body).lexeme := Element.openEnd_ofOpenTag _ _ _
    rw [Scan.act]
    split
    · have placed := tag.isIn_ofOpenTag
      rw [← openEnd]
      exact settled.add (Laminar.singleton placed) (Nat.le_of_lt placed.start_lt_stop)
    · next stays =>
      have normal : Token.tagOf name ∉ rawTextTags := by
        rcases opens with closing | normal
        · simp [closing] at stays
        · exact normal
      refine ⟨tag, normal, Nat.le_of_eq openEnd, ?_, settled⟩
      exact Laminar.nil _ _ _
  | raw name body content closing =>
    have placed := Element.isIn_raw starts whole
    rw [← here] at placed
    have sized : s.pos + Text.size (Token.raw name body content closing).lexeme =
        (Element.ofOpenTag s.pos name body).openEnd + Text.size content + Text.size closing := by
      have openEnd : (Element.ofOpenTag s.pos name body).openEnd =
          s.pos + Text.size ('<' :: name ++ body.lexeme) := Element.openEnd_ofOpenTag _ _ _
      rw [openEnd, Token.lexeme, Text.size_append, Text.size_append]
      omega
    rw [sized] at later ⊢
    exact settled.add (Laminar.singleton placed) later

theorem SettledAt.foldl {ts : List Token} {before after : List Char}
    (settled : s.SettledAt doc s.pos) (here : s.pos = Text.size before)
    (whole : doc.toList = before ++ (ts.flatMap Token.lexeme ++ after))
    (opens : ∀ t ∈ ts, t.Opens) (starts : ∀ t ∈ ts, t.TagStarts) :
    (ts.foldl step s).SettledAt doc (ts.foldl step s).pos ∧
      (ts.foldl step s).pos = Text.size before + Text.size (ts.flatMap Token.lexeme) := by
  induction ts generalizing s before with
  | nil => exact ⟨settled, here⟩
  | cons t ts ih =>
    have first : doc.toList = before ++ (t.lexeme ++ (ts.flatMap Token.lexeme ++ after)) := by
      rw [whole, List.flatMap_cons, List.append_assoc]
    have next : doc.toList = (before ++ t.lexeme) ++ (ts.flatMap Token.lexeme ++ after) := by
      rw [first, List.append_assoc]
    have acted := settled.act here first (opens t List.mem_cons_self) (starts t List.mem_cons_self)
    have moved : (s.step t).pos = Text.size (before ++ t.lexeme) := by
      rw [Text.size_append, ← here]
      rfl
    have done := ih (s := s.step t) acted moved next
      (fun u mem => opens u (List.mem_cons_of_mem t mem))
      (fun u mem => starts u (List.mem_cons_of_mem t mem))
    rwa [Text.size_append, Nat.add_assoc, ← Text.size_append, ← List.flatMap_cons] at done

theorem SettledAt.finish (settled : s.SettledAt doc s.pos)
    (ends : Text.Boundary doc.toList s.pos) : Laminar doc 0 s.pos s.finish := by
  have closed := settled.closeMany ends s.opened.length
  have none_open := closeMany_opened s s.pos s.opened.length
  rw [Nat.sub_self, List.length_eq_zero_iff] at none_open
  rw [SettledAt, none_open] at closed
  exact closed

end Scan

theorem laminar_scan (doc : String) : Laminar doc 0 doc.utf8ByteSize (scan doc) := by
  have opens : ∀ t ∈ Token.ofText doc.toList, t.Opens := fun t mem => Token.opens_of_mem mem
  have starts : ∀ t ∈ Token.ofText doc.toList, t.TagStarts := fun t mem => Token.tagStarts_of_mem mem
  have whole : doc.toList = [] ++ ((Token.ofText doc.toList).flatMap Token.lexeme ++ []) := by
    rw [Token.ofText_lexeme, List.nil_append, List.append_nil]
  have settled : Scan.start.SettledAt doc Scan.start.pos := Laminar.nil _ _ _
  obtain ⟨settled', ended⟩ := settled.foldl rfl whole opens starts
  rw [Token.ofText_lexeme, Text.size_nil, Nat.zero_add, Text.size_toList] at ended
  have at_end := Text.boundary_size doc.toList
  rw [Text.size_toList, ← ended] at at_end
  rw [← ended]
  exact settled'.finish at_end

/-- Every element of a text stands where its places say, in the order of the open tags; two of them
are apart or one lies in the content of the other, and none opens in raw text. -/
theorem scan_places (doc : String) :
    (∀ e ∈ scan doc, e.IsIn doc ∧ e.stop ≤ doc.utf8ByteSize) ∧
      (scan doc).Pairwise (fun a b => a.start < b.start) ∧
      (∀ a ∈ scan doc, ∀ b ∈ scan doc, a ≠ b →
        a.stop ≤ b.start ∨ b.stop ≤ a.start ∨ a.Holds b ∨ b.Holds a) ∧
      ∀ a ∈ scan doc, ∀ b ∈ scan doc, a.tag ∈ rawTextTags →
        ∀ close, a.closeStart = some close → ¬(a.openEnd ≤ b.start ∧ b.start < close) := by
  obtain ⟨placed, leads⟩ := laminar_scan doc
  have related : ∀ a ∈ scan doc, ∀ b ∈ scan doc, a = b ∨ a.Leads b ∨ b.Leads a := by
    intro a mem b mem'
    let R : Element → Element → Prop := fun a b => a = b ∨ a.Leads b ∨ b.Leads a
    have forward : (scan doc).Pairwise R := leads.imp fun lead => .inr (.inl lead)
    have backward : (scan doc).Pairwise (flip R) := leads.imp fun lead => .inr (.inr lead)
    exact forward.forall_of_forall_of_flip (fun _ _ => .inl rfl) backward mem mem'
  refine ⟨fun e mem => ⟨(placed e mem).1, (placed e mem).2.2⟩, leads.imp And.left, ?_, ?_⟩
  · intro a mem b mem' differ
    rcases related a mem b mem' with same | ⟨-, apart | ⟨-, holds⟩⟩ | ⟨-, apart | ⟨-, holds⟩⟩
    · exact absurd same differ
    · exact .inl apart
    · exact .inr (.inr (.inl holds))
    · exact .inr (.inl apart)
    · exact .inr (.inr (.inr holds))
  · rintro a mem b mem' raw close closes ⟨after, before⟩
    have closed := ((placed a mem).1.closed close closes).2
    have named := (placed a mem).1.named
    have bracket := (placed a mem).1.bracket
    rcases related a mem b mem' with rfl | ⟨-, apart | ⟨normal, -⟩⟩ | ⟨later, -⟩
    · omega
    · omega
    · exact normal raw
    · omega

end Playground.Html
