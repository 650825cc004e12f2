import Playground.Proofs.Graph.StoredPass

/-! What a batch of displays and removals replaces. -/

namespace Playground

open Html Text

namespace Html

def Element.result? (results : Results) (e : Element) : Option String :=
  (shownTarget? e).bind results

section Pieces

variable (results : Results) (removed : Element → Bool)

/-- Whether one element stands in the new content of another. -/
def Element.covers (a e : Element) : Bool :=
  (a.result? results).isSome && !removed a && decide (a.Holds e)

/-- The piece of an element: all of one that is removed, and the source or the content of one that
shows a result. -/
def Element.piece? (e : Element) : Option Edit :=
  if removed e then some (.remove e) else (e.result? results).bind (display? e)

def pieces (elements : List Element) : List Edit :=
  (elements.filter fun e => !elements.any fun a => a.covers results removed e).filterMap
    (Element.piece? results removed)

end Pieces

variable {results : Results} {removed : Element → Bool}

theorem covers_eq_false {a e : Element} (apart : ¬ a.Holds e) : a.covers results removed e = false := by
  rw [Element.covers, decide_eq_false apart, Bool.and_false]

theorem pieces_append {xs ys : List Element}
    (apart : ∀ x ∈ xs, ∀ y ∈ ys, ¬ x.Holds y ∧ ¬ y.Holds x) :
    pieces results removed (xs ++ ys) = pieces results removed xs ++ pieces results removed ys := by
  have first : ∀ x ∈ xs, ys.any (fun a => a.covers results removed x) = false := by
    intro x mem
    exact List.any_eq_false.2 fun a mem' => by simp [covers_eq_false (apart x mem a mem').2]
  have second : ∀ y ∈ ys, xs.any (fun a => a.covers results removed y) = false := by
    intro y mem
    exact List.any_eq_false.2 fun a mem' => by simp [covers_eq_false (apart a mem' y mem).1]
  rw [pieces, List.filter_append, List.filterMap_append, pieces, pieces]
  congr 2
  · exact List.filter_congr fun x mem => by rw [List.any_append, first x mem, Bool.or_false]
  · exact List.filter_congr fun y mem => by rw [List.any_append, second y mem, Bool.false_or]

theorem filterMap_single {α β : Type} (f : α → Option β) (a : α) : [a].filterMap f = (f a).toList := by
  rw [List.filterMap_cons]
  cases f a <;> rfl

theorem pieces_single {e : Element} (self : ¬ e.Holds e) :
    pieces results removed [e] = (e.piece? results removed).toList := by
  have seen : [e].any (fun a => a.covers results removed e) = false := by
    rw [List.any_cons, covers_eq_false self]
    rfl
  rw [pieces, List.filter_cons, seen]
  exact filterMap_single _ e

theorem pieces_plain {e : Element} {xs : List Element} (kept : removed e = false)
    (plain : e.result? results = none) :
    pieces results removed (e :: xs) = pieces results removed xs := by
  have hides : ∀ x, e.covers results removed x = false := fun x => by rw [Element.covers, plain]; rfl
  have nothing : e.piece? results removed = none := by
    rw [Element.piece?, kept, plain]
    rfl
  simp only [pieces, List.any_cons, hides, Bool.false_or]
  rw [List.filter_cons]
  split
  · rw [List.filterMap_cons, nothing]
  · rfl

theorem pieces_shown {e : Element} {xs : List Element} (kept : removed e = false)
    (shown : (e.result? results).isSome) (holds : ∀ x ∈ xs, e.Holds x)
    (outer : ∀ x ∈ e :: xs, ¬ x.Holds e) :
    pieces results removed (e :: xs) = (e.piece? results removed).toList := by
  have hidden : xs.filter (fun x => !(e :: xs).any fun a => a.covers results removed x) = [] := by
    rw [List.filter_eq_nil_iff]
    intro x mem
    have covered : e.covers results removed x = true := by
      rw [Element.covers, shown, kept, decide_eq_true (holds x mem)]
      rfl
    rw [List.any_cons, covered]
    exact Bool.false_ne_true
  have seen : (e :: xs).any (fun a => a.covers results removed e) = false :=
    List.any_eq_false.2 fun x mem => by simp [covers_eq_false (outer x mem)]
  rw [pieces, List.filter_cons, hidden, seen]
  exact filterMap_single _ e

structure Element.Within (lo hi : Nat) (e : Element) : Prop where
  after : lo ≤ e.start
  opens : e.start < e.openEnd
  ends : e.openEnd ≤ e.stop
  closes : ∀ close, e.closeStart = some close → close ≤ e.stop
  before : e.stop ≤ hi

theorem Element.Within.apart {lo mid hi : Nat} {a b : Element} (first : a.Within lo mid)
    (second : b.Within mid hi) : ¬ a.Holds b ∧ ¬ b.Holds a := by
  have here := first.before
  have later := second.after
  have opens := first.opens
  have ends := first.ends
  have opens' := second.opens
  have ends' := second.ends
  constructor
  · rintro ⟨close, closes, -, inside⟩
    have stop := first.closes close closes
    omega
  · rintro ⟨close, -, after, -⟩
    omega

theorem Element.Within.not_holds_self {lo hi : Nat} {e : Element} (within : e.Within lo hi) :
    ¬ e.Holds e := by
  rintro ⟨close, -, after, -⟩
  exact absurd within.opens (Nat.not_lt.2 after)

theorem Element.Within.widen {lo hi lo' hi' : Nat} {e : Element} (within : e.Within lo hi)
    (first : lo' ≤ lo) (last : hi ≤ hi') : e.Within lo' hi' :=
  ⟨Nat.le_trans first within.after, within.opens, within.ends, within.closes,
    Nat.le_trans within.before last⟩

theorem Token.element?_within {t : Token} {pos : Nat} {e : Element} (found : t.element? pos = some e) :
    e.Within pos (pos + size t.lexeme) := by
  have span := element?_span found
  simp only [Element.span, Span.mk.injEq] at span
  have angle : '<'.utf8Size = 1 := by decide
  have opened : ∀ name body, pos < (Element.ofOpenTag pos name body).openEnd := by
    intro name body
    rw [Element.openEnd_ofOpenTag, List.cons_append, size_cons]
    omega
  cases t with
  | openTag name body =>
    cases found
    refine ⟨Nat.le_refl _, opened name body, Nat.le_refl _, ?_, Nat.le_of_eq span.2⟩
    rintro close ⟨⟩
  | raw name body content closing =>
    cases found
    refine ⟨Nat.le_refl _, opened name body, Nat.le_trans (Nat.le_add_right _ _) (Nat.le_add_right _ _),
      ?_, Nat.le_of_eq span.2⟩
    rintro close ⟨⟩
    exact Nat.le_add_right _ _
  | char | aside | closeTag | unfinished => cases found

namespace Forest

theorem elements_leaf (pos mark : Nat) (token : Token) (rest : Forest) :
    (leaf mark token rest).elements pos =
      (token.element? pos).toList ++ rest.elements (pos + size token.lexeme) := by
  rw [elements, placed, List.map_append, elements]
  cases token.element? pos <;> rfl

def outer (pos : Nat) (name : List Char) (body : TagBody) (inside : Forest)
    (closing tail : List Char) : Element :=
  let close := pos + size (Token.openTag name body).lexeme + size inside.text
  (Element.ofOpenTag pos name body).closedAt close (close + size (Token.closeTag closing tail).lexeme)

theorem elements_element (pos : Nat) (name : List Char) (body : TagBody) (inside : Forest)
    (closing tail : List Char) (rest : Forest) :
    (element name body inside closing tail rest).elements pos =
      outer pos name body inside closing tail ::
        (inside.elements (pos + size (Token.openTag name body).lexeme) ++
          rest.elements (pos + size (Token.openTag name body).lexeme + size inside.text +
            size (Token.closeTag closing tail).lexeme)) := by
  rw [elements, placed, List.map_cons, List.map_append]
  rfl

theorem outer_within (pos : Nat) (name : List Char) (body : TagBody) (inside : Forest)
    (closing tail : List Char) :
    (outer pos name body inside closing tail).Within pos
      (pos + size (Token.openTag name body).lexeme + size inside.text +
        size (Token.closeTag closing tail).lexeme) := by
  have opened : (outer pos name body inside closing tail).openEnd =
      pos + size (Token.openTag name body).lexeme := Element.openEnd_ofOpenTag pos name body
  have angle : '<'.utf8Size = 1 := by decide
  have some_ : 0 < size (Token.openTag name body).lexeme := by
    rw [Token.lexeme, List.cons_append, size_cons]
    omega
  refine ⟨Nat.le_refl _, ?_, ?_, ?_, Nat.le_refl _⟩
  · rw [opened]
    exact Nat.lt_add_of_pos_right some_
  · rw [opened]
    exact Nat.le_trans (Nat.le_add_right _ _) (Nat.le_add_right _ _)
  · rintro close ⟨⟩
    exact Nat.le_add_right _ _

theorem elements_within (f : Forest) (pos : Nat) :
    ∀ e ∈ f.elements pos, e.Within pos (pos + size f.text) := by
  induction f generalizing pos with
  | nil => exact List.forall_mem_nil _
  | leaf mark token rest ih =>
    rw [elements_leaf, text_leaf, size_append, List.forall_mem_append, ← Nat.add_assoc]
    refine ⟨fun e mem => ?_, fun e mem => ?_⟩
    · have within := Token.element?_within (Option.mem_toList.1 mem)
      exact within.widen (Nat.le_refl _) (Nat.le_add_right _ _)
    · exact (ih _ e mem).widen (Nat.le_add_right _ _) (Nat.le_refl _)
  | element name body inside closing tail rest inner_ih rest_ih =>
    rw [elements_element, text_element, size_append, size_append, size_append, ← Nat.add_assoc,
      ← Nat.add_assoc, ← Nat.add_assoc, List.forall_mem_cons, List.forall_mem_append]
    refine ⟨?_, fun e mem => ?_, fun e mem => ?_⟩
    · exact (outer_within pos name body inside closing tail).widen (Nat.le_refl _)
        (Nat.le_add_right _ _)
    · exact (inner_ih _ e mem).widen (by omega) (by omega)
    · exact (rest_ih _ e mem).widen (by omega) (Nat.le_refl _)

end Forest

def Token.tick (removed : Element → Bool) (pos : Nat) (t : Token) : Nat :=
  if (t.element? pos).any removed then 1 else 0

theorem Token.replaced {t : Token} (sound : t.Sound) (alone : t.isAlone = true) {pos : Nat}
    (scripts : ∀ e ∈ t.element? pos, removed e = true → e.tag = "script") {edits : List Edit}
    {rest out : List Char} (later : Replaced (pos + size t.lexeme) edits rest out) :
    Replaced pos (((t.element? pos).bind (Element.piece? results removed)).toList ++ edits)
      (t.lexeme ++ rest)
      ((if t.isTicked (t.tick removed pos) then [] else (t.displayed results).lexeme) ++ out) := by
  have display := t.display?_turns sound alone results pos
  rw [display?] at display
  cases found : t.element? pos with
  | none =>
    have kept : t.isTicked (t.tick removed pos) = false := by
      rw [tick, found]
      exact Bool.and_false _
    rw [found] at display
    rcases display with ⟨-, same⟩ | ⟨e, none_, -⟩
    · rw [kept, same]
      exact later.skip t.lexeme
    · cases none_
  | some e =>
    have agrees : Placed.Agrees ⟨0, t, e⟩ := element?_agrees found
    rw [found] at scripts display
    cases gone : removed e with
    | true =>
      have script : t.IsScript := agrees.tag.trans (congrArg some (scripts e rfl gone))
      have ticked : t.isTicked (t.tick removed pos) = true := by
        rw [isTicked, decide_eq_true script, tick, found, Option.any_some, gone]
        rfl
      rw [ticked, Option.bind_some, Element.piece?, gone]
      refine .next [] t.lexeme ?_ ?_
      · rw [Edit.remove, element?_span found]
        rfl
      · exact later
    | false =>
      have kept : t.isTicked (t.tick removed pos) = false := by
        rw [tick, found, Option.any_some, gone]
        exact Bool.and_false _
      have piece : e.piece? results removed = (((t.attr? "data-src").map trimBlanks).bind results).bind
          (Playground.display? e) := by
        rw [Element.piece?, gone, Element.result?, agrees.shownTarget?]
        rfl
      rw [kept, Option.bind_some, piece]
      rcases display with ⟨none_, same⟩ | ⟨d, one, turns, -⟩
      · rw [Option.bind_some] at none_
        rw [none_, same]
        exact later.skip t.lexeme
      · rw [Option.bind_some] at one
        rw [one]
        exact .turns turns later

namespace Forest

variable {f : Forest}

theorem pieces_leaf (pos mark : Nat) (token : Token) (rest : Forest) :
    pieces results removed ((leaf mark token rest).elements pos) =
      ((token.element? pos).bind (Element.piece? results removed)).toList ++
        pieces results removed (rest.elements (pos + size token.lexeme)) := by
  rw [elements_leaf, pieces_append]
  · cases found : token.element? pos with
    | none => rfl
    | some e =>
      have within := Token.element?_within found
      exact congrArg (· ++ _) (pieces_single within.not_holds_self)
  · intro x mem y mem'
    exact (Token.element?_within (Option.mem_toList.1 mem)).apart (rest.elements_within _ y mem')

theorem outer_result? (results : Results) (pos : Nat) (name : List Char) (body : TagBody)
    (inside : Forest) (closing tail : List Char) :
    (outer pos name body inside closing tail).result? results = body.result? results := by
  have attr := Element.attr?_ofOpenTag pos name body "data-src"
  exact congrArg (fun a => (a.map trimBlanks).bind results) attr

theorem outer_display? {name : List Char} {body : TagBody} (image : Token.tagOf name ≠ "img")
    (pos : Nat) (inside : Forest) (closing tail : List Char) (uri : String) :
    display? (outer pos name body inside closing tail) uri =
      some ⟨⟨pos + size (Token.openTag name body).lexeme,
        pos + size (Token.openTag name body).lexeme + size inside.text⟩, markupOfUri uri⟩ := by
  have opened : (outer pos name body inside closing tail).openEnd =
      pos + size (Token.openTag name body).lexeme := Element.openEnd_ofOpenTag pos name body
  have content : (outer pos name body inside closing tail).content? =
      some ⟨_, pos + size (Token.openTag name body).lexeme + size inside.text⟩ :=
    congrArg (fun openEnd => some (Span.mk openEnd _)) opened
  rw [display?, if_neg (by exact image), Edit.setInner?, content]
  rfl

theorem pieces_element {pos : Nat} {name closing tail : List Char} {body : TagBody}
    {inside rest : Forest} (opens : (Token.openTag name body).Sound) (more : body.isAlone name = false)
    (kept : removed (outer pos name body inside closing tail) = false) :
    let openEnd := pos + size (Token.openTag name body).lexeme
    let close := openEnd + size inside.text
    let stop := close + size (Token.closeTag closing tail).lexeme
    pieces results removed ((element name body inside closing tail rest).elements pos) =
      (match body.result? results with
        | some uri => [⟨⟨openEnd, close⟩, markupOfUri uri⟩]
        | none => pieces results removed (inside.elements openEnd)) ++
          pieces results removed (rest.elements stop) := by
  intro openEnd close stop
  obtain ⟨-, image, -⟩ := Token.tags_of_element opens more
  have around := outer_within pos name body inside closing tail
  have within : ∀ x ∈ inside.elements openEnd, x.Within openEnd close := inside.elements_within openEnd
  have holds : ∀ x ∈ inside.elements openEnd, (outer pos name body inside closing tail).Holds x := by
    intro x mem
    have opened : (outer pos name body inside closing tail).openEnd = openEnd :=
      Element.openEnd_ofOpenTag pos name body
    exact ⟨close, rfl, opened ▸ (within x mem).after, (within x mem).before⟩
  have behind : ∀ x ∈ outer pos name body inside closing tail :: inside.elements openEnd,
      ∀ y ∈ rest.elements stop, ¬ x.Holds y ∧ ¬ y.Holds x := by
    intro x mem y mem'
    have later := rest.elements_within stop y mem'
    rcases List.mem_cons.1 mem with rfl | mem
    · exact around.apart later
    · exact ((within x mem).widen (Nat.le_refl _) (Nat.le_add_right _ _)).apart later
  rw [elements_element, ← List.cons_append, pieces_append behind]
  congr 1
  have result := outer_result? results pos name body inside closing tail
  cases found : body.result? results with
  | none => exact pieces_plain kept (result.trans found)
  | some uri =>
    rw [found] at result
    rw [pieces_shown kept (by rw [result]; rfl) holds ?_, Element.piece?, kept, result]
    · exact congrArg Option.toList (outer_display? image pos inside closing tail uri)
    · intro x mem
      rcases List.mem_cons.1 mem with rfl | mem
      · exact around.not_holds_self
      · rintro ⟨-, -, after, -⟩
        have opens_ := (within x mem).opens
        have start := Nat.le_trans (Nat.le_add_right _ _) (within x mem).after
        exact absurd after (Nat.not_le.2 (Nat.lt_of_le_of_lt start opens_))

theorem replaced_displayed (sound : f.Sound) (pos : Nat)
    (scripts : ∀ e ∈ f.elements pos, removed e = true → e.tag = "script") :
    Replaced pos (pieces results removed (f.elements pos)) f.text
      ((f.ticked removed pos).displayed results fun mark t => t.isTicked mark) := by
  induction f generalizing pos with
  | nil => exact .done pos []
  | leaf mark token rest ih =>
    obtain ⟨here, alone, sound⟩ := sound
    rw [elements_leaf, List.forall_mem_append] at scripts
    rw [pieces_leaf, text_leaf, ticked, displayed]
    exact token.replaced here alone (fun e mem => scripts.1 e (Option.mem_toList.2 mem))
      (ih sound _ scripts.2)
  | element name body inside closing tail rest inner_ih rest_ih =>
    obtain ⟨opens, more, closes, -, inner, later⟩ := sound
    rw [elements_element, List.forall_mem_cons, List.forall_mem_append] at scripts
    have rest_ := rest_ih later _ scripts.2.2
    have inner_ := inner_ih inner _ scripts.2.1
    have kept : removed (outer pos name body inside closing tail) = false := by
      rw [← Bool.not_eq_true]
      exact fun gone => (Token.tags_of_element opens more).1 (scripts.1 gone)
    rw [pieces_element opens more kept, text_element, ticked, displayed]
    refine .skip _ ?_
    cases found : body.result? results with
    | none => exact inner_.append (rest_.skip _)
    | some uri => exact .next [] inside.text rfl (rest_.skip _)

end Forest

/-- In a well-formed text a batch of displays and removals replaces the pieces of the elements and
nothing else. -/
theorem withEdits_pieces {doc : String} (fine : WellFormed doc = true)
    (scripts : ∀ e ∈ scan doc, removed e = true → e.tag = "script") {removals : List Edit}
    (removes : removals.Perm (((scan doc).filter removed).map Edit.remove)) (cache : ArtifactCache) :
    Replaced 0 (pieces cache.get? removed (scan doc)) doc.toList
      (withEdits doc (displayAll (scan doc) cache ++ removals)).toList := by
  obtain ⟨f, sound, chars⟩ := WellFormed.forest fine
  obtain rfl : doc = String.ofList f.text := by rw [chars, String.ofList_toList]
  have elements := Forest.scan_text sound
  rw [elements] at scripts removes
  have ticked := @Forest.placed_ticked f removed sound 0
  have same : ((f.elements 0).filter fun e => e.tag == "script" && removed e) =
      (f.elements 0).filter removed := by
    refine List.filter_congr fun e mem => ?_
    cases gone : removed e with
    | true => simp [scripts e mem gone]
    | false => exact Bool.and_false _
  rw [← same, ← ticked, List.map_map] at removes
  have text : String.ofList f.text = String.ofList (f.ticked removed 0).text := by
    rw [Forest.text_ticked]
  have batch := @withEdits_displayed _ _ cache _ onlyScripts_isTicked
    (Forest.ticked_sound sound 0) removes
  rw [← text] at batch
  rw [batch, elements, String.toList_ofList, String.toList_ofList]
  exact Forest.replaced_displayed sound 0 scripts

theorem withEdits_pieces_list {doc : String} (fine : WellFormed doc = true) {scripts : List Element}
    (nodup : scripts.Nodup) (within : ∀ e ∈ scripts, e ∈ scan doc ∧ e.tag = "script")
    (cache : ArtifactCache) :
    Replaced 0 (pieces cache.get? scripts.contains (scan doc)) doc.toList
      (withEdits doc (displayAll (scan doc) cache ++ scripts.map Edit.remove)).toList := by
  have chosen : scripts.Perm ((scan doc).filter scripts.contains) := by
    rw [List.perm_ext_iff_of_nodup nodup ((scan_nodup doc).filter _)]
    intro e
    rw [List.mem_filter, List.contains_iff_mem]
    exact ⟨fun mem => ⟨(within e mem).1, mem⟩, And.right⟩
  refine withEdits_pieces fine (fun e _ gone => ?_) (chosen.map _) cache
  exact (within e (List.contains_iff_mem.1 gone)).2

end Html

end Playground
