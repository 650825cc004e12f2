import Playground.Proofs.Html.Places
import Playground.Proofs.Html.Splice

/-! Edits inside elements that are edited themselves. The cursor of a splice never stands before
the end of an edit it has passed. -/

namespace Playground.Html

open Text

def Attribute.givenSpan (a : Attribute) : Span :=
  match a.valueSpan, a.quoted with
  | some span, true => span
  | _, _ => a.span

theorem Attribute.IsIn.givenSpan {doc : String} {a : Attribute} (here : a.IsIn doc) :
    a.span.start ≤ a.givenSpan.start ∧ a.givenSpan.start ≤ a.givenSpan.stop ∧
      a.givenSpan.stop ≤ a.span.stop ∧
      Boundary doc.toList a.givenSpan.start ∧ Boundary doc.toList a.givenSpan.stop := by
  have named := here.named
  unfold Attribute.givenSpan
  split
  · next span valued _ =>
    obtain ⟨after, order, before⟩ := here.valueInside span valued
    exact ⟨Nat.le_of_lt after, order, before, here.valueBoundaries span valued⟩
  · exact ⟨Nat.le_refl _, Nat.le_of_lt named, Nat.le_refl _, here.starts, here.stops⟩

namespace Edit

theorem span_setAttr (e : Element) (name value : String) :
    (Edit.setAttr e name value).span =
      ((e.find? name).map Attribute.givenSpan).getD ⟨e.attrsEnd, e.attrsEnd⟩ := by
  unfold Edit.setAttr giveAttr
  cases e.find? name with
  | none => rfl
  | some a =>
    obtain ⟨_, _, _, _ | _, _ | _⟩ := a
    all_goals rfl

theorem content_of_setInner? {e : Element} {text : String} {edit : Edit}
    (made : Edit.setInner? e text = some edit) :
    ∃ close, e.closeStart = some close ∧ edit = ⟨⟨e.openEnd, close⟩, text⟩ := by
  obtain ⟨span, content, rfl⟩ := Option.map_eq_some_iff.1 made
  obtain ⟨close, closes, rfl⟩ := Option.map_eq_some_iff.1 content
  exact ⟨close, closes, rfl⟩

inductive IsOf (e : Element) : Edit → Prop
  | remove : IsOf e (Edit.remove e)
  | setInner (text : String) (edit : Edit) (made : Edit.setInner? e text = some edit) : IsOf e edit
  | setAttr (name value : String) : IsOf e (Edit.setAttr e name value)

inductive Replaces (e : Element) : Edit → Prop
  | remove : Replaces e (Edit.remove e)
  | setInner (text : String) (edit : Edit) (made : Edit.setInner? e text = some edit) :
      Replaces e edit

theorem Replaces.isOf {e : Element} {edit : Edit} (replaces : edit.Replaces e) : edit.IsOf e := by
  cases replaces with
  | remove => exact .remove
  | setInner text _ made => exact .setInner text _ made

structure InTag (e : Element) (span : Span) : Prop where
  after : e.start < span.start
  order : span.start ≤ span.stop
  before : span.stop ≤ e.attrsEnd

/-- Where an edit of an element stands: over all of it, over its content, or in its open tag. -/
inductive Stands (e : Element) : Span → Prop
  | whole : Stands e e.span
  | content (close : Nat) (closes : e.closeStart = some close) : Stands e ⟨e.openEnd, close⟩
  | tag (span : Span) (inTag : InTag e span) : Stands e span

variable {doc : String} {c d : Element} {e f : Edit}

theorem inTag_setAttr (placed : c.IsIn doc) (name value : String) :
    InTag c (Edit.setAttr c name value).span := by
  rw [span_setAttr]
  cases found : c.find? name with
  | none => exact ⟨placed.named, Nat.le_refl _, Nat.le_refl _⟩
  | some a =>
    obtain ⟨here, after, before⟩ := placed.attrs a (List.mem_of_find?_eq_some found)
    obtain ⟨starts, order, stops, -⟩ := here.givenSpan
    exact ⟨Nat.lt_of_lt_of_le after starts, order, Nat.le_trans stops before⟩

theorem IsOf.stands (isOf : e.IsOf c) (placed : c.IsIn doc) : Stands c e.span := by
  cases isOf with
  | remove => exact .whole
  | setInner text _ made =>
    obtain ⟨close, closes, rfl⟩ := content_of_setInner? made
    exact .content close closes
  | setAttr name value => exact .tag _ (inTag_setAttr placed name value)

theorem IsOf.setAttr_of_inTag (isOf : e.IsOf c) (placed : c.IsIn doc) (inTag : InTag c e.span) :
    ∃ name value, e = Edit.setAttr c name value := by
  cases isOf with
  | remove => exact absurd inTag.after (Nat.lt_irrefl _)
  | setInner text _ made =>
    obtain ⟨close, closes, rfl⟩ := content_of_setInner? made
    have bracket := placed.bracket
    have before := Nat.le_trans inTag.order inTag.before
    exact absurd before (Nat.not_le.2 bracket)
  | setAttr name value => exact ⟨name, value, rfl⟩

theorem IsOf.fits (isOf : e.IsOf c) (placed : c.IsIn doc) : e.Fits doc.toList := by
  cases isOf with
  | remove =>
    obtain ⟨before, after, whole, start⟩ := placed.angle
    exact ⟨⟨before, _, whole, start⟩, placed.stopBoundary, Nat.le_of_lt placed.start_lt_stop⟩
  | setInner text _ made =>
    obtain ⟨close, closes, rfl⟩ := content_of_setInner? made
    exact ⟨placed.openEndBoundary, placed.closeBoundary close closes, (placed.closed close closes).1⟩
  | setAttr name value =>
    have span := span_setAttr c name value
    cases found : c.find? name with
    | none =>
      rw [found] at span
      have at_ : Boundary doc.toList c.attrsEnd := placed.attrsEndBoundary
      constructor
      all_goals rw [span]
      · exact at_
      · exact at_
      · exact Nat.le_refl _
    | some a =>
      rw [found] at span
      obtain ⟨-, order, -, first, last⟩ :=
        (placed.attrs a (List.mem_of_find?_eq_some found)).1.givenSpan
      constructor
      all_goals rw [span]
      · exact first
      · exact last
      · exact order

def Covers (e f : Edit) : Prop := f.span.start < e.span.stop → f.span.stop ≤ e.span.stop

theorem covers_setAttr (placed : c.IsIn doc) {name name' value value' : String}
    (later : (Edit.setAttr c name value).span.start < (Edit.setAttr c name' value').span.start) :
    (Edit.setAttr c name value).Covers (Edit.setAttr c name' value') := by
  unfold Covers
  rw [span_setAttr, span_setAttr] at *
  cases found : c.find? name with
  | none =>
    rw [found] at later
    intro inside
    exact absurd inside (Nat.lt_asymm later)
  | some a =>
    rw [found] at later
    have mem := List.mem_of_find?_eq_some found
    obtain ⟨here, -, before⟩ := placed.attrs a mem
    obtain ⟨starts, order, stops, -⟩ := here.givenSpan
    cases found' : c.find? name' with
    | none =>
      intro inside
      simp only [Option.map_none, Option.map_some, Option.getD_none, Option.getD_some] at inside
      omega
    | some b =>
      rw [found'] at later
      have mem' := List.mem_of_find?_eq_some found'
      obtain ⟨starts', order', stops', -⟩ := (placed.attrs b mem').1.givenSpan
      simp only [Option.map_some, Option.getD_some] at later ⊢
      intro inside
      let R : Attribute → Attribute → Prop := fun a b =>
        a = b ∨ a.span.stop ≤ b.span.start ∨ b.span.stop ≤ a.span.start
      have forward : c.attrs.Pairwise R := placed.ordered.imp fun first => .inr (.inl first)
      have backward : c.attrs.Pairwise (flip R) := placed.ordered.imp fun first => .inr (.inr first)
      rcases forward.forall_of_forall_of_flip (fun _ _ => .inl rfl) backward mem mem' with
        rfl | apart | apart
      · omega
      · omega
      · omega

theorem Stands.within {span : Span} (placed : c.IsIn doc) (stands : Stands c span) :
    c.start ≤ span.start ∧ span.start ≤ span.stop ∧ span.stop ≤ c.stop := by
  have named := placed.named
  have bracket := placed.bracket
  have opened := placed.opened
  cases stands with
  | whole => exact ⟨Nat.le_refl _, Nat.le_of_lt placed.start_lt_stop, Nat.le_refl _⟩
  | content close closes => exact ⟨Nat.le_of_lt (Nat.lt_trans named bracket), placed.closed close closes⟩
  | tag _ inTag =>
    have before := inTag.before
    exact ⟨Nat.le_of_lt inTag.after, inTag.order, by omega⟩

theorem Stands.nests {span span' : Span} (placed : c.IsIn doc) (placed' : d.IsIn doc)
    (stands : Stands c span) (stands' : Stands d span')
    (related : c.stop ≤ d.start ∨ d.stop ≤ c.start ∨ c.Holds d ∨ d.Holds c)
    (later : span.start < span'.start) (inside : span'.start < span.stop) :
    span'.stop ≤ span.stop := by
  obtain ⟨starts, -, stops⟩ := stands.within placed
  obtain ⟨starts', order', stops'⟩ := stands'.within placed'
  rcases related with apart | apart | ⟨place, at_, opens, closes⟩ | ⟨place, at_, opens, closes⟩
  · omega
  · omega
  · have bracket := placed.bracket
    cases stands with
    | whole => exact Nat.le_trans stops' (Nat.le_trans closes (placed.closed place at_).2)
    | content close here =>
      cases at_.symm.trans here
      exact Nat.le_trans stops' closes
    | tag _ inTag =>
      have before := inTag.before
      omega
  · have before : d.start < c.start ∧ d.attrsEnd < c.start := by
      have named := placed'.named
      have bracket := placed'.bracket
      omega
    cases stands' with
    | whole => exact absurd later (Nat.not_lt.2 (Nat.le_trans (Nat.le_of_lt before.1) starts))
    | content close here => exact absurd later (Nat.not_lt.2 (Nat.le_trans opens starts))
    | tag _ inTag =>
      have stop := inTag.before
      omega

theorem Stands.nests_self {span span' : Span} (placed : c.IsIn doc) (stands : Stands c span)
    (stands' : Stands c span') (other : ¬(InTag c span ∧ InTag c span'))
    (later : span.start < span'.start) (inside : span'.start < span.stop) :
    span'.stop ≤ span.stop := by
  have within := stands'.within placed
  have before := Nat.lt_trans placed.named placed.bracket
  cases stands with
  | whole => exact within.2.2
  | content close closes =>
    cases stands' with
    | whole => exact absurd later (Nat.lt_asymm before)
    | content close' closes' => exact absurd later (Nat.lt_irrefl _)
    | tag _ inTag =>
      have stop := inTag.before
      have bracket := placed.bracket
      exact absurd later (Nat.not_lt.2 (by have order := inTag.order; dsimp only; omega))
  | tag _ inTag =>
    have stop := inTag.before
    have bracket := placed.bracket
    cases stands' with
    | whole => exact absurd later (Nat.lt_asymm inTag.after)
    | content close' closes' => exact absurd inside (Nat.not_lt.2 (by dsimp only; omega))
    | tag _ inTag' => exact absurd ⟨inTag, inTag'⟩ other

theorem IsOf.covers (mem : c ∈ scan doc) (mem' : d ∈ scan doc) (isOf : e.IsOf c) (isOf' : f.IsOf d)
    (later : e.span.start < f.span.start) : e.Covers f := by
  intro inside
  obtain ⟨placed, -, related, -⟩ := scan_places doc
  have here := (placed c mem).1
  have here' := (placed d mem').1
  have stands := isOf.stands here
  have stands' := isOf'.stands here'
  by_cases same : c = d
  · subst same
    by_cases both : InTag c e.span ∧ InTag c f.span
    · obtain ⟨name, value, rfl⟩ := isOf.setAttr_of_inTag here both.1
      obtain ⟨name', value', rfl⟩ := isOf'.setAttr_of_inTag here both.2
      exact covers_setAttr here later inside
    · exact stands.nests_self here stands' both later inside
  · exact stands.nests here here' stands' (related c mem d mem' same) later inside

theorem place_around (e : Edit) {before after : List Edit} (first : ∀ d ∈ after, f.precedes d = true) :
    ∃ before' after', e.place (before ++ f :: after) = before' ++ f :: after' ∧
      e.place (before ++ after) = before' ++ after' ∧ before ⊆ before' ∧
        (e.precedes f = true → e ∈ before') := by
  induction before with
  | nil =>
    rw [List.nil_append, List.nil_append, place]
    cases order : e.precedes f with
    | true =>
      have leads : ∀ d ∈ after, e.precedes d = true :=
        fun d mem => precedes_trans e f d order (first d mem)
      have placed : e.place ([] ++ after) = [] ++ e :: after :=
        place_between (List.forall_mem_nil _) leads
      exact ⟨[e], after, rfl, placed, by simp, by simp⟩
    | false => exact ⟨[], e.place after, rfl, rfl, by simp, by simp⟩
  | cons d before ih =>
    rw [List.cons_append, List.cons_append, place, place]
    split
    · exact ⟨e :: d :: before, after, rfl, rfl, by simp, by simp⟩
    · obtain ⟨before', after', more, fewer, kept, earlier⟩ := ih
      refine ⟨d :: before', after', by rw [more]; rfl, by rw [fewer]; rfl, ?_, ?_⟩
      · exact List.cons_subset_cons d kept
      · exact fun order => List.mem_cons_of_mem d (earlier order)

theorem mergeSort_around (f : Edit) (first last : List Edit) :
    ∃ before after, (first ++ f :: last).mergeSort precedes = before ++ f :: after ∧
      (first ++ last).mergeSort precedes = before ++ after ∧
        ∀ e ∈ first, e.precedes f = true → e ∈ before := by
  induction first with
  | nil =>
    obtain ⟨before, after, sorted, others, -⟩ :=
      List.mergeSort_cons precedes_trans precedes_total f last
    exact ⟨before, after, sorted, others, nofun⟩
  | cons e first ih =>
    obtain ⟨before, after, sorted, others, earlier⟩ := ih
    have order := List.pairwise_mergeSort precedes_trans precedes_total (first ++ f :: last)
    rw [sorted, List.pairwise_append, List.pairwise_cons] at order
    obtain ⟨before', after', more, fewer, kept, placed⟩ := @place_around f e before after order.2.1.1
    refine ⟨before', after', ?_, ?_, ?_⟩
    · rw [List.cons_append, mergeSort_foldr, List.foldr_cons, ← mergeSort_foldr, sorted, more]
    · rw [List.cons_append, mergeSort_foldr, List.foldr_cons, ← mergeSort_foldr, others, fewer]
    · rw [List.forall_mem_cons]
      exact ⟨placed, fun d mem leads => kept (earlier d mem leads)⟩

end Edit

def cursorAfter : Nat → List Edit → Nat
  | cursor, [] => cursor
  | cursor, e :: edits => cursorAfter (if e.span.start < cursor then cursor else e.span.stop) edits

theorem le_cursorAfter {edits : List Edit} (order : ∀ e ∈ edits, e.span.start ≤ e.span.stop)
    (cursor : Nat) : cursor ≤ cursorAfter cursor edits := by
  induction edits generalizing cursor with
  | nil => exact Nat.le_refl _
  | cons e edits ih =>
    rw [List.forall_mem_cons] at order
    refine Nat.le_trans ?_ (ih order.2 _)
    split <;> omega

theorem stop_le_cursorAfter {edits : List Edit} (order : ∀ e ∈ edits, e.span.start ≤ e.span.stop)
    (covers : edits.Pairwise Edit.Covers) {cursor : Nat}
    (inside : ∀ e ∈ edits, e.span.start < cursor → e.span.stop ≤ cursor) :
    ∀ e ∈ edits, e.span.stop ≤ cursorAfter cursor edits := by
  induction edits generalizing cursor with
  | nil => nofun
  | cons e edits ih =>
    rw [List.forall_mem_cons] at order inside
    rw [List.pairwise_cons] at covers
    rw [cursorAfter]
    split
    · next skipped =>
      rw [List.forall_mem_cons]
      have later := le_cursorAfter order.2 cursor
      exact ⟨Nat.le_trans (inside.1 skipped) later, ih order.2 covers.2 inside.2⟩
    · rw [List.forall_mem_cons]
      exact ⟨le_cursorAfter order.2 e.span.stop, ih order.2 covers.2 covers.1⟩

theorem cursorAfter_cases (cursor : Nat) (edits : List Edit) :
    cursorAfter cursor edits = cursor ∨ ∃ e ∈ edits, cursorAfter cursor edits = e.span.stop := by
  induction edits generalizing cursor with
  | nil => exact .inl rfl
  | cons e edits ih =>
    rw [cursorAfter]
    rcases ih (if e.span.start < cursor then cursor else e.span.stop) with same | ⟨d, mem, stop⟩
    · rw [same]
      split
      · exact .inl rfl
      · exact .inr ⟨e, List.mem_cons_self, rfl⟩
    · exact .inr ⟨d, List.mem_cons_of_mem e mem, stop⟩

theorem splice?_dropped {whole : List Char} {cursor : Nat} {before after : List Edit} {f : Edit}
    (early : f.span.start < cursorAfter cursor before) :
    splice? whole cursor (before ++ f :: after) = splice? whole cursor (before ++ after) := by
  induction before generalizing cursor with
  | nil => exact if_pos early
  | cons e before ih =>
    rw [cursorAfter] at early
    rw [List.cons_append, List.cons_append, splice?, splice?]
    split
    · next skipped =>
      rw [if_pos skipped] at early
      exact ih early
    · next kept =>
      rw [if_neg kept] at early
      rw [ih early]

/-- An insertion that does not start before the cursor puts its text between what is left otherwise. -/
theorem splice?_inserted {whole : List Char} {cursor : Nat} {before after : List Edit} {f : Edit}
    (at_ : Boundary whole cursor) (fits : ∀ e ∈ before ++ f :: after, e.Fits whole)
    (inserts : f.span.stop = f.span.start) (late : cursorAfter cursor before ≤ f.span.start)
    (later : ∀ e ∈ after, f.span.start ≤ e.span.start) :
    ∃ x y, splice? whole cursor (before ++ f :: after) = some (x ++ (f.text.toList ++ y)) ∧
      splice? whole cursor (before ++ after) = some (x ++ y) := by
  induction before generalizing cursor with
  | nil =>
    rw [List.nil_append, List.forall_mem_cons] at fits
    rw [cursorAfter] at late
    obtain ⟨fits_f, fits⟩ := fits
    obtain ⟨a, m, b, split, start, stop, slice⟩ := slice?_boundary at_ fits_f.start late
    obtain ⟨y, left⟩ := splice?_isSome fits_f.start fits
    refine ⟨m, y, ?_, ?_⟩
    · rw [List.nil_append, splice?, if_neg (Nat.not_lt.2 late), inserts, slice, left]
      simp
    · rw [stop] at left later
      rw [start]
      exact splice?_advance split later left
  | cons e before ih =>
    rw [List.cons_append, List.forall_mem_cons] at fits
    rw [cursorAfter] at late
    rw [List.cons_append, List.cons_append, splice?, splice?]
    split
    · next skipped =>
      rw [if_pos skipped] at late
      exact ih at_ fits.2 late
    · next kept =>
      rw [if_neg kept] at late
      obtain ⟨-, m, -, -, -, -, slice⟩ := slice?_boundary at_ fits.1.start (Nat.not_lt.1 kept)
      obtain ⟨x, y, more, fewer⟩ := ih fits.1.stop fits.2 late
      refine ⟨m ++ e.text.toList ++ x, y, ?_, ?_⟩
      · rw [slice, more]
        simp
      · rw [slice, fewer]
        simp

structure InOrder (whole : List Char) (edits : List Edit) : Prop where
  sorted : edits.Pairwise fun e f => e.precedes f = true
  covers : edits.Pairwise Edit.Covers
  fits : ∀ e ∈ edits, e.Fits whole

namespace InOrder

variable {whole : List Char} {before after : List Edit} {f : Edit}

theorem dropped (ordered : InOrder whole (before ++ f :: after)) {e : Edit} (mem : e ∈ before)
    (covered : f.span.start < e.span.stop) :
    splice? whole 0 (before ++ f :: after) = splice? whole 0 (before ++ after) := by
  have order : ∀ d ∈ before, d.span.start ≤ d.span.stop :=
    fun d early => (ordered.fits d (List.mem_append_left _ early)).order
  have covers := (List.pairwise_append.1 ordered.covers).1
  have passed := stop_le_cursorAfter order covers
    (fun _ _ early => absurd early (Nat.not_lt_zero _)) e mem
  exact splice?_dropped (Nat.lt_of_lt_of_le covered passed)

theorem insertion_iff (ordered : InOrder whole (before ++ f :: after))
    (inserts : f.span.stop = f.span.start) :
    splice? whole 0 (before ++ f :: after) = splice? whole 0 (before ++ after) ↔
      f.text = "" ∨ ∃ e ∈ before ++ after, e.span.start < f.span.start ∧ f.span.start < e.span.stop := by
  obtain ⟨-, ⟨behind, -⟩, ahead⟩ :=
    (List.pairwise_append.1 ordered.sorted).imp_right (And.imp_left List.pairwise_cons.1)
  have later : ∀ e ∈ after, f.span.start ≤ e.span.start := by
    intro e mem
    rcases Edit.precedes_iff.1 (behind e mem) with early | ⟨same, -⟩
    · exact Nat.le_of_lt early
    · exact Nat.le_of_eq same
  have sooner : ∀ e ∈ before, f.span.start < e.span.stop → e.span.start < f.span.start := by
    intro e mem covered
    have empty : f.isInsertion = true := decide_eq_true (Nat.le_of_eq inserts)
    rcases Edit.precedes_iff.1 (ahead e mem f List.mem_cons_self) with early | ⟨same, kinds⟩
    · exact early
    · have nothing : e.isInsertion = true := by
        rcases kinds with ⟨yes, -⟩ | ⟨kinds, -⟩
        · exact yes
        · rw [kinds, empty]
      have stop : e.span.stop ≤ e.span.start := of_decide_eq_true nothing
      omega
  by_cases covered : ∃ e ∈ before, f.span.start < e.span.stop
  · obtain ⟨e, mem, past⟩ := covered
    exact iff_of_true (ordered.dropped mem past)
      (.inr ⟨e, List.mem_append_left _ mem, sooner e mem past, past⟩)
  · have late : cursorAfter 0 before ≤ f.span.start := by
      rcases cursorAfter_cases 0 before with start | ⟨e, mem, stop⟩
      · rw [start]
        exact Nat.zero_le _
      · rw [stop]
        exact Nat.not_lt.1 fun past => covered ⟨e, mem, past⟩
    have uncovered :
        ¬∃ e ∈ before ++ after, e.span.start < f.span.start ∧ f.span.start < e.span.stop := by
      rintro ⟨e, mem, starts, stops⟩
      rcases List.mem_append.1 mem with early | behind
      · exact covered ⟨e, early, stops⟩
      · exact absurd starts (Nat.not_lt.2 (later e behind))
    obtain ⟨x, y, more, fewer⟩ :=
      splice?_inserted (boundary_zero whole) ordered.fits inserts late later
    rw [more, fewer, or_iff_left uncovered, Option.some.injEq, List.append_cancel_left_eq]
    simp

end InOrder

def Edit.IsMadeIn (doc : String) (e : Edit) : Prop := ∃ c ∈ scan doc, e.IsOf c

namespace Edit

variable {doc : String} {e f : Edit} {a b : Element}

theorem IsMadeIn.fits (made : e.IsMadeIn doc) : e.Fits doc.toList := by
  obtain ⟨c, mem, isOf⟩ := made
  exact isOf.fits ((scan_places doc).1 c mem).1

theorem IsMadeIn.covers (made : e.IsMadeIn doc) (made' : f.IsMadeIn doc)
    (order : e.precedes f = true) : e.Covers f := by
  obtain ⟨c, mem, isOf⟩ := made
  obtain ⟨d, mem', isOf'⟩ := made'
  rcases precedes_iff.1 order with later | ⟨same, ⟨inserts, -⟩ | ⟨-, stops⟩⟩
  · exact isOf.covers mem mem' isOf' later
  · intro inside
    have empty : e.span.stop ≤ e.span.start := of_decide_eq_true inserts
    omega
  · exact fun _ => stops

theorem Replaces.around (placed : a.IsIn doc) (holds : a.Holds b) (replaces : e.Replaces a) :
    e.span.start ≤ b.start ∧ b.stop ≤ e.span.stop := by
  obtain ⟨close, closes, opens, stops⟩ := holds
  have closed := placed.closed close closes
  cases replaces with
  | remove =>
    have before := Nat.lt_trans placed.named placed.bracket
    exact ⟨Nat.le_trans (Nat.le_of_lt before) opens, Nat.le_trans stops closed.2⟩
  | setInner text _ made =>
    obtain ⟨close', closes', rfl⟩ := content_of_setInner? made
    cases closes.symm.trans closes'
    exact ⟨opens, stops⟩

/-- An edit of an element inside one that is replaced starts in what is replaced, or it inserts
something where that ends. -/
theorem IsOf.inside_replaced (placed : a.IsIn doc) (placed' : b.IsIn doc) (holds : a.Holds b)
    (replaces : e.Replaces a) (isOf : f.IsOf b) :
    e.precedes f = true ∧ f.span.start < e.span.stop ∨
      f.span.start = e.span.stop ∧ f.span.stop = f.span.start := by
  obtain ⟨starts, stops⟩ := replaces.around placed holds
  have named := placed'.named
  have bracket := placed'.bracket
  have opened := placed'.opened
  cases isOf with
  | remove =>
    have some_ := placed'.start_lt_stop
    have order : e.precedes (Edit.remove b) = true := by
      have replaces : e.isInsertion = false := decide_eq_false (by omega)
      have removes : (Edit.remove b).isInsertion = false := decide_eq_false (Nat.not_le.2 some_)
      rw [precedes_iff, replaces, removes]
      exact (Nat.lt_or_eq_of_le starts).imp_right fun same => ⟨same, .inr ⟨rfl, stops⟩⟩
    exact .inl ⟨order, Nat.lt_of_lt_of_le some_ stops⟩
  | setInner text _ made =>
    obtain ⟨close, closes, rfl⟩ := content_of_setInner? made
    have closed := placed'.closed close closes
    dsimp only
    by_cases inside : b.openEnd < e.span.stop
    · exact .inl ⟨precedes_iff.2 (.inl (by dsimp only; omega)), inside⟩
    · exact .inr ⟨by omega, by omega⟩
  | setAttr name value =>
    have inTag := inTag_setAttr placed' name value
    have after := inTag.after
    have before := Nat.le_trans inTag.order inTag.before
    exact .inl ⟨precedes_iff.2 (.inl (by omega)), by omega⟩

end Edit

/-- An edit of an element inside one whose content is replaced earlier in the batch is dropped,
unless it is new content for an element that ends with no content where the outer edit ends. Then
it is left out just when it is empty or a third edit covers its place. -/
theorem nested_edit_dropped_iff {doc : String} {a b : Element} {outer inner : Edit}
    {first middle last : List Edit} (mem : a ∈ scan doc) (mem' : b ∈ scan doc) (holds : a.Holds b)
    (replaces : outer.Replaces a) (isOf : inner.IsOf b)
    (made : ∀ e ∈ first ++ (middle ++ last), e.IsMadeIn doc) :
    ∃ text, edited? doc (first ++ outer :: (middle ++ inner :: last)) = some text ∧
      (edited? doc (first ++ outer :: (middle ++ last)) = some text ↔
        inner.span.start < outer.span.stop ∨ inner.text = "" ∨
          ∃ e ∈ first ++ (middle ++ last),
            e.span.start < outer.span.stop ∧ outer.span.stop < e.span.stop) := by
  have placed := (scan_places doc).1
  obtain ⟨before, after, sorted, fewer, earlier⟩ :=
    Edit.mergeSort_around inner (first ++ outer :: middle) last
  rw [List.append_assoc, List.cons_append] at sorted fewer
  have others : ∀ e, e ∈ before ++ after ↔ e = outer ∨ e ∈ first ++ (middle ++ last) := by
    intro e
    rw [← fewer, List.mem_mergeSort]
    simp only [List.mem_append, List.mem_cons, or_left_comm]
  have all : ∀ e ∈ before ++ inner :: after, e.IsMadeIn doc := by
    intro e known
    rcases List.mem_cons.1 (List.perm_middle.mem_iff.1 known) with rfl | known
    · exact ⟨b, mem', isOf⟩
    · rcases (others e).1 known with rfl | known
      · exact ⟨a, mem, replaces.isOf⟩
      · exact made e known
  have ordered : InOrder doc.toList (before ++ inner :: after) := by
    have order := List.pairwise_mergeSort Edit.precedes_trans Edit.precedes_total
      (first ++ outer :: (middle ++ inner :: last))
    rw [sorted] at order
    refine ⟨order, order.imp_of_mem ?_, fun e known => (all e known).fits⟩
    exact fun known known' leads => (all _ known).covers (all _ known') leads
  obtain ⟨out, left⟩ := splice?_isSome (boundary_zero doc.toList) ordered.fits
  refine ⟨String.ofList out, by rw [edited?, sorted, left, Option.map_some], ?_⟩
  have same : edited? doc (first ++ outer :: (middle ++ last)) = some (String.ofList out) ↔
      splice? doc.toList 0 (before ++ inner :: after) = splice? doc.toList 0 (before ++ after) := by
    rw [edited?, fewer, left, Option.map_eq_some_iff]
    constructor
    · rintro ⟨out', left', same⟩
      rw [left', String.ofList_inj.1 same]
    · exact fun left' => ⟨out, left'.symm, rfl⟩
  rw [same]
  rcases Edit.IsOf.inside_replaced (placed a mem).1 (placed b mem').1 holds replaces isOf with
    ⟨leads, inside⟩ | ⟨touches, inserts⟩
  · exact iff_of_true (ordered.dropped (earlier outer (by simp) leads) inside) (.inl inside)
  · rw [ordered.insertion_iff inserts, touches]
    simp only [others, Nat.lt_irrefl, or_and_right, exists_or, exists_eq_left, and_false, false_or]

def openBold : String := "<p><b>"

def openParagraph : Element := ⟨"p", [], 0, 2, 3, some 6, 6⟩

def openBoldElement : Element := ⟨"b", [], 3, 5, 6, some 6, 6⟩

theorem emptied_content_stays :
    openParagraph ∈ scan openBold ∧ openBoldElement ∈ scan openBold ∧
      openParagraph.Holds openBoldElement ∧
      edited? openBold [.remove openParagraph, ⟨⟨6, 6⟩, "Y"⟩] = some "Y" ∧
      edited? openBold [.remove openParagraph] ≠ some "Y" := by
  have found : scan openBold = [openParagraph, openBoldElement] := by decide +kernel
  have mem : openParagraph ∈ scan openBold := by simp [found]
  have mem' : openBoldElement ∈ scan openBold := by simp [found]
  have holds : openParagraph.Holds openBoldElement := by decide
  obtain ⟨text, left, same⟩ :=
    @nested_edit_dropped_iff _ _ _ _ _ [] [] [] mem mem' holds .remove
      (.setInner "Y" ⟨⟨6, 6⟩, "Y"⟩ rfl) nofun
  have kept : edited? openBold [.remove openParagraph, ⟨⟨6, 6⟩, "Y"⟩] = some "Y" := by
    rw [edited?, Edit.mergeSort_foldr]
    decide +kernel
  have text_ : text = "Y" := Option.some.inj (left.symm.trans kept)
  refine ⟨mem, mem', holds, kept, fun fewer => ?_⟩
  rcases same.1 (text_ ▸ fewer) with inside | empty | ⟨e, none_, -⟩
  · exact absurd inside (by decide)
  · exact absurd empty (by decide)
  · cases none_

end Playground.Html
