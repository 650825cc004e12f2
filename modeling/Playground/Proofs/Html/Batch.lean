import Mathlib.Data.List.Nodup
import Playground.Proofs.Html.Splice

/-! What a batch of edits does to a text. -/

namespace Playground

/-- Whether two spans have a byte in common, or one is empty and stands inside the other. -/
def Span.Overlaps (a b : Span) : Prop := a.start < b.stop ∧ b.start < a.stop

instance (a b : Span) : Decidable (a.Overlaps b) := inferInstanceAs (Decidable (_ ∧ _))

theorem Span.ext_iff {a b : Span} : a = b ↔ a.start = b.start ∧ a.stop = b.stop := by
  cases a
  cases b
  simp only [Span.mk.injEq]

namespace Html

open Text

def keptFrom : Nat → List Edit → List Edit
  | _, [] => []
  | cursor, e :: edits =>
    if e.span.start < cursor then keptFrom cursor edits else e :: keptFrom e.span.stop edits

def droppedFrom : Nat → List Edit → List Edit
  | _, [] => []
  | cursor, e :: edits =>
    if e.span.start < cursor then e :: droppedFrom cursor edits else droppedFrom e.span.stop edits

variable {edits : List Edit}

theorem kept_dropped_perm (cursor : Nat) (edits : List Edit) :
    (keptFrom cursor edits ++ droppedFrom cursor edits).Perm edits := by
  induction edits generalizing cursor with
  | nil => exact .nil
  | cons e edits ih =>
    rw [keptFrom, droppedFrom]
    split
    · exact List.perm_middle.trans ((ih cursor).cons e)
    · exact (ih e.span.stop).cons e

theorem splice?_replaced {whole pre rest : List Char} (cut : whole = pre ++ rest)
    (fits : ∀ e ∈ edits, e.Fits whole) :
    ∃ out, splice? whole (size pre) edits = some out ∧
      Replaced (size pre) (keptFrom (size pre) edits) rest out := by
  induction edits generalizing pre rest with
  | nil =>
    refine ⟨rest, ?_, .done _ _⟩
    rw [splice?, cut]
    exact sliceFrom?_size pre rest
  | cons e edits ih =>
    rw [List.forall_mem_cons] at fits
    obtain ⟨here, others⟩ := fits
    rw [splice?, keptFrom]
    split
    · exact ih cut others
    · next late =>
      obtain ⟨before, tail, rfl, start⟩ := splitBytes?_boundary cut here.start (Nat.not_lt.1 late)
      have cut' : whole = (pre ++ before) ++ tail := by simp [cut]
      obtain ⟨piece, after, rfl, stop⟩ := splitBytes?_boundary cut' here.stop (by
        rw [size_append, ← start]
        exact here.order)
      have stop' : e.span.stop = size (pre ++ before ++ piece) := by rw [stop, size_append _ piece]
      have cut'' : whole = (pre ++ before ++ piece) ++ after := by simp [cut]
      obtain ⟨out, left, replaced⟩ := ih cut'' others
      have copied : slice? whole (size pre) e.span.start = some before := by
        rw [cut, start]
        exact slice?_append pre before (piece ++ after)
      rw [← stop'] at left replaced
      rw [size_append] at stop
      refine ⟨before ++ (e.text.toList ++ out), ?_, .next before piece ?_ ?_⟩
      · simp [copied, left]
      · exact Span.ext_iff.2 ⟨start, stop⟩
      · rwa [← stop]

theorem Edit.overlaps_of_precedes {e f : Edit} (order : f.span.start ≤ f.span.stop)
    (first : e.precedes f = true) (inside : f.span.start < e.span.stop) :
    e.span.start ≤ f.span.start ∧ f.span.Overlaps e.span := by
  rcases precedes_iff.1 first with early | ⟨same, kinds⟩
  · exact ⟨Nat.le_of_lt early, inside, Nat.lt_of_lt_of_le early order⟩
  · have replaces : e.isInsertion = false := decide_eq_false (by omega)
    simp only [replaces, Bool.false_eq_true, false_and, false_or] at kinds
    have some_ : ¬ f.span.stop ≤ f.span.start := of_decide_eq_false kinds.1.symm
    exact ⟨Nat.le_of_eq same, inside, by omega⟩

theorem dropped_covered {cursor : Nat} (sorted : edits.Pairwise fun e f => e.precedes f = true) :
    ∀ d ∈ droppedFrom cursor edits, d.span.start < cursor ∨
      ∃ k ∈ keptFrom cursor edits, k.precedes d = true ∧ d.span.start < k.span.stop := by
  induction edits generalizing cursor with
  | nil => nofun
  | cons e edits ih =>
    rw [List.pairwise_cons] at sorted
    rw [keptFrom, droppedFrom]
    split
    · next early =>
      rw [List.forall_mem_cons]
      exact ⟨.inl early, ih sorted.2⟩
    · intro d mem
      right
      rcases ih sorted.2 d mem with inside | ⟨k, known, first, inside⟩
      · have among : d ∈ edits := (kept_dropped_perm _ edits).subset (List.mem_append_right _ mem)
        exact ⟨e, List.mem_cons_self, sorted.1 d among, inside⟩
      · exact ⟨k, List.mem_cons_of_mem e known, first, inside⟩

theorem filter_keptFrom {cursor : Nat} {p : Edit → Bool}
    (kept : ∀ d ∈ droppedFrom cursor edits, p d = false) :
    (keptFrom cursor edits).filter p = edits.filter p := by
  induction edits generalizing cursor with
  | nil => rfl
  | cons e edits ih =>
    rw [keptFrom]
    rw [droppedFrom] at kept
    split at kept
    · next early =>
      rw [List.forall_mem_cons] at kept
      rw [if_pos early, ih kept.2, List.filter_cons_of_neg (by simp [kept.1])]
    · next late => rw [if_neg late, List.filter_cons, List.filter_cons, ih kept]

namespace Edit

theorem filter_mergeSort {p : Edit → Bool} (edits : List Edit)
    (tied : ∀ e f, p e = true → p f = true → e.precedes f = true) :
    (edits.mergeSort precedes).filter p = edits.filter p := by
  have ordered : (edits.filter p).Pairwise fun e f => e.precedes f = true := by
    apply List.pairwise_of_forall_mem_list
    intro e mem f mem'
    exact tied e f (List.mem_filter.1 mem).2 (List.mem_filter.1 mem').2
  have within : (edits.filter p).Sublist (edits.mergeSort precedes) :=
    List.sublist_mergeSort precedes_trans precedes_total ordered List.filter_sublist
  have same : (edits.filter p).Sublist ((edits.mergeSort precedes).filter p) := by
    simpa using within.filter p
  exact (same.eq_of_length ((List.mergeSort_perm edits precedes).filter p).length_eq.symm).symm

theorem span_of_precedes {e f : Edit} (first : e.precedes f = true) (second : f.precedes e = true) :
    e.span = f.span := by
  have starts := precedes_iff.1 first
  have starts' := precedes_iff.1 second
  cases left : e.isInsertion <;> cases right : f.isInsertion
  all_goals
    simp only [left, right] at starts starts'
    rw [Span.ext_iff]
    grind

theorem mergeSort_of_perm {edits edits' : List Edit} (perm : edits'.Perm edits)
    (distinct : (edits.map Edit.span).Nodup) :
    edits'.mergeSort precedes = edits.mergeSort precedes := by
  have sorted : ∀ l : List Edit, (l.mergeSort precedes).Pairwise fun e f => e.precedes f = true :=
    List.pairwise_mergeSort precedes_trans precedes_total
  have perm' : (edits'.mergeSort precedes).Perm (edits.mergeSort precedes) :=
    (List.mergeSort_perm edits' precedes).trans (perm.trans (List.mergeSort_perm edits precedes).symm)
  apply perm'.eq_of_pairwise _ (sorted edits') (sorted edits)
  intro e f mem mem' first second
  apply List.inj_on_of_nodup_map distinct
  · exact perm.subset (List.mem_mergeSort.1 mem)
  · exact List.mem_mergeSort.1 mem'
  · exact span_of_precedes first second

end Edit

/-- What a batch leaves of a text: some of its edits are kept and put in, and the others are dropped. -/
structure PutIn (doc : String) (edits kept dropped : List Edit) (text : String) : Prop where
  shared : (kept ++ dropped).Perm edits
  /-- The kept edits stand in the order of the text. Each replaces its span, and all else is copied. -/
  replaced : Replaced 0 kept doc.toList text.toList
  apart : kept.Pairwise fun e f => ¬ e.span.Overlaps f.span
  covered : ∀ d ∈ dropped, ∃ k ∈ kept, k.span.start ≤ d.span.start ∧ d.span.start < k.span.stop
  /-- An edit that overlaps no other one of the batch is kept. -/
  free : ∀ e others, edits.Perm (e :: others) → (∀ f ∈ others, ¬ e.span.Overlaps f.span) →
    e ∈ kept ∧ e ∉ dropped
  /-- Insertions at one place are all kept, in the order given, unless a kept edit replaces what is
  on both sides of it. -/
  inserted : ∀ pos,
    kept.filter (fun e => e.span = ⟨pos, pos⟩) = edits.filter (fun e => e.span = ⟨pos, pos⟩) ∨
      ∃ k ∈ kept, k.span.start < pos ∧ pos < k.span.stop

theorem putIn_splice {doc : String} (fits : ∀ e ∈ edits, e.Fits doc.toList) :
    ∃ text, edited? doc edits = some text ∧
      PutIn doc edits (keptFrom 0 (edits.mergeSort Edit.precedes))
        (droppedFrom 0 (edits.mergeSort Edit.precedes)) text := by
  let sorted := edits.mergeSort Edit.precedes
  have order := List.pairwise_mergeSort Edit.precedes_trans Edit.precedes_total edits
  have shared : (keptFrom 0 sorted ++ droppedFrom 0 sorted).Perm edits :=
    (kept_dropped_perm 0 sorted).trans (List.mergeSort_perm edits Edit.precedes)
  have fits' : ∀ e ∈ sorted, e.Fits doc.toList := fun e mem => fits e (List.mem_mergeSort.1 mem)
  have cut : doc.toList = [] ++ doc.toList := rfl
  obtain ⟨out, left, replaced⟩ := splice?_replaced cut fits'
  rw [size_nil] at left replaced
  have covered : ∀ d ∈ droppedFrom 0 sorted, ∃ k ∈ keptFrom 0 sorted,
      k.span.start ≤ d.span.start ∧ d.span.Overlaps k.span := by
    intro d mem
    have known : d ∈ edits := shared.subset (List.mem_append_right _ mem)
    rcases dropped_covered order d mem with none_ | ⟨k, kept, first, inside⟩
    · exact absurd none_ (Nat.not_lt_zero _)
    · exact ⟨k, kept, Edit.overlaps_of_precedes (fits d known).order first inside⟩
  refine ⟨String.ofList out, ?_, shared, ?_, ?_, ?_, ?_, ?_⟩
  · rw [edited?, left, Option.map_some]
  · rw [String.toList_ofList]
    exact replaced
  · apply replaced.apart.imp
    intro e f apart overlaps
    exact absurd overlaps.2 (Nat.not_lt.2 apart)
  · intro d mem
    obtain ⟨k, kept, starts, overlaps⟩ := covered d mem
    exact ⟨k, kept, starts, overlaps.1⟩
  · intro e others given alone
    have known : e ∈ keptFrom 0 sorted ++ droppedFrom 0 sorted :=
      shared.symm.subset (given.symm.subset List.mem_cons_self)
    have stays : e ∉ droppedFrom 0 sorted := by
      intro mem
      obtain ⟨k, kept, -, overlaps⟩ := covered e mem
      have given' : (keptFrom 0 sorted ++ e :: (droppedFrom 0 sorted).erase e).Perm (e :: others) :=
        ((List.perm_cons_erase mem).symm.append_left _).trans (shared.trans given)
      have rest : (keptFrom 0 sorted ++ (droppedFrom 0 sorted).erase e).Perm others :=
        (List.perm_middle.symm.trans given').cons_inv
      exact alone k (rest.subset (List.mem_append_left _ kept)) overlaps
    exact ⟨(List.mem_append.1 known).resolve_right stays, stays⟩
  · intro pos
    by_cases inside : ∃ k ∈ keptFrom 0 sorted, k.span.start < pos ∧ pos < k.span.stop
    · exact .inr inside
    · left
      have tied : ∀ e f : Edit, decide (e.span = ⟨pos, pos⟩) = true →
          decide (f.span = ⟨pos, pos⟩) = true → e.precedes f = true := by
        intro e f here here'
        simp only [decide_eq_true_eq] at here here'
        simp [Edit.precedes_iff, Edit.isInsertion, here, here']
      calc (keptFrom 0 sorted).filter (fun e => e.span = ⟨pos, pos⟩)
          = sorted.filter (fun e => e.span = ⟨pos, pos⟩) := by
            apply filter_keptFrom
            intro d mem
            rw [decide_eq_false_iff_not]
            intro here
            obtain ⟨k, kept, -, overlaps⟩ := covered d mem
            rw [here] at overlaps
            exact inside ⟨k, kept, overlaps.2, overlaps.1⟩
        _ = edits.filter (fun e => e.span = ⟨pos, pos⟩) := Edit.filter_mergeSort edits tied

/-- Putting a batch of fitting edits into a text is an exact splice: some of the edits, which do not
overlap, replace their spans and everything else is copied. What is dropped starts in an edit that is
kept, what overlaps nothing is kept, and insertions at one place stay in the order given. Edits of
different spans leave the same text in whatever order they are given. -/
theorem edited_exact {doc : String} (fits : ∀ e ∈ edits, e.Fits doc.toList) :
    ∃ kept dropped text, edited? doc edits = some text ∧ PutIn doc edits kept dropped text ∧
      ((edits.map Edit.span).Nodup →
        ∀ edits', edits'.Perm edits → edited? doc edits' = some text) := by
  obtain ⟨text, left, putIn⟩ := putIn_splice fits
  refine ⟨_, _, text, left, putIn, ?_⟩
  intro distinct edits' perm
  rw [edited?, Edit.mergeSort_of_perm perm distinct]
  exact left

def crowded : List Edit :=
  [⟨⟨1, 3⟩, "x"⟩, .insert 1 "[", ⟨⟨1, 4⟩, "e"⟩, .insert 4 "]", .insert 1 "("]

theorem crowded_edited :
    (∀ e ∈ crowded, e.Fits "aé-bc".toList) ∧ edited? "aé-bc" crowded = some "a[(e]bc" ∧
      ∃ kept dropped, PutIn "aé-bc" crowded kept dropped "a[(e]bc" := by
  have fits : ∀ e ∈ crowded, e.Fits "aé-bc".toList := by
    intro e mem
    have bounds : e.span.start ∈ [1, 3, 4] ∧ e.span.stop ∈ [1, 3, 4] ∧ e.span.start ≤ e.span.stop := by
      revert e
      decide
    have at_ : ∀ pos ∈ [1, 3, 4], Boundary "aé-bc".toList pos := by
      simp only [List.forall_mem_cons]
      exact ⟨⟨['a'], _, rfl, rfl⟩, ⟨['a', 'é'], _, rfl, rfl⟩, ⟨['a', 'é', '-'], _, rfl, rfl⟩, nofun⟩
    exact ⟨at_ _ bounds.1, at_ _ bounds.2.1, bounds.2.2⟩
  have text : edited? "aé-bc" crowded = some "a[(e]bc" := by
    rw [edited?, Edit.mergeSort_foldr]
    decide +kernel
  obtain ⟨kept, dropped, out, left, putIn, -⟩ := edited_exact fits
  cases left.symm.trans text
  exact ⟨fits, text, kept, dropped, putIn⟩

end Html

end Playground
