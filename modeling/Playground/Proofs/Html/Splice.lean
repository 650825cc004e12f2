import Playground.Html.Edit
import Playground.Proofs.Text.Offset

/-! Batches of edits that fit the text they are put into. -/

namespace Playground.Html

open Text

namespace Edit

theorem precedes_iff {a b : Edit} :
    a.precedes b = true ↔ a.span.start < b.span.start ∨
      a.span.start = b.span.start ∧
        (a.isInsertion = true ∧ b.isInsertion = false ∨
          a.isInsertion = b.isInsertion ∧ b.span.stop ≤ a.span.stop) := by
  unfold precedes
  split
  · simp
    omega
  · split
    · next kinds =>
      cases left : a.isInsertion <;> cases right : b.isInsertion
      all_goals simp_all
    · simp_all

theorem precedes_trans (a b c : Edit) (first : a.precedes b = true) (second : b.precedes c = true) :
    a.precedes c = true := by
  rw [precedes_iff] at first second ⊢
  rcases first with first | ⟨start, first⟩
  · left
    omega
  · rcases second with second | ⟨start', second⟩
    · left
      omega
    · right
      refine ⟨by omega, ?_⟩
      rcases first with ⟨ins, not⟩ | ⟨same, stop⟩
      · rcases second with ⟨ins', -⟩ | ⟨same', -⟩
        · rw [ins'] at not
          cases not
        · exact .inl ⟨ins, by rw [← same', not]⟩
      · rcases second with ⟨ins', not'⟩ | ⟨same', stop'⟩
        · exact .inl ⟨by rw [same, ins'], not'⟩
        · exact .inr ⟨same.trans same', by omega⟩

theorem precedes_total (a b : Edit) : (a.precedes b || b.precedes a) = true := by
  rw [Bool.or_eq_true, precedes_iff, precedes_iff]
  by_cases start : a.span.start = b.span.start
  · cases left : a.isInsertion <;> cases right : b.isInsertion
    all_goals simp [start]
    all_goals omega
  · omega

/-- An edit whose ends stand between characters of the text, in order. -/
structure Fits (cs : List Char) (e : Edit) : Prop where
  start : Boundary cs e.span.start
  stop : Boundary cs e.span.stop
  order : e.span.start ≤ e.span.stop

end Edit

theorem splice?_isSome {cs : List Char} {edits : List Edit} {cursor : Nat}
    (at_ : Boundary cs cursor) (fits : ∀ e ∈ edits, e.Fits cs) :
    ∃ out, splice? cs cursor edits = some out := by
  induction edits generalizing cursor with
  | nil =>
    obtain ⟨a, b, rfl, rfl⟩ := at_
    exact ⟨b, sliceFrom?_size a b⟩
  | cons e edits ih =>
    have here := fits e List.mem_cons_self
    have others : ∀ d ∈ edits, d.Fits cs := fun d mem => fits d (List.mem_cons_of_mem e mem)
    rw [splice?]
    split
    · exact ih at_ others
    · next order =>
      obtain ⟨-, kept, -, -, -, -, slice⟩ := slice?_boundary at_ here.start (by omega)
      obtain ⟨rest, after⟩ := ih here.stop others
      exact ⟨kept ++ e.text.toList ++ rest, by rw [slice, after]; rfl⟩

theorem splice?_advance {whole pre kept rest out : List Char} {edits : List Edit}
    (cut : whole = pre ++ (kept ++ rest))
    (later : ∀ e ∈ edits, size pre + size kept ≤ e.span.start)
    (left : splice? whole (size pre + size kept) edits = some out) :
    splice? whole (size pre) edits = some (kept ++ out) := by
  subst cut
  cases edits with
  | nil =>
    have from_ := sliceFrom?_size (pre ++ kept) rest
    rw [List.append_assoc, size_append] at from_
    rw [splice?, from_] at left
    cases left
    exact sliceFrom?_size pre (kept ++ rest)
  | cons e edits =>
    have start := later e List.mem_cons_self
    rw [splice?, if_neg (by omega)] at left ⊢
    obtain ⟨m, cut, left⟩ := Option.bind_eq_some_iff.1 left
    obtain ⟨out', after, same⟩ := Option.bind_eq_some_iff.1 left
    cases same
    obtain ⟨a, c, whole, sized, stop⟩ := slice?_iff.1 cut
    rw [← List.append_assoc] at whole
    obtain ⟨rfl, rfl⟩ := append_cut whole (by rw [size_append, sized])
    have copied := slice?_append pre (kept ++ m) c
    have stop' : e.span.start = size pre + size (kept ++ m) := by
      rw [stop, size_append, size_append]
      omega
    rw [List.append_assoc, ← stop'] at copied
    rw [copied, after]
    simp

theorem splice?_edit {whole pre cut rest out : List Char} {e : Edit} {edits : List Edit}
    (split : whole = pre ++ (cut ++ rest)) (start : e.span.start = size pre)
    (stop : e.span.stop = size pre + size cut)
    (left : splice? whole (size pre + size cut) edits = some out) :
    splice? whole (size pre) (e :: edits) = some (e.text.toList ++ out) := by
  subst split
  have nothing : slice? (pre ++ (cut ++ rest)) (size pre) (size pre) = some [] :=
    slice?_append pre [] (cut ++ rest)
  rw [splice?, if_neg (by omega), start, nothing, stop, left]
  rfl

/-- An edit replaces one piece of a text that begins at `pos`. -/
def Edit.Turns (pos : Nat) (before after : List Char) (e : Edit) : Prop :=
  ∃ a m b, before = a ++ (m ++ b) ∧ e.span = ⟨pos + size a, pos + size a + size m⟩ ∧
    after = a ++ (e.text.toList ++ b)

theorem Edit.Turns.around {pos : Nat} {before after : List Char} {e : Edit} (lead tail : List Char)
    (turns : e.Turns (pos + size lead) before after) :
    e.Turns pos (lead ++ (before ++ tail)) (lead ++ (after ++ tail)) := by
  obtain ⟨a, m, b, rfl, span, rfl⟩ := turns
  refine ⟨lead ++ a, m, b ++ tail, by simp, ?_, by simp⟩
  rw [span, size_append]
  simp only [Nat.add_assoc]

theorem Edit.Turns.bounds {pos : Nat} {before after : List Char} {e : Edit}
    (turns : e.Turns pos before after) :
    pos ≤ e.span.start ∧ e.span.start ≤ pos + size before := by
  obtain ⟨a, m, b, rfl, span, -⟩ := turns
  rw [span, size_append, size_append]
  dsimp only
  omega

theorem splice?_turns {whole pre before after rest out : List Char} {e : Edit}
    {edits : List Edit} (turns : e.Turns (size pre) before after)
    (cut : whole = pre ++ (before ++ rest))
    (later : ∀ d ∈ edits, size pre + size before ≤ d.span.start)
    (left : splice? whole (size pre + size before) edits = some out) :
    splice? whole (size pre) (e :: edits) = some (after ++ out) := by
  obtain ⟨a, m, b, rfl, span, rfl⟩ := turns
  have copied : splice? whole (size (pre ++ a ++ m)) edits = some (b ++ out) := by
    refine splice?_advance (show _ = _ ++ (_ ++ rest) by simp [cut]) ?_ ?_
    · intro d mem
      have start := later d mem
      simp only [size_append] at start ⊢
      omega
    · simp only [size_append, Nat.add_assoc] at left ⊢
      exact left
  have edited : splice? whole (size (pre ++ a)) (e :: edits) = some (e.text.toList ++ (b ++ out)) := by
    refine splice?_edit (show _ = _ ++ (m ++ (b ++ rest)) by simp [cut]) ?_ ?_ ?_
    · rw [span, size_append]
    · rw [span, size_append]
    · rw [← size_append]
      exact copied
  rw [size_append] at edited
  have whole' : whole = pre ++ (a ++ (m ++ b ++ rest)) := by simp [cut]
  rw [splice?_advance whole' ?_ edited]
  · simp
  · intro d mem
    rcases List.mem_cons.1 mem with rfl | mem
    · exact Nat.le_of_eq (congrArg (·.start) span).symm
    · have start := later d mem
      simp only [size_append] at start
      omega

theorem edited?_single {doc : String} {span : Span} {text : String} {before inside after : List Char}
    (whole : doc.toList = before ++ (inside ++ after)) (start : span.start = size before)
    (stop : span.stop = size before + size inside) :
    edited? doc [⟨span, text⟩] = some (String.ofList (before ++ (text.toList ++ after))) := by
  have rest : splice? doc.toList (size before + size inside) [] = some after := by
    rw [splice?, whole, ← List.append_assoc, ← size_append]
    exact sliceFrom?_size (before ++ inside) after
  have edit : splice? doc.toList (size before) [⟨span, text⟩] = some (text.toList ++ after) :=
    splice?_edit whole start stop rest
  have all : splice? doc.toList (size []) [⟨span, text⟩] =
      some (before ++ (text.toList ++ after)) := by
    refine splice?_advance (show _ = [] ++ _ from whole) ?_ ?_
    · intro e mem
      cases List.mem_singleton.1 mem
      refine Nat.le_of_eq ?_
      rw [size_nil, Nat.zero_add, start]
    · rwa [size_nil, Nat.zero_add]
  rw [edited?, List.mergeSort_singleton, ← size_nil, all]
  rfl

theorem edited?_turns {doc : String} {pre before after rest : List Char} {e : Edit}
    (turns : e.Turns (size pre) before after) (whole : doc.toList = pre ++ (before ++ rest)) :
    edited? doc [e] = some (String.ofList (pre ++ (after ++ rest))) := by
  obtain ⟨a, m, b, rfl, span, rfl⟩ := turns
  have single := @edited?_single doc e.span e.text (pre ++ a) m (b ++ rest)
    (by rw [whole]; simp only [List.append_assoc])
    (by rw [span, size_append]) (by rw [span, size_append])
  rw [single]
  simp only [List.append_assoc]

theorem splice?_insert_end {cs : List Char} {edits : List Edit} {cursor : Nat} (text : String)
    (at_ : Boundary cs cursor) (fits : ∀ e ∈ edits, e.Fits cs) :
    splice? cs cursor (edits ++ [Edit.insert (size cs) text]) =
      (splice? cs cursor edits).map (· ++ text.toList) := by
  induction edits generalizing cursor with
  | nil =>
    obtain ⟨a, b, rfl, rfl⟩ := at_
    have kept : slice? (a ++ b) (size a) (size (a ++ b)) = some b := by
      have slice := slice?_append a b []
      rwa [List.append_nil, ← size_append] at slice
    have rest : sliceFrom? (a ++ b) (size (a ++ b)) = some [] := by
      have from_ := sliceFrom?_size (a ++ b) []
      rwa [List.append_nil] at from_
    have order : ¬ size (a ++ b) < size a := by
      rw [size_append]
      omega
    generalize size (a ++ b) = n at kept rest order
    simp [splice?, Edit.insert, order, kept, rest, sliceFrom?_size]
  | cons e edits ih =>
    have here := fits e List.mem_cons_self
    have others : ∀ d ∈ edits, d.Fits cs := fun d mem => fits d (List.mem_cons_of_mem e mem)
    rw [List.cons_append, splice?, splice?]
    split
    · exact ih at_ others
    · rw [ih here.stop others]
      cases slice? cs cursor e.span.start with
      | none => rfl
      | some kept =>
        cases splice? cs e.span.stop edits with
        | none => rfl
        | some rest => simp [bind, Option.bind, pure]

theorem mergeSort_insert_end {edits : List Edit} {pos : Nat} (text : String)
    (before : ∀ e ∈ edits, e.span.start < pos) :
    (Edit.insert pos text :: edits).mergeSort Edit.precedes =
      edits.mergeSort Edit.precedes ++ [Edit.insert pos text] := by
  obtain ⟨l, r, sorted, others, -⟩ :=
    List.mergeSort_cons Edit.precedes_trans Edit.precedes_total (Edit.insert pos text) edits
  have order := List.pairwise_mergeSort Edit.precedes_trans Edit.precedes_total
    (Edit.insert pos text :: edits)
  rw [sorted, List.pairwise_append, List.pairwise_cons] at order
  cases r with
  | nil => rw [sorted, others, List.append_nil]
  | cons e r =>
    have after := Edit.precedes_iff.1 (order.2.1.1 e List.mem_cons_self)
    have mem : e ∈ edits.mergeSort Edit.precedes := by
      rw [others]
      simp
    have early := before e (List.mem_mergeSort.1 mem)
    simp only [Edit.insert] at after
    omega

theorem withEdits_insert_end {doc : String} {edits : List Edit} (text : String)
    (fits : ∀ e ∈ edits, e.Fits doc.toList)
    (before : ∀ e ∈ edits, e.span.start < doc.utf8ByteSize) :
    withEdits doc (Edit.insert doc.utf8ByteSize text :: edits) = withEdits doc edits ++ text := by
  have sorted : ∀ e ∈ edits.mergeSort Edit.precedes, e.Fits doc.toList :=
    fun e mem => fits e (List.mem_mergeSort.1 mem)
  obtain ⟨out, left⟩ := splice?_isSome (boundary_zero doc.toList) sorted
  have whole := splice?_insert_end text (boundary_zero doc.toList) sorted
  rw [size_toList, left, ← mergeSort_insert_end text before] at whole
  rw [withEdits, withEdits, edited?, edited?, whole, left]
  simp

theorem not_both_orders {α : Type} {a b : α} {l : List α} (nodup : l.Nodup)
    (first : [a, b].Sublist l) (second : [b, a].Sublist l) : False := by
  induction l with
  | nil => cases first
  | cons x l ih =>
    rw [List.nodup_cons] at nodup
    obtain ⟨fresh, nodup⟩ := nodup
    cases first with
    | cons _ first =>
      cases second with
      | cons _ second => exact ih nodup first second
      | cons_cons _ second => exact fresh (first.subset (by simp))
    | cons_cons _ first =>
      cases second with
      | cons _ second => exact fresh (second.subset (by simp))
      | cons_cons _ second => exact fresh (first.subset (by simp))

theorem splice?_skip {whole : List Char} {cursor : Nat} {edits : List Edit}
    (early : ∀ e ∈ edits, e.span.start < cursor) (more : List Edit) :
    splice? whole cursor (edits ++ more) = splice? whole cursor more := by
  induction edits with
  | nil => rfl
  | cons e edits ih =>
    rw [List.cons_append, splice?, if_pos (early e List.mem_cons_self)]
    exact ih fun d mem => early d (List.mem_cons_of_mem e mem)

namespace Edit

/-- How edits of two lists stand to each other when they are put in order together: one goes before
the other, and where either could, it is of the first list and the other of the second. -/
def Leads (x y : Edit × Bool) : Prop :=
  x.1.precedes y.1 = true ∧ (y.1.precedes x.1 = true → x.2 = false ∧ y.2 = true)

theorem Leads.irrefl (x : Edit × Bool) : ¬ Leads x x := by
  rintro ⟨before, tie⟩
  obtain ⟨early, late⟩ := tie before
  rw [early] at late
  cases late

theorem Leads.asymm {x y : Edit × Bool} (first : Leads x y) (second : Leads y x) : False := by
  obtain ⟨early, -⟩ := first.2 second.1
  obtain ⟨-, late⟩ := second.2 first.1
  rw [early] at late
  cases late

theorem mergeSort_of_leads {first second : List Edit} {sorted : List (Edit × Bool)}
    (perm : sorted.Perm (first.map (·, false) ++ second.map (·, true)))
    (leads : sorted.Pairwise Leads) :
    (first ++ second).mergeSort precedes = sorted.map Prod.fst := by
  let tagged := first.map (·, false) ++ second.map (·, true)
  let le : Edit × Bool → Edit × Bool → Bool := fun x y => x.1.precedes y.1
  have trans : ∀ x y z, le x y = true → le y z = true → le x z = true :=
    fun x y z => precedes_trans x.1 y.1 z.1
  have total : ∀ x y, (le x y || le y x) = true := fun x y => precedes_total x.1 y.1
  have ordered : (tagged.mergeSort le).Perm sorted := (List.mergeSort_perm tagged le).trans perm.symm
  have nodup : (tagged.mergeSort le).Nodup := by
    rw [ordered.nodup_iff]
    refine leads.imp ?_
    rintro x _ lead rfl
    exact Leads.irrefl x lead
  have known : (tagged.mergeSort le).Pairwise fun x y => Leads x y ∨ Leads y x :=
    ordered.symm.pairwise (leads.imp .inl) Or.symm
  have sorted' : (tagged.mergeSort le).Pairwise Leads := by
    have both := known.and (List.pairwise_mergeSort trans total tagged)
    rw [List.pairwise_iff_forall_sublist] at both ⊢
    intro x y here
    obtain ⟨lead | lead, before⟩ := both here
    · exact lead
    · obtain ⟨early, late⟩ := lead.2 before
      have mem : ∀ z ∈ [x, y], z ∈ tagged := fun z inside =>
        (List.mergeSort_perm tagged le).subset (here.subset inside)
      have later : x ∈ second.map (·, true) := by
        rcases List.mem_append.1 (mem x (by simp)) with left | right
        · obtain ⟨e, -, rfl⟩ := List.mem_map.1 left
          cases late
        · exact right
      have earlier : y ∈ first.map (·, false) := by
        rcases List.mem_append.1 (mem y (by simp)) with left | right
        · exact left
        · obtain ⟨e, -, rfl⟩ := List.mem_map.1 right
          cases early
      have given : [y, x].Sublist tagged :=
        (List.singleton_sublist.2 earlier).append (List.singleton_sublist.2 later)
      exact (not_both_orders nodup here (List.pair_sublist_mergeSort trans total lead.1 given)).elim
  have same : tagged.mergeSort le = sorted :=
    ordered.eq_of_pairwise (fun x y _ _ lead lead' => (lead.asymm lead').elim) sorted' leads
  have fsts : tagged.map Prod.fst = first ++ second := by simp [tagged, List.map_map, Function.comp_def]
  rw [← same, ← fsts]
  exact (List.map_mergeSort (f := Prod.fst) (r := le) fun x _ y _ => rfl).symm

end Edit

def Edit.place (e : Edit) : List Edit → List Edit
  | [] => [e]
  | d :: edits => if e.precedes d then e :: d :: edits else d :: e.place edits

theorem Edit.place_between {e : Edit} {before after : List Edit}
    (later : ∀ d ∈ before, e.precedes d = false) (first : ∀ d ∈ after, e.precedes d = true) :
    e.place (before ++ after) = before ++ e :: after := by
  induction before with
  | nil =>
    cases after with
    | nil => rfl
    | cons d after => rw [List.nil_append, place, if_pos (first d List.mem_cons_self)]; rfl
  | cons d before ih =>
    rw [List.forall_mem_cons] at later
    rw [List.cons_append, place, later.1, if_neg Bool.false_ne_true, ih later.2]
    rfl

theorem Edit.mergeSort_foldr (edits : List Edit) :
    edits.mergeSort precedes = edits.foldr Edit.place [] := by
  induction edits with
  | nil => exact List.mergeSort_nil
  | cons e edits ih =>
    obtain ⟨before, after, sorted, others, later⟩ :=
      List.mergeSort_cons precedes_trans precedes_total e edits
    have order := List.pairwise_mergeSort precedes_trans precedes_total (e :: edits)
    rw [sorted, List.pairwise_append, List.pairwise_cons] at order
    rw [List.foldr_cons, ← ih, others, sorted, place_between _ order.2.1.1]
    intro d mem
    simpa using later d mem

theorem withEdits_foldr : withEdits = fun doc edits =>
    ((splice? doc.toList 0 (edits.foldr Edit.place [])).map String.ofList).getD doc := by
  funext doc edits
  rw [withEdits, edited?, Edit.mergeSort_foldr]

/-- A text that begins at `pos` with the pieces of some edits replaced, one after the other, and all
else copied. -/
inductive Replaced : Nat → List Edit → List Char → List Char → Prop
  | done (pos : Nat) (cs : List Char) : Replaced pos [] cs cs
  | next {pos : Nat} {e : Edit} {edits : List Edit} (before piece : List Char) {rest out : List Char}
      (span : e.span = ⟨pos + size before, pos + size before + size piece⟩)
      (later : Replaced (pos + size before + size piece) edits rest out) :
      Replaced pos (e :: edits) (before ++ (piece ++ rest)) (before ++ (e.text.toList ++ out))

namespace Replaced

variable {pos : Nat} {e : Edit} {edits : List Edit} {rest out : List Char}

theorem skip (lead : List Char) (later : Replaced (pos + size lead) edits rest out) :
    Replaced pos edits (lead ++ rest) (lead ++ out) := by
  cases later with
  | done => exact .done _ _
  | next before piece span later =>
    rw [← List.append_assoc, ← List.append_assoc lead]
    refine .next (lead ++ before) piece ?_ ?_
    · rw [span, size_append, Nat.add_assoc]
    · rwa [size_append, ← Nat.add_assoc]

theorem append {cs : List Char} {edits' : List Edit} (first : Replaced pos edits cs out)
    {rest' out' : List Char} (later : Replaced (pos + size cs) edits' rest' out') :
    Replaced pos (edits ++ edits') (cs ++ rest') (out ++ out') := by
  induction first with
  | done => exact later.skip _
  | next before piece span _ ih =>
    simp only [size_append, ← Nat.add_assoc] at later
    simp only [List.append_assoc]
    exact .next before piece span (ih later)

theorem turns {before after : List Char} (turns : e.Turns pos before after)
    (later : Replaced (pos + size before) edits rest out) :
    Replaced pos (e :: edits) (before ++ rest) (after ++ out) := by
  obtain ⟨a, m, b, rfl, span, rfl⟩ := turns
  rw [size_append, size_append, ← Nat.add_assoc, ← Nat.add_assoc] at later
  simp only [List.append_assoc]
  exact .next a m span (later.skip b)

theorem starts {cs : List Char} (replaced : Replaced pos edits cs out) :
    ∀ e ∈ edits, pos ≤ e.span.start := by
  induction replaced with
  | done => exact List.forall_mem_nil _
  | next before piece span later ih =>
    rw [List.forall_mem_cons, span]
    refine ⟨Nat.le_add_right _ _, fun e mem => ?_⟩
    have start := ih e mem
    omega

theorem apart {cs : List Char} (replaced : Replaced pos edits cs out) :
    edits.Pairwise fun e f => e.span.stop ≤ f.span.start := by
  induction replaced with
  | done => exact .nil
  | next before piece span later ih =>
    refine List.pairwise_cons.2 ⟨fun f mem => ?_, ih⟩
    rw [span]
    exact later.starts f mem

end Replaced

end Playground.Html
