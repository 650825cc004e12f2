import Playground.Proofs.Html.References
import Playground.Proofs.Html.Outline
import Playground.Proofs.Html.Seams
import Playground.Compile.Basic

/-! Failures told in comments. Dashes are broken up in pairs from the left, so an odd run of them
keeps its last two together. -/

namespace Playground.Text

def EndsOnlyWith (stop cs : List Char) : Prop :=
  stop <:+ cs ∧ ∀ before after, cs = before ++ (stop ++ after) → after = []

section Occurrences

variable {stop u v : List Char} {x : Char}

theorem found_around {before after : List Char} (other : x ∉ stop)
    (found : u ++ x :: v = before ++ (stop ++ after)) :
    stop <:+: u ∨ ∃ later, v = later ++ (stop ++ after) := by
  rcases List.append_eq_append_iff.1 found with ⟨c, rfl, rest⟩ | ⟨c, rfl, rest⟩
  · cases c with
    | nil =>
      cases stop with
      | nil => exact .inl (List.nil_infix)
      | cons s stop => exact absurd (List.cons.inj rest).1 (List.ne_of_not_mem_cons other)
    | cons c cs => exact .inr ⟨cs, (List.cons.inj rest).2⟩
  · rcases List.append_eq_append_iff.1 rest with ⟨d, rfl, -⟩ | ⟨d, rfl, more⟩
    · exact .inl ⟨before, d, List.append_assoc _ _ _⟩
    · cases d with
      | nil => exact .inl ⟨before, [], by rw [List.append_nil, List.append_nil]⟩
      | cons d ds =>
        obtain ⟨rfl, -⟩ := List.cons.inj more
        exact absurd (List.mem_append_right c List.mem_cons_self) other

theorem infix_around (other : x ∉ stop) : stop <:+: u ++ x :: v ↔ stop <:+: u ∨ stop <:+: v := by
  refine ⟨fun ⟨before, after, same⟩ => ?_, ?_⟩
  · rcases found_around other (same.symm.trans (List.append_assoc ..)) with found | ⟨later, rfl⟩
    · exact .inl found
    · exact .inr ⟨later, after, List.append_assoc ..⟩
  · rintro (⟨before, after, rfl⟩ | ⟨before, after, rfl⟩)
    · exact ⟨before, after ++ x :: v, by simp⟩
    · exact ⟨u ++ x :: before, after, by simp⟩

theorem endsOnlyWith_iff (other : x ∉ stop) : EndsOnlyWith stop (u ++ x :: stop) ↔ ¬ stop <:+: u := by
  refine ⟨fun ends => ?_, fun absent => ⟨⟨u ++ [x], by simp⟩, fun before after same => ?_⟩⟩
  · rintro ⟨before, after, rfl⟩
    have early := ends.2 before (after ++ x :: stop) (by simp)
    simp at early
  · rcases found_around other same with found | ⟨later, whole⟩
    · exact absurd found absent
    · have lengths := congrArg List.length whole
      rw [List.length_append, List.length_append] at lengths
      exact List.length_eq_zero_iff.1 (by omega)

theorem lead_unique (kind : Char → Prop) {u u' v v' : List Char} {x x' : Char}
    (same : u ++ x :: v = u' ++ x' :: v') (lead : ∀ c ∈ u, kind c) (lead' : ∀ c ∈ u', kind c)
    (other : ¬ kind x) (other' : ¬ kind x') : u = u' ∧ x = x' ∧ v = v' := by
  induction u generalizing u' with
  | nil =>
    cases u' with
    | nil => exact ⟨rfl, List.cons.inj same⟩
    | cons c u' =>
      obtain ⟨rfl, -⟩ := List.cons.inj same
      exact absurd (lead' x List.mem_cons_self) other
  | cons c u ih =>
    cases u' with
    | nil =>
      obtain ⟨rfl, -⟩ := List.cons.inj same
      exact absurd (lead c List.mem_cons_self) other'
    | cons c' u' =>
      obtain ⟨rfl, later⟩ := List.cons.inj same
      rw [List.forall_mem_cons] at lead lead'
      obtain ⟨rfl, rest⟩ := ih later lead.2 lead'.2
      exact ⟨rfl, rest⟩

theorem infix_first {lead : List Char} (fresh : x ∉ lead) (clean : x ∉ u) :
    lead ++ [x] <:+: u ++ x :: v ↔ lead <:+ u ∨ lead ++ [x] <:+: v := by
  refine ⟨fun ⟨before, after, same⟩ => ?_, ?_⟩
  · rw [List.append_assoc, List.append_assoc] at same
    rcases List.append_eq_append_iff.1 same.symm with ⟨c, rfl, rest⟩ | ⟨c, rfl, rest⟩
    · cases c with
      | nil =>
        cases lead with
        | nil => exact .inl List.nil_suffix
        | cons l lead => exact absurd (List.cons.inj rest).1 (List.ne_of_not_mem_cons fresh)
      | cons c cs => exact .inr ⟨cs, after, by simpa using (List.cons.inj rest).2.symm⟩
    · rw [List.mem_append, not_or] at clean
      have lead_ : lead = c := (lead_unique (· ≠ x) rest
        (fun _ mem => ne_of_mem_of_not_mem mem fresh)
        (fun _ mem => ne_of_mem_of_not_mem mem clean.2) (not_not_intro rfl) (not_not_intro rfl)).1
      exact .inl ⟨before, by rw [lead_]⟩
  · rintro (⟨before, rfl⟩ | ⟨before, after, rfl⟩)
    · exact ⟨before, v, by simp⟩
    · exact ⟨u ++ x :: before, after, by simp⟩

end Occurrences

theorem head?_replaceAll (first : Char) (others by_ cs : List Char) :
    (replaceAll first others (first :: by_) cs).head? = cs.head? := by
  cases cs with
  | nil => rw [replaceAll]
  | cons c cs =>
    rw [replaceAll]
    split
    · next found =>
      obtain ⟨rfl, -⟩ := List.cons.inj (eq_append_of_dropLead? found)
      rfl
    · rfl

theorem infix_breakStars (cs : List Char) :
    ¬ ['*', '/'] <:+: replaceAll '*' ['/'] ['*', ' ', '/'] cs := by
  fun_induction replaceAll '*' ['/'] ['*', ' ', '/'] cs with
  | case1 => decide
  | case2 c rest after found shorter ih =>
    change ¬ ['*', '/'] <:+: ['*'] ++ ' ' :: '/' :: replaceAll '*' ['/'] ['*', ' ', '/'] after
    rw [infix_around (by decide), not_or]
    refine ⟨by decide, fun found => ?_⟩
    rcases List.infix_cons_iff.1 found with slash | inside
    · exact absurd (List.cons_prefix_cons.1 slash).1 (by decide)
    · exact ih inside
  | case3 c rest missing ih =>
    rw [List.infix_cons_iff]
    rintro (found | found)
    · obtain ⟨rfl, more⟩ := List.cons_prefix_cons.1 found
      obtain ⟨later, same⟩ := more
      have head := head?_replaceAll '*' ['/'] [' ', '/'] rest
      rw [← same] at head
      cases rest with
      | nil => cases head
      | cons d rest =>
        cases head
        cases missing
    · exact ih found

def brokenRun : Nat → List Char
  | 0 => []
  | 1 => ['-']
  | n + 2 => '-' :: ' ' :: '-' :: brokenRun n

theorem breakDashes_run (n : Nat) {rest : List Char} (stops : rest.head? ≠ some '-') :
    replaceAll '-' ['-'] ['-', ' ', '-'] (List.replicate n '-' ++ rest) =
      brokenRun n ++ replaceAll '-' ['-'] ['-', ' ', '-'] rest := by
  fun_induction brokenRun n with
  | case1 => rfl
  | case2 =>
    refine replaceAll_passed ?_
    cases rest with
    | nil => rfl
    | cons c rest =>
      have other : '-' ≠ c := fun same => stops (congrArg some same.symm)
      exact if_neg other
  | case3 n ih => exact (@replaceAll_found '-' ['-'] _ _).trans (congrArg _ ih)

theorem brokenRun_clean (n : Nat) : '>' ∉ brokenRun n := by
  fun_induction brokenRun n with
  | case1 => decide
  | case2 => decide
  | case3 n ih => simpa using ih

theorem suffix_brokenRun (n : Nat) : ['-', '-'] <:+ brokenRun n ↔ ∃ k, n = 2 * k + 3 := by
  fun_induction brokenRun n with
  | case1 => exact iff_of_false (by decide) (fun ⟨k, same⟩ => by omega)
  | case2 => exact iff_of_false (by decide) (fun ⟨k, same⟩ => by omega)
  | case3 n ih =>
    have single : brokenRun n = ['-'] ↔ n = 1 := by
      fun_cases brokenRun n <;> simp
    have whole : ['-', '-'] <:+ '-' :: ' ' :: '-' :: brokenRun n ↔ n = 1 ∨ ∃ k, n = 2 * k + 3 := by
      have last : ['-', '-'] = '-' :: brokenRun n ↔ n = 1 := by
        rw [List.cons.injEq, eq_comm (a := ['-']), single, eq_self, true_and]
      rw [List.suffix_cons_iff, List.suffix_cons_iff, List.suffix_cons_iff, last, ih]
      simp
    rw [whole]
    constructor
    · rintro (rfl | ⟨k, rfl⟩)
      · exact ⟨0, rfl⟩
      · exact ⟨k + 1, by omega⟩
    · rintro ⟨k, same⟩
      cases k with
      | zero => exact .inl (by omega)
      | succ k => exact .inr ⟨k, by omega⟩

/-- An arrow whose dashes are an odd number, three or more. -/
def HasOddArrow (cs : List Char) : Prop :=
  ∃ before n after, cs = before ++ (List.replicate (2 * n + 3) '-' ++ '>' :: after) ∧
    before.getLast? ≠ some '-'

theorem hasOddArrow_run {n : Nat} {c : Char} {rest : List Char} (stops : c ≠ '-') :
    HasOddArrow (List.replicate n '-' ++ c :: rest) ↔
      (c = '>' ∧ ∃ k, n = 2 * k + 3) ∨ HasOddArrow rest := by
  constructor
  · rintro ⟨before, k, after, same, whole⟩
    rcases List.append_eq_append_iff.1 same with ⟨d, rfl, rest_⟩ | ⟨d, run, rest_⟩
    · cases d with
      | nil => exact absurd (List.cons.inj rest_).1 stops
      | cons d ds =>
        refine .inr ⟨ds, k, after, (List.cons.inj rest_).2, fun last => whole ?_⟩
        rw [List.getLast?_append, List.getLast?_cons, last]
        rfl
    · have begins : before = [] := by
        rcases List.eq_nil_or_concat before with none_ | ⟨before, last, rfl⟩
        · exact none_
        · have dash : last = '-' := List.eq_of_mem_replicate (n := n) (by simp [run])
          exact absurd (by simp [dash]) whole
      rw [begins, List.nil_append] at run
      rw [← run] at rest_
      obtain ⟨counts, arrow, -⟩ := lead_unique (· = '-') rest_
        (fun _ => List.eq_of_mem_replicate) (fun _ => List.eq_of_mem_replicate) (by decide) stops
      exact .inl ⟨arrow.symm, k, by simpa using (congrArg List.length counts).symm⟩
  · rintro (⟨rfl, k, rfl⟩ | ⟨before, k, after, rfl, whole⟩)
    · exact ⟨[], k, rest, rfl, nofun⟩
    · refine ⟨List.replicate n '-' ++ c :: before, k, after, by simp, fun last => ?_⟩
      rw [List.getLast?_append, List.getLast?_cons] at last
      cases ended : before.getLast? with
      | none =>
        rw [ended] at last
        exact stops (Option.some.inj last)
      | some d =>
        rw [ended] at last whole
        exact whole last

theorem lead_run (x : Char) (cs : List Char) :
    ∃ n rest, cs = List.replicate n x ++ rest ∧ rest.head? ≠ some x := by
  induction cs with
  | nil => exact ⟨0, [], rfl, nofun⟩
  | cons c cs ih =>
    by_cases same : c = x
    · obtain ⟨n, rest, rfl, stops⟩ := ih
      exact ⟨n + 1, rest, by rw [same]; rfl, stops⟩
    · exact ⟨0, c :: cs, rfl, fun head => same (Option.some.inj head)⟩

theorem infix_breakDashes (cs : List Char) :
    ['-', '-', '>'] <:+: replaceAll '-' ['-'] ['-', ' ', '-'] cs ↔ HasOddArrow cs := by
  obtain ⟨n, rest, whole, stops⟩ := lead_run '-' cs
  rw [whole]
  cases rest with
  | nil =>
    rw [breakDashes_run n stops, replaceAll, List.append_nil, List.append_nil]
    have arrow : '>' ∈ ['-', '-', '>'] := by decide
    refine iff_of_false (fun found => brokenRun_clean n (found.subset arrow)) ?_
    rintro ⟨before, k, after, same, -⟩
    have mem : '>' ∈ List.replicate n '-' := by rw [same]; simp
    exact absurd (List.eq_of_mem_replicate mem) (by decide)
  | cons c rest =>
    have other : c ≠ '-' := fun same => stops (congrArg some same)
    have shorter : rest.length < cs.length := by
      rw [whole, List.length_append, List.length_cons]
      omega
    have ih := infix_breakDashes rest
    rw [breakDashes_run n stops, replaceAll_passed (if_neg other.symm), hasOddArrow_run other, ← ih]
    by_cases arrow : c = '>'
    · subst arrow
      rw [← suffix_brokenRun]
      simpa using @infix_first _ _ _ ['-', '-'] (by decide) (brokenRun_clean n)
    · rw [infix_around (by simp [arrow, other])]
      have clean : ¬ ['-', '-', '>'] <:+: brokenRun n := fun found =>
        brokenRun_clean n (found.subset (by decide))
      simp [arrow, clean]
termination_by cs.length

end Playground.Text

namespace Playground.Html

open Text

theorem splitComment_whole {body : List Char} (ends : EndsOnlyWith ['-', '-', '>'] body)
    (tail : List Char) : splitComment (body ++ tail) = (body, tail) := by
  have whole := splitComment_append body
  have ended : ['-', '-', '>'] <:+ (splitComment body).1 := by
    refine Classical.byContradiction fun open_ => ?_
    have none_ := splitComment_unended open_
    rw [none_, List.append_nil] at whole
    exact open_ (whole.symm ▸ ends.1)
  obtain ⟨before, cut⟩ := id ended
  have none_ : (splitComment body).2 = [] :=
    ends.2 before _ (by rw [← List.append_assoc, cut, whole])
  rw [none_, List.append_nil] at whole
  have read := splitComment_ended rfl ended tail
  rwa [whole] at read

/-- A text that is one comment: it is closed at its end, and nowhere before. -/
def IsOneComment (text : String) : Prop :=
  ∃ body, text.toList = '<' :: '!' :: '-' :: '-' :: body ∧ EndsOnlyWith ['-', '-', '>'] body

theorem scan_comment {text : String} (comment : IsOneComment text) (rest : String) :
    scan (text ++ rest) = (scan rest).map (·.shift text.utf8ByteSize) := by
  obtain ⟨body, spelt, ends⟩ := comment
  have sound := Token.Sound.comment body (splitComment_whole ends)
  have size_ : size (Token.aside ('<' :: '!' :: '-' :: '-' :: body)).lexeme = text.utf8ByteSize := by
    rw [Token.lexeme, ← spelt, size_toList]
  rw [scan_outline, scan_outline, String.toList_append, spelt]
  have read := sound.ofText rest.toList
  rw [Token.lexeme] at read
  rw [read, outline, size_, outline_shift]
  rfl

end Playground.Html

namespace Playground

open Text Html

theorem toList_replaceText {pattern : String} {first : Char} {others : List Char}
    (spelt : pattern.toList = first :: others) (s by_ : String) :
    (replaceText s pattern by_).toList = replaceAll first others by_.toList s.toList := by
  rw [replaceText, spelt, String.toList_ofList]

theorem errorMarker_slashed {language : String} (slashed : language ∈ slashCommented)
    (e : CompileError) : (errorMarker language e).toList =
      '/' :: '*' :: ' ' ::
        (replaceAll '*' ['/'] ['*', ' ', '/'] e.message.toList ++ ' ' :: ['*', '/']) := by
  rw [errorMarker, if_pos slashed, String.toList_append, String.toList_append,
    toList_replaceText rfl]
  rfl

theorem errorMarker_markup {language : String} (other : language ∉ slashCommented)
    (e : CompileError) : (errorMarker language e).toList =
      '<' :: '!' :: '-' :: '-' :: ' ' ::
        (replaceAll '-' ['-'] ['-', ' ', '-'] e.message.toList ++ ' ' :: ['-', '-', '>']) := by
  rw [errorMarker, if_neg other, String.toList_append, String.toList_append,
    toList_replaceText rfl]
  rfl

theorem isOneComment_errorMarker {language : String} (other : language ∉ slashCommented)
    (e : CompileError) :
    IsOneComment (errorMarker language e) ↔ ¬ HasOddArrow e.message.toList := by
  have blank : ' ' ∉ ['-', '-', '>'] := by decide
  let broken := replaceAll '-' ['-'] ['-', ' ', '-'] e.message.toList
  have body : EndsOnlyWith ['-', '-', '>'] (' ' :: (broken ++ ' ' :: ['-', '-', '>'])) ↔
      ¬ HasOddArrow e.message.toList := by
    rw [← List.cons_append, endsOnlyWith_iff blank, ← infix_breakDashes,
      ← List.nil_append (' ' :: broken), infix_around blank]
    simp [broken]
  rw [IsOneComment, errorMarker_markup other e, ← body]
  simp [broken]

/-- The marker of a failure is one comment with nothing after it, unless it is put between dashes and
its message has an arrow of an odd number of dashes above one. -/
theorem errorMarker_whole (language : String) (e : CompileError) :
    if language ∈ slashCommented then
      ['/', '*'] <+: (errorMarker language e).toList ∧
        EndsOnlyWith ['*', '/'] (errorMarker language e).toList
    else
      "<!--".toList <+: (errorMarker language e).toList ∧
        ((IsOneComment (errorMarker language e) ∧
          ∀ rest, scan (errorMarker language e ++ rest) =
            (scan rest).map (·.shift (errorMarker language e).utf8ByteSize)) ↔
          ¬ HasOddArrow e.message.toList) := by
  split
  · next slashed =>
    rw [errorMarker_slashed slashed]
    have blank : ' ' ∉ ['*', '/'] := by decide
    refine ⟨⟨_, rfl⟩, ?_⟩
    rw [← List.cons_append, ← List.cons_append, ← List.cons_append, endsOnlyWith_iff blank]
    intro found
    rcases (infix_around (u := ['/', '*']) blank).1 found with opening | inside
    · exact absurd opening (by decide)
    · exact infix_breakStars _ inside
  · next other =>
    refine ⟨⟨_, (errorMarker_markup other e).symm⟩, ?_⟩
    rw [← isOneComment_errorMarker other e]
    exact ⟨And.left, fun comment => ⟨comment, scan_comment comment⟩⟩

def arrowName : String := "---><b>"

theorem long_arrow_ends_comment :
    "html" ∉ slashCommented ∧ HasOddArrow (CompileError.unsupportedLanguage arrowName).message.toList ∧
      ¬ IsOneComment (errorMarker "html" (.unsupportedLanguage arrowName)) ∧
      (scan (errorMarker "html" (.unsupportedLanguage arrowName))).map Element.tag = ["b"] := by
  have other : "html" ∉ slashCommented := by decide
  have arrow : HasOddArrow (CompileError.unsupportedLanguage arrowName).message.toList :=
    ⟨"unsupported language: ".toList, 0, "<b>".toList, rfl, by decide⟩
  have told := errorMarker_whole "html" (.unsupportedLanguage arrowName)
  rw [if_neg other] at told
  refine ⟨other, arrow, fun comment => ?_, by decide +kernel⟩
  exact told.2.1 ⟨comment, scan_comment comment⟩ arrow

end Playground
