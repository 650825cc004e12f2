import Playground.Language.Literal
import Playground.Proofs.Html.RawText
import Playground.Proofs.Html.References

/-! Code that stands in a template literal, read back. -/

namespace Playground

open Text Html

/-- A character of a template literal: as it stands, or behind a backslash. -/
inductive LiteralPiece
  | plain (c : Char)
  | escaped (c : Char)
  deriving DecidableEq, Repr

namespace LiteralPiece

def char : LiteralPiece → Char
  | plain c | escaped c => c

def lexeme : LiteralPiece → List Char
  | plain c => [c]
  | escaped c => ['\\', c]

/-- The pieces of a literal, from the left. There are none when a backslash at its end has nothing to
escape. -/
def read? : List Char → Option (List LiteralPiece)
  | [] => some []
  | ['\\'] => none
  | '\\' :: c :: rest => (read? rest).map (escaped c :: ·)
  | c :: rest => (read? rest).map (plain c :: ·)

theorem read?_plain {c : Char} (other : c ≠ '\\') (rest : List Char) :
    read? (c :: rest) = (read? rest).map (plain c :: ·) := by
  rw [read?.eq_def]
  split
  · next same => cases same
  · next same => exact absurd (List.cons.inj same).1 other
  · next same => exact absurd (List.cons.inj same).1 other
  · next same => obtain ⟨rfl, rfl⟩ := List.cons.inj same; rfl

theorem read?_lexemes {ps : List LiteralPiece} (clean : plain '\\' ∉ ps) :
    read? (ps.flatMap lexeme) = some ps := by
  induction ps with
  | nil => rfl
  | cons p ps ih =>
    rw [List.mem_cons, not_or] at clean
    have later := ih clean.2
    rw [List.flatMap_cons]
    cases p with
    | plain c =>
      have other : c ≠ '\\' := fun same => clean.1 (by rw [same])
      rw [lexeme, List.singleton_append, read?_plain other, later]
      rfl
    | escaped c =>
      rw [lexeme, List.cons_append, List.singleton_append, read?, later]
      rfl

/-- What is written for a character of code, where it does not begin the end of a script. -/
def ofChar (c : Char) : LiteralPiece := if c = '\\' ∨ c = '\x60' then escaped c else plain c

theorem ofChar_plain {c : Char} (slash : c ≠ '\\') (quote : c ≠ '\x60') : ofChar c = plain c :=
  if_neg (not_or.2 ⟨slash, quote⟩)

theorem ofChar_char (c : Char) : (ofChar c).char = c := by
  unfold ofChar
  split <;> rfl

theorem ofChar_clean {x c : Char} (other : c ≠ x) (slash : x ≠ '\\') : x ∉ (ofChar c).lexeme := by
  unfold ofChar
  split <;> simp [lexeme, other.symm, slash]

end LiteralPiece

open LiteralPiece

inductive WrittenAs : List Char → List LiteralPiece → Prop
  | nil : WrittenAs [] []
  | broken {code : List Char} {ps : List LiteralPiece} (later : WrittenAs code ps) :
      WrittenAs (scriptEnd ++ code)
        (.plain '<' :: .escaped '/' :: ("script>".toList.map .plain ++ ps))
  | char (c : Char) {code : List Char} {ps : List LiteralPiece}
      (other : ¬ scriptEnd <+: c :: code) (later : WrittenAs code ps) :
      WrittenAs (c :: code) (.ofChar c :: ps)

namespace WrittenAs

variable {code : List Char} {ps : List LiteralPiece}

theorem chars (written : WrittenAs code ps) : ps.map LiteralPiece.char = code := by
  induction written with
  | nil => rfl
  | broken later ih => simp [scriptEnd, LiteralPiece.char, ih]
  | char c other later ih => rw [List.map_cons, ofChar_char, ih]

theorem escapes (written : WrittenAs code ps) :
    plain '\\' ∉ ps ∧ plain '\x60' ∉ ps ∧
      ∀ c, escaped c ∈ ps → c = '\\' ∨ c = '\x60' ∨ c = '/' := by
  induction written with
  | nil => exact ⟨List.not_mem_nil, List.not_mem_nil, fun c mem => absurd mem List.not_mem_nil⟩
  | broken later ih => simpa using ih
  | char c other later ih =>
    simp only [List.mem_cons, not_or]
    unfold ofChar
    split
    · next special => grind
    · next plain_ => grind

theorem read (written : WrittenAs code ps) : read? (ps.flatMap lexeme) = some ps :=
  read?_lexemes written.escapes.1

end WrittenAs

def escapeChars (code : List Char) : List Char := code.flatMap fun c => (ofChar c).lexeme

def breakEnds (cs : List Char) : List Char := replaceAll '<' "/script>".toList "<\\/script>".toList cs

theorem literalCode_toList (code : String) :
    (literalCode code true).toList = breakEnds (escapeChars code.toList) := by
  have backslash : "\\".toList = ['\\'] := rfl
  have quote : "`".toList = ['\x60'] := rfl
  have stop : "</script>".toList = '<' :: "/script>".toList := rfl
  rw [literalCode, if_pos rfl, replaceText, replaceText, replaceText, backslash, quote, stop]
  dsimp only
  simp only [String.toList_ofList, replaceAll_single, List.flatMap_assoc]
  rw [breakEnds, escapeChars]
  congr 2
  funext c
  unfold ofChar
  by_cases slash : c = '\\'
  · subst slash
    rfl
  · by_cases quote : c = '\x60'
    · subst quote
      rfl
    · simp [slash, quote, lexeme]

/-- A text of characters that are written as they are is found in escaped code where it is found in
the code. -/
theorem dropLead?_escapeChars {pattern : List Char} (clean : ∀ p ∈ pattern, ofChar p = plain p)
    (code : List Char) :
    dropLead? pattern (escapeChars code) = (dropLead? pattern code).map escapeChars := by
  induction pattern generalizing code with
  | nil => rfl
  | cons p pattern ih =>
    rw [List.forall_mem_cons] at clean
    cases code with
    | nil => rfl
    | cons c code =>
      rw [escapeChars, List.flatMap_cons, dropLead?]
      by_cases same : p = c
      · subst same
        rw [clean.1, if_pos rfl, ← ih clean.2 code]
        exact if_pos rfl
      · rw [if_neg same]
        unfold ofChar
        split
        · next special =>
          refine if_neg ?_
          rintro rfl
          cases clean.1
        · exact if_neg same

theorem breakEnds_found (rest : List Char) :
    breakEnds (scriptEnd ++ rest) = '<' :: '\\' :: '/' :: ("script>".toList ++ breakEnds rest) :=
  replaceAll_found

theorem exists_writtenAs (code : List Char) :
    ∃ ps, WrittenAs code ps ∧ breakEnds (escapeChars code) = ps.flatMap lexeme := by
  cases code with
  | nil =>
    refine ⟨[], .nil, ?_⟩
    rw [escapeChars, List.flatMap_nil, breakEnds, replaceAll, List.flatMap_nil]
  | cons c rest =>
    by_cases ends : scriptEnd <+: c :: rest
    · obtain ⟨after, whole⟩ := ends
      have shorter : after.length < (c :: rest).length := by
        rw [← whole, List.length_append]
        exact Nat.lt_add_of_pos_left (by decide)
      obtain ⟨ps, written, same⟩ := exists_writtenAs after
      have stop : escapeChars scriptEnd = scriptEnd := by decide
      rw [← whole]
      refine ⟨_, .broken written, ?_⟩
      rw [escapeChars, List.flatMap_append, ← escapeChars, ← escapeChars, stop, breakEnds_found, same]
      rfl
    · obtain ⟨ps, written, same⟩ := exists_writtenAs rest
      refine ⟨ofChar c :: ps, .char c ends written, ?_⟩
      rw [List.flatMap_cons, ← same, escapeChars, List.flatMap_cons, ← escapeChars]
      by_cases angle : c = '<'
      · subst angle
        have all : scriptEnd.all (fun p => ofChar p == plain p) = true := by decide
        have clean : ∀ p ∈ scriptEnd, ofChar p = plain p := by
          simpa only [List.all_eq_true, beq_iff_eq] using all
        have missing : dropLead? scriptEnd ('<' :: rest) = none := by
          refine Option.eq_none_iff_forall_ne_some.2 fun after found => ends ⟨after, ?_⟩
          exact (eq_append_of_dropLead? found).symm
        have passed := dropLead?_escapeChars clean ('<' :: rest)
        rw [missing] at passed
        exact replaceAll_passed passed
      · exact replaceAll_clean (ofChar_clean angle (by decide))
termination_by code.length
decreasing_by
  · exact shorter
  · exact Nat.lt_succ_self _

section Suffixes

variable {P : List Char → Prop} {x c : Char} {t : List Char}

theorem exists_suffix_cons :
    (∃ s, s <:+ c :: t ∧ P s) ↔ P (c :: t) ∨ ∃ s, s <:+ t ∧ P s := by
  simp only [List.suffix_cons_iff, or_and_right, exists_or, exists_eq_left]

theorem exists_suffix_append (head : ∀ s, P s → s.head? = some x) {u : List Char} (clean : x ∉ u) :
    (∃ s, s <:+ u ++ t ∧ P s) ↔ ∃ s, s <:+ t ∧ P s := by
  induction u with
  | nil => rfl
  | cons d u ih =>
    rw [List.mem_cons, not_or] at clean
    have missed : ¬ P (d :: (u ++ t)) := fun found =>
      clean.1 (Option.some.inj (head _ found)).symm
    rw [List.cons_append, exists_suffix_cons, ih clean.2, or_iff_right missed]

end Suffixes

theorem Html.endsRaw_cons {tag t : List Char} : EndsRaw tag ('<' :: t) ↔
    ∃ name c, '/' :: (name ++ [c]) <+: t ∧ lower name = tag ∧ isRawStop c = true := by
  constructor
  · rintro ⟨name, c, rest, whole, named, stop⟩
    obtain ⟨-, rfl⟩ := List.cons.inj whole
    exact ⟨name, c, ⟨rest, by simp⟩, named, stop⟩
  · rintro ⟨name, c, ⟨rest, rfl⟩, named, stop⟩
    exact ⟨name, c, rest, by simp, named, stop⟩

/-- Whether code holds the end of a script that is not spelt `</script>`: with another letter case, or
with a blank or a slash behind the name. -/
def HasOtherEnd (code : List Char) : Prop :=
  ∃ s, s <:+ code ∧ EndsRaw "script".toList s ∧ ¬ scriptEnd <+: s

/-- What is written without a change, and begins no end of a script, stands at the head of the pieces
where it stands at the head of the code. -/
theorem WrittenAs.lead_iff {code : List Char} {ps : List LiteralPiece} (written : WrittenAs code ps)
    {lead : List Char} (clean : ∀ c ∈ lead, c ≠ '<' ∧ ofChar c = plain c) :
    lead <+: ps.flatMap lexeme ↔ lead <+: code := by
  induction lead generalizing code ps with
  | nil => exact iff_of_true List.nil_prefix List.nil_prefix
  | cons d lead ih =>
    rw [List.forall_mem_cons] at clean
    cases written with
    | nil => rfl
    | broken later =>
      refine iff_of_false (fun found => ?_) (fun found => ?_)
      · exact clean.1.1 (List.cons_prefix_cons.1 found).1
      · exact clean.1.1 (List.cons_prefix_cons.1 found).1
    | char c other later =>
      rw [List.flatMap_cons, List.cons_prefix_cons]
      by_cases same : d = c
      · subst same
        rw [clean.1.2, lexeme, List.singleton_append, List.cons_prefix_cons, ih later clean.2]
      · refine iff_of_false (fun found => ?_) (fun found => same found.1)
        unfold ofChar at found
        split at found
        · next special =>
          have slash : d = '\\' := (List.cons_prefix_cons.1 found).1
          subst slash
          cases clean.1.2
        · exact same (List.cons_prefix_cons.1 found).1

theorem ofChar_scriptEnd {name : List Char} {c : Char} (named : lower name = "script".toList)
    (stop : isRawStop c = true) : ∀ d ∈ '/' :: (name ++ [c]), d ≠ '<' ∧ ofChar d = plain d := by
  intro d mem
  have apart : ∀ x, x.toLower = x → x ∉ "script".toList → isRawStop x = false → d ≠ x := by
    rintro x same other stays rfl
    rw [List.mem_cons, List.mem_append, List.mem_singleton] at mem
    rcases mem with rfl | inside | rfl
    · exact absurd stays (by decide)
    · exact other (named ▸ lower_eq_self_of_mem inside same)
    · rw [stop] at stays
      cases stays
  exact ⟨apart '<' (by decide) (by decide) (by decide),
    ofChar_plain (apart '\\' (by decide) (by decide) (by decide))
      (apart '\x60' (by decide) (by decide) (by decide))⟩

theorem WrittenAs.ends_iff {code : List Char} {ps : List LiteralPiece} (written : WrittenAs code ps) :
    (∃ s, s <:+ ps.flatMap lexeme ∧ EndsRaw "script".toList s) ↔ HasOtherEnd code := by
  have head : ∀ s, EndsRaw "script".toList s → s.head? = some '<' := fun s ends => ends.head
  have head' : ∀ s, EndsRaw "script".toList s ∧ ¬ scriptEnd <+: s → s.head? = some '<' :=
    fun s ends => ends.1.head
  unfold HasOtherEnd
  induction written with
  | nil =>
    refine iff_of_false ?_ ?_
    · rintro ⟨s, suffix, ends⟩
      rw [List.suffix_nil.1 suffix] at ends
      cases ends.head
    · rintro ⟨s, suffix, ends, -⟩
      rw [List.suffix_nil.1 suffix] at ends
      cases ends.head
  | @broken code ps later ih =>
    have text : (plain '<' :: escaped '/' :: ("script>".toList.map plain ++ ps)).flatMap lexeme =
        '<' :: ("\\/script>".toList ++ ps.flatMap lexeme) := rfl
    have whole : scriptEnd ++ code = '<' :: ("/script>".toList ++ code) := rfl
    have shut : ¬ EndsRaw "script".toList ('<' :: ("\\/script>".toList ++ ps.flatMap lexeme)) := by
      rintro ⟨name, c, rest, same, -⟩
      cases same
    have told : ¬ (EndsRaw "script".toList ('<' :: ("/script>".toList ++ code)) ∧
        ¬ scriptEnd <+: '<' :: ("/script>".toList ++ code)) :=
      fun ends => ends.2 ⟨code, rfl⟩
    rw [text, whole, exists_suffix_cons, exists_suffix_cons, or_iff_right shut, or_iff_right told,
      exists_suffix_append head (by decide), exists_suffix_append head' (by decide)]
    exact ih
  | @char c code ps other later ih =>
    rw [List.flatMap_cons]
    by_cases angle : c = '<'
    · subst angle
      have here : EndsRaw "script".toList ('<' :: ps.flatMap lexeme) ↔
          EndsRaw "script".toList ('<' :: code) ∧ ¬ scriptEnd <+: '<' :: code := by
        rw [and_iff_left other, endsRaw_cons, endsRaw_cons]
        refine exists_congr fun name => exists_congr fun c => and_congr_left fun ⟨named, stop⟩ => ?_
        exact later.lead_iff (ofChar_scriptEnd named stop)
      have alone : (ofChar '<').lexeme = ['<'] := by decide
      rw [alone, List.singleton_append, exists_suffix_cons, exists_suffix_cons, here]
      exact or_congr_right ih
    · rw [exists_suffix_append head (ofChar_clean angle (by decide)),
        ← List.singleton_append (l := code),
        exists_suffix_append head' (by simpa using Ne.symm angle)]
      exact ih

theorem WrittenAs.interpolates_iff {code : List Char} {ps : List LiteralPiece}
    (written : WrittenAs code ps) :
    [plain '$', plain '{'] <:+: ps ↔ ['$', '{'] <:+: code := by
  have kept : ∀ p ∈ ps, ∀ c, p.char = c → c ≠ '\\' → c ≠ '\x60' → c ≠ '/' → p = plain c := by
    rintro (d | d) mem c rfl slash quote divides
    · rfl
    · rcases written.escapes.2.2 d mem with same | same | same
      · exact absurd same slash
      · exact absurd same quote
      · exact absurd same divides
  rw [← written.chars]
  constructor
  · rintro ⟨before, after, rfl⟩
    exact ⟨before.map LiteralPiece.char, after.map LiteralPiece.char, by simp [LiteralPiece.char]⟩
  · rintro ⟨before, after, same⟩
    obtain ⟨lead, tail, rfl, lead_, -⟩ := List.map_eq_append_iff.1 same.symm
    obtain ⟨first, others, rfl, -, found⟩ := List.map_eq_append_iff.1 lead_
    obtain ⟨p, more, rfl, dollar, found⟩ := List.map_eq_cons_iff.1 found
    obtain ⟨q, last, rfl, brace, none_⟩ := List.map_eq_cons_iff.1 found
    rw [List.map_eq_nil_iff.1 none_] at kept ⊢
    have p_ := kept p (by simp) '$' dollar (by decide) (by decide) (by decide)
    have q_ := kept q (by simp) '{' brace (by decide) (by decide) (by decide)
    exact ⟨first, tail, by rw [p_, q_]⟩

theorem exists_pieces (code : String) :
    ∃ ps, WrittenAs code.toList ps ∧ (literalCode code true).toList = ps.flatMap lexeme := by
  rw [literalCode_toList]
  exact exists_writtenAs code.toList

/-- The value of a literal is the code that was written into it: dropping each backslash and keeping
what it escapes gives the code back, and no backslash is left over at the end. -/
theorem literalCode_value (code : String) :
    (read? (literalCode code true).toList).map (List.map LiteralPiece.char) = some code.toList := by
  obtain ⟨ps, written, text⟩ := exists_pieces code
  rw [text, written.read, Option.map_some, written.chars]

/-- A code of backslashes, backquotes and script ends, escaped ones among them. -/
example : (read? (literalCode "\\</script>\\`<\\/script>" true).toList).map
    (List.map LiteralPiece.char) = some "\\</script>\\`<\\/script>".toList := by
  decide +kernel

/-- Literal code has no backquote of its own. An interpolation begins in it just when one begins in
the code, and it stays whole in a script just when the code has no end of a script but `</script>`. -/
theorem literalCode_embedded (code : String) :
    ∃ ps, read? (literalCode code true).toList = some ps ∧ plain '\x60' ∉ ps ∧
      ([plain '$', plain '{'] <:+: ps ↔ ['$', '{'] <:+: code.toList) ∧
      (IsScriptContent (literalCode code true) ↔ ¬ HasOtherEnd code.toList) := by
  obtain ⟨ps, written, text⟩ := exists_pieces code
  refine ⟨ps, text ▸ written.read, written.escapes.2.1, written.interpolates_iff, ?_⟩
  rw [isScriptContent_iff, text, ← written.ends_iff]
  simp only [not_exists, not_and]

theorem interpolation_and_capitals_stay :
    (∃ ps, read? (literalCode "$\x7bx\x7d" true).toList = some ps ∧
      [plain '$', plain '{'] <:+: ps) ∧
      ¬ IsScriptContent (literalCode "</SCRIPT>" true) ∧
      (scan (scriptAround (literalCode "</SCRIPT>" true))).map (·.inner
        (scriptAround (literalCode "</SCRIPT>" true))) = [""] := by
  obtain ⟨ps, read, -, interpolates, -⟩ := literalCode_embedded "$\x7bx\x7d"
  obtain ⟨-, -, -, -, whole⟩ := literalCode_embedded "</SCRIPT>"
  have other : HasOtherEnd "</SCRIPT>".toList :=
    ⟨"</SCRIPT>".toList, List.suffix_refl _, ⟨"SCRIPT".toList, '>', [], by decide⟩, by decide⟩
  exact ⟨⟨ps, read, interpolates.2 ⟨[], "x\x7d".toList, by decide⟩⟩,
    fun content => whole.1 content other, by decide +kernel⟩

end Playground
