import Playground.Html.Token
import Playground.Html.Entity
import Playground.Proofs.Json.StringTable

/-! Attribute values through their references. -/

namespace Playground.Text

section Patterns

variable {first c : Char} {others by_ rest : List Char}

theorem replaceAll_found : replaceAll first others by_ (first :: (others ++ rest)) =
    by_ ++ replaceAll first others by_ rest := by
  rw [replaceAll]
  split
  · next after found =>
    have same := dropLead?_append (first :: others) rest
    cases found.symm.trans same
    rfl
  · next missing =>
    have found := dropLead?_append (first :: others) rest
    cases missing.symm.trans found

theorem replaceAll_passed (other : dropLead? (first :: others) (c :: rest) = none) :
    replaceAll first others by_ (c :: rest) = c :: replaceAll first others by_ rest := by
  rw [replaceAll]
  split
  · next found => cases other.symm.trans found
  · rfl

theorem replaceAll_clean {cs : List Char} (clean : first ∉ cs) :
    replaceAll first others by_ (cs ++ rest) = cs ++ replaceAll first others by_ rest := by
  induction cs with
  | nil => rfl
  | cons c cs ih =>
    rw [List.mem_cons, not_or] at clean
    rw [List.cons_append, replaceAll_passed (by rw [dropLead?, if_neg clean.1]), ih clean.2]
    rfl

end Patterns

theorem replaceAll_flatMap {first : Char} {others by_ : List Char} {f g : Char → List Char}
    (codes : ∀ c rest, replaceAll first others by_ (f c ++ rest) =
      g c ++ replaceAll first others by_ rest)
    (cs : List Char) : replaceAll first others by_ (cs.flatMap f) = cs.flatMap g := by
  induction cs with
  | nil => rw [List.flatMap_nil, List.flatMap_nil, replaceAll]
  | cons c cs ih => rw [List.flatMap_cons, List.flatMap_cons, codes, ih]

end Playground.Text

namespace Playground.Html.Entity

open Text

def code (c : Char) : List Char :=
  if c = '&' then "&amp;".toList else if c = '"' then "&quot;".toList else [c]

def ampersandCode (c : Char) : List Char := if c = '&' then "&amp;".toList else [c]

theorem escapeAttribute_toList (value : String) :
    (escapeAttribute value).toList = value.toList.flatMap code := by
  have ampersand : "&".toList = ['&'] := rfl
  have quote : "\"".toList = ['"'] := rfl
  rw [escapeAttribute, replaceText, replaceText, ampersand, quote]
  dsimp only
  simp only [String.toList_ofList, replaceAll_single, List.flatMap_assoc]
  congr 1
  funext c
  by_cases same : c = '&'
  · subst same
    rfl
  · rw [code, if_neg same, if_neg same, List.flatMap_singleton]

theorem mem_code {q c : Char} (quote : isQuote q = true) : q ∈ code c ↔ q = '\'' ∧ c = '\'' := by
  have references : '"' ∉ "&amp;".toList ++ "&quot;".toList ∧
      '\'' ∉ "&amp;".toList ++ "&quot;".toList := by
    decide
  simp only [List.mem_append, not_or] at references
  rw [isQuote, Bool.or_eq_true, beq_iff_eq, beq_iff_eq] at quote
  unfold code
  rcases quote with rfl | rfl
  · refine iff_of_false ?_ (fun same => absurd same.1 (by decide))
    split
    · exact references.1.1
    · split
      · exact references.1.2
      · next other => simpa using Ne.symm other
  · split
    · next same => exact iff_of_false references.2.1 (by rw [same]; decide)
    · split
      · next same => exact iff_of_false references.2.2 (by rw [same]; decide)
      · simp [eq_comm]

theorem mem_escapeAttribute {q : Char} (quote : isQuote q = true) (value : String) :
    q ∈ (escapeAttribute value).toList ↔ q = '\'' ∧ '\'' ∈ value.toList := by
  rw [escapeAttribute_toList, List.mem_flatMap]
  constructor
  · rintro ⟨c, known, mem⟩
    obtain ⟨single, rfl⟩ := (mem_code quote).1 mem
    exact ⟨single, known⟩
  · rintro ⟨single, known⟩
    exact ⟨'\'', known, (mem_code quote).2 ⟨single, rfl⟩⟩

theorem replaceText_flatMap {pattern by_ : String} {first : Char} {others : List Char}
    {f g : Char → List Char} (spelt : pattern.toList = first :: others)
    (codes : ∀ c rest, replaceAll first others by_.toList (f c ++ rest) =
      g c ++ replaceAll first others by_.toList rest)
    (cs : List Char) :
    replaceText (String.ofList (cs.flatMap f)) pattern by_ = String.ofList (cs.flatMap g) := by
  rw [replaceText, spelt]
  dsimp only
  rw [String.toList_ofList, replaceAll_flatMap codes]

theorem replaceText_ampersandCode {pattern by_ : String} {others : List Char}
    (spelt : pattern.toList = '&' :: others)
    (other : ∀ rest, dropLead? others ("amp;".toList ++ rest) = none) (cs : List Char) :
    replaceText (String.ofList (cs.flatMap ampersandCode)) pattern by_ =
      String.ofList (cs.flatMap ampersandCode) := by
  refine replaceText_flatMap spelt (fun c rest => ?_) cs
  unfold ampersandCode
  split
  · have clean : '&' ∉ "amp;".toList := by decide
    have passed : dropLead? ('&' :: others) ('&' :: ("amp;".toList ++ rest)) = none := other rest
    exact (replaceAll_passed passed).trans (congrArg _ (replaceAll_clean clean))
  · next plain => exact replaceAll_clean (by simpa using Ne.symm plain)

theorem decode_escapeAttribute (value : String) : decode (escapeAttribute value) = value := by
  have quotes : ∀ cs : List Char, replaceText (String.ofList (cs.flatMap code)) "&quot;" "\"" =
      String.ofList (cs.flatMap ampersandCode) := by
    have spelt : "&quot;".toList = '&' :: "quot;".toList := rfl
    refine replaceText_flatMap spelt fun c rest => ?_
    unfold code ampersandCode
    split
    · have clean : '&' ∉ "amp;".toList := by decide
      exact (replaceAll_passed rfl).trans (congrArg _ (replaceAll_clean clean))
    · split
      · next plain same =>
        subst same
        exact replaceAll_found
      · next plain _ => exact replaceAll_clean (by simpa using Ne.symm plain)
  have ampersands : ∀ cs : List Char,
      replaceText (String.ofList (cs.flatMap ampersandCode)) "&amp;" "&" =
        String.ofList (cs.flatMap fun c => [c]) := by
    have spelt : "&amp;".toList = '&' :: "amp;".toList := rfl
    refine replaceText_flatMap spelt fun c rest => ?_
    unfold ampersandCode
    split
    · next same =>
      subst same
      exact replaceAll_found
    · next plain => exact replaceAll_clean (by simpa using Ne.symm plain)
  rw [← String.ofList_toList (s := escapeAttribute value), escapeAttribute_toList, decode, table]
  simp only [List.foldl_cons, List.foldl_nil]
  rw [quotes, replaceText_ampersandCode rfl fun _ => rfl, replaceText_ampersandCode rfl fun _ => rfl,
    replaceText_ampersandCode rfl fun _ => rfl, replaceText_ampersandCode rfl fun _ => rfl,
    replaceText_ampersandCode rfl fun _ => rfl, ampersands, List.flatMap_singleton',
    String.ofList_toList]

theorem decode_cons {c : Char} (plain : c ≠ '&') (cs : List Char) :
    ∃ more, decode (String.ofList (c :: cs)) = String.ofList (c :: more) := by
  have references : ∀ entry ∈ table, ∃ others, entry.1.toList = '&' :: others := by
    intro entry mem
    simp only [table, List.mem_cons, List.not_mem_nil, or_false] at mem
    rcases mem with rfl | rfl | rfl | rfl | rfl | rfl | rfl
    all_goals exact ⟨_, rfl⟩
  unfold decode
  generalize table = entries at references
  induction entries generalizing cs with
  | nil => exact ⟨cs, rfl⟩
  | cons entry entries ih =>
    rw [List.forall_mem_cons] at references
    obtain ⟨⟨others, spelt⟩, later⟩ := references
    obtain ⟨reference, character⟩ := entry
    have kept : replaceText (String.ofList (c :: cs)) reference character =
        String.ofList (c :: replaceAll '&' others character.toList cs) := by
      rw [replaceText, spelt]
      dsimp only
      rw [String.toList_ofList, replaceAll_passed (by rw [dropLead?, if_neg (Ne.symm plain)])]
    rw [List.foldl_cons]
    dsimp only
    rw [kept]
    exact ih _ later

end Playground.Html.Entity
