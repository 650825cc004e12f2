import Playground.Proofs.Html.References
import Playground.Proofs.Html.Tag

/-! References read in one pass. No character that is put in is part of a reference still to come.
-/

namespace Playground.Text

theorem dropLead?_eq_none {pattern cs : List Char} (other : ¬ pattern <+: cs) :
    dropLead? pattern cs = none := by
  rw [Option.eq_none_iff_forall_ne_some]
  intro rest found
  exact other ⟨rest, (eq_append_of_dropLead? found).symm⟩

/-- Where a text begins after a replacement with characters that it does not put in, it began so
before. -/
theorem isPrefix_of_replaceAll {first : Char} {others by_ pattern cs : List Char} (some_ : by_ ≠ [])
    (foreign : ∀ c ∈ by_, c ∉ pattern) (begins : pattern <+: replaceAll first others by_ cs) :
    pattern <+: cs := by
  induction cs generalizing pattern with
  | nil => rwa [replaceAll] at begins
  | cons c rest ih =>
    cases pattern with
    | nil => exact List.nil_prefix
    | cons p pattern =>
      cases found : dropLead? (first :: others) (c :: rest) with
      | some after =>
        rw [eq_append_of_dropLead? found, List.cons_append, replaceAll_found] at begins
        obtain ⟨b, by_, rfl⟩ := List.exists_cons_of_ne_nil some_
        rw [List.cons_append, List.cons_prefix_cons] at begins
        exact absurd (begins.1 ▸ List.mem_cons_self) (foreign b List.mem_cons_self)
      | none =>
        rw [replaceAll_passed found, List.cons_prefix_cons] at begins
        have later : ∀ d ∈ by_, d ∉ pattern := fun d mem inside =>
          foreign d mem (List.mem_cons_of_mem p inside)
        exact List.cons_prefix_cons.2 ⟨begins.1, ih later begins.2⟩

end Playground.Text

namespace Playground.Html.Entity

open Text

/-- How references are spelt: from an ampersand to the next semicolon, with no other ampersand. -/
def IsReference (reference : String) : Prop :=
  ∃ name, reference.toList = '&' :: (name ++ [';']) ∧ '&' ∉ name ∧ ';' ∉ name

theorem IsReference.unique {a b : String} (reference : IsReference a) (reference' : IsReference b)
    {cs : List Char} (begins : a.toList <+: cs) (begins' : b.toList <+: cs) : a = b := by
  obtain ⟨name, spelt, -, ends⟩ := reference
  obtain ⟨name', spelt', -, ends'⟩ := reference'
  obtain ⟨rest, rfl⟩ := begins
  obtain ⟨rest', same⟩ := begins'
  rw [spelt, spelt', List.cons_append, List.cons_append, List.append_assoc, List.append_assoc,
    List.singleton_append, List.singleton_append, List.cons.injEq] at same
  have cut := splitAt?_iff.2 ⟨same.2, ends⟩
  cases cut.symm.trans (splitAt?_iff.2 ⟨rfl, ends'⟩)
  exact String.toList_injective (spelt.trans spelt'.symm)

/-- Replacements that do not get into each other's way when they are made in this order. -/
structure Orderly (entries : List (String × String)) : Prop where
  references : ∀ entry ∈ entries, IsReference entry.1
  characters : ∀ entry ∈ entries, entry.2.toList ≠ []
  /-- No reference comes twice, and nothing that is put in is part of a later one. -/
  apart : entries.Pairwise fun entry later =>
    entry.1 ≠ later.1 ∧ ∀ c ∈ entry.2.toList, c ∉ later.1.toList

/-- One pass over a text from the left: a reference that begins is taken as a whole for its characters,
and where none begins a character stays as it is. -/
inductive Passes (entries : List (String × String)) : List Char → List Char → Prop
  | nil : Passes entries [] []
  | taken (reference character : String) (known : (reference, character) ∈ entries)
      (rest out : List Char) (later : Passes entries rest out) :
      Passes entries (reference.toList ++ rest) (character.toList ++ out)
  | plain (c : Char) (rest out : List Char)
      (none_ : ∀ entry ∈ entries, ¬ entry.1.toList <+: c :: rest) (later : Passes entries rest out) :
      Passes entries (c :: rest) (c :: out)

namespace Passes

variable {entries : List (String × String)} {cs out : List Char}

theorem nothing (passes : Passes [] cs out) : out = cs := by
  induction passes with
  | nil => rfl
  | taken _ _ known => cases known
  | plain c rest out _ _ ih => rw [ih]

theorem foreign {by_ : List Char} (references : ∀ entry ∈ entries, IsReference entry.1)
    (foreign : ∀ entry ∈ entries, ∀ c ∈ by_, c ∉ entry.1.toList) (later : Passes entries cs out) :
    Passes entries (by_ ++ cs) (by_ ++ out) := by
  induction by_ with
  | nil => exact later
  | cons c by_ ih =>
    refine .plain c (by_ ++ cs) (by_ ++ out) (fun entry mem begins => ?_)
      (ih fun entry mem d inside => foreign entry mem d (List.mem_cons_of_mem c inside))
    obtain ⟨name, spelt, -, -⟩ := references entry mem
    have outside := foreign entry mem c List.mem_cons_self
    rw [spelt, List.cons_prefix_cons] at begins
    rw [spelt, begins.1] at outside
    exact outside List.mem_cons_self

/-- What one pass makes of a text, it makes of the text in which the first kind of reference has been
replaced already. -/
theorem replaced {reference character : String}
    (orderly : Orderly ((reference, character) :: entries))
    (passes : Passes ((reference, character) :: entries) cs out) :
    Passes entries (replaceText (String.ofList cs) reference character).toList out := by
  obtain ⟨references, characters, apart⟩ := orderly
  rw [List.forall_mem_cons] at references characters
  rw [List.pairwise_cons] at apart
  obtain ⟨name, spelt, -, -⟩ := references.1
  have text : ∀ cs : List Char, (replaceText (String.ofList cs) reference character).toList =
      replaceAll '&' (name ++ [';']) character.toList cs := by
    intro cs
    rw [replaceText, spelt]
    dsimp only
    rw [String.toList_ofList, String.toList_ofList]
  rw [text]
  induction passes with
  | nil =>
    rw [replaceAll]
    exact .nil
  | taken reference' character' known rest out _ ih =>
    rcases List.mem_cons.1 known with same | known
    · obtain ⟨rfl, rfl⟩ := Prod.mk.inj same
      rw [spelt, List.cons_append, replaceAll_found]
      exact ih.foreign references.2 fun entry mem => (apart.1 entry mem).2
    · -- another reference: the one that is replaced begins neither with it nor inside it
      obtain ⟨name', spelt', inside, -⟩ := references.2 _ known
      have other : dropLead? ('&' :: (name ++ [';'])) (reference'.toList ++ rest) = none := by
        refine dropLead?_eq_none fun begins => (apart.1 _ known).1 ?_
        rw [← spelt] at begins
        exact references.1.unique (references.2 _ known) begins (List.prefix_append _ _)
      have clean : '&' ∉ name' ++ [';'] := by simpa using inside
      have kept : replaceAll '&' (name ++ [';']) character.toList (reference'.toList ++ rest) =
          reference'.toList ++ replaceAll '&' (name ++ [';']) character.toList rest := by
        rw [spelt', List.cons_append] at other ⊢
        rw [replaceAll_passed other, replaceAll_clean clean, List.cons_append]
      rw [kept]
      exact .taken reference' character' known _ _ ih
  | plain c rest out none_ _ ih =>
    rw [List.forall_mem_cons] at none_
    have other : dropLead? ('&' :: (name ++ [';'])) (c :: rest) = none := by
      rw [← spelt]
      exact dropLead?_eq_none none_.1
    have kept := @replaceAll_passed '&' c (name ++ [';']) character.toList rest other
    rw [kept]
    refine .plain c _ _ (fun entry mem begins => none_.2 entry mem ?_) ih
    rw [← kept] at begins
    exact isPrefix_of_replaceAll characters.1 (apart.1 entry mem).2 begins

theorem foldl {raw : String} (orderly : Orderly entries) (passes : Passes entries raw.toList out) :
    entries.foldl (fun text (reference, character) => replaceText text reference character) raw =
      String.ofList out := by
  induction entries generalizing raw with
  | nil =>
    rw [passes.nothing, String.ofList_toList]
    rfl
  | cons entry entries ih =>
    obtain ⟨reference, character⟩ := entry
    have later : Orderly entries :=
      ⟨fun entry mem => orderly.references entry (List.mem_cons_of_mem _ mem),
        fun entry mem => orderly.characters entry (List.mem_cons_of_mem _ mem),
        (List.pairwise_cons.1 orderly.apart).2⟩
    have step := passes.replaced orderly
    rw [String.ofList_toList] at step
    exact ih later step

end Passes

theorem orderly_table : Orderly table := by
  constructor
  · intro entry mem
    simp only [table, List.mem_cons, List.not_mem_nil, or_false] at mem
    rcases mem with rfl | rfl | rfl | rfl | rfl | rfl | rfl
    · exact ⟨"quot".toList, rfl, by decide, by decide⟩
    · exact ⟨"#34".toList, rfl, by decide, by decide⟩
    · exact ⟨"apos".toList, rfl, by decide, by decide⟩
    · exact ⟨"#39".toList, rfl, by decide, by decide⟩
    · exact ⟨"lt".toList, rfl, by decide, by decide⟩
    · exact ⟨"gt".toList, rfl, by decide, by decide⟩
    · exact ⟨"amp".toList, rfl, by decide, by decide⟩
  · decide
  · simp [table]

/-- A text read once from the left, with each of the seven references taken for its character. -/
def readOnce : List Char → List Char
  | '&' :: 'q' :: 'u' :: 'o' :: 't' :: ';' :: rest => '"' :: readOnce rest
  | '&' :: '#' :: '3' :: '4' :: ';' :: rest => '"' :: readOnce rest
  | '&' :: 'a' :: 'p' :: 'o' :: 's' :: ';' :: rest => '\'' :: readOnce rest
  | '&' :: '#' :: '3' :: '9' :: ';' :: rest => '\'' :: readOnce rest
  | '&' :: 'l' :: 't' :: ';' :: rest => '<' :: readOnce rest
  | '&' :: 'g' :: 't' :: ';' :: rest => '>' :: readOnce rest
  | '&' :: 'a' :: 'm' :: 'p' :: ';' :: rest => '&' :: readOnce rest
  | c :: rest => c :: readOnce rest
  | [] => []

theorem passes_readOnce (cs : List Char) : Passes table cs (readOnce cs) := by
  fun_induction readOnce cs with
  | case1 rest ih => exact .taken "&quot;" "\"" (by decide) rest _ ih
  | case2 rest ih => exact .taken "&#34;" "\"" (by decide) rest _ ih
  | case3 rest ih => exact .taken "&apos;" "'" (by decide) rest _ ih
  | case4 rest ih => exact .taken "&#39;" "'" (by decide) rest _ ih
  | case5 rest ih => exact .taken "&lt;" "<" (by decide) rest _ ih
  | case6 rest ih => exact .taken "&gt;" ">" (by decide) rest _ ih
  | case7 rest ih => exact .taken "&amp;" "&" (by decide) rest _ ih
  | case8 c rest quot numericQuot apos numericApos lt gt amp ih =>
    refine .plain c rest _ (fun entry mem begins => ?_) ih
    obtain ⟨after, whole⟩ := begins
    simp only [table, List.mem_cons, List.not_mem_nil, or_false] at mem
    rcases mem with rfl | rfl | rfl | rfl | rfl | rfl | rfl
    · cases whole
      exact quot _ rfl rfl
    · cases whole
      exact numericQuot _ rfl rfl
    · cases whole
      exact apos _ rfl rfl
    · cases whole
      exact numericApos _ rfl rfl
    · cases whole
      exact lt _ rfl rfl
    · cases whole
      exact gt _ rfl rfl
    · cases whole
      exact amp _ rfl rfl
  | case9 => exact .nil

/-- Decoding reads a text once: nothing that a reference stood for is part of a reference again. -/
theorem decode_once (raw : String) : decode raw = String.ofList (readOnce raw.toList) :=
  Passes.foldl orderly_table (passes_readOnce raw.toList)

/-- A reference to an ampersand is not read on with what follows it, and one around another reference is
none. -/
example : readOnce "&amp;quot;&am&lt;p;".toList = "&quot;&am<p;".toList := by decide

end Playground.Html.Entity
