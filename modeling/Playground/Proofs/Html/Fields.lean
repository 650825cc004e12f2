import Playground.Proofs.Html.Attributes
import Playground.Proofs.Html.References

/-! What the attributes of a tag say once a value has been set. -/

namespace Playground.Html

open RawAttribute

def Element.fields (e : Element) : List (String × Option String) :=
  e.attrs.map fun a => (a.name, a.value)

def RawAttribute.field (a : RawAttribute) : String × Option String :=
  (String.ofList (Text.lower a.name), a.value.map fun v => Entity.decode (String.ofList v.text))

def TagBody.fields (body : TagBody) : List (String × Option String) := body.attrs.map field

def setField (key value : String) : List (String × Option String) → List (String × Option String)
  | [] => [(String.ofList (Text.lower key.toList), some value)]
  | f :: fields =>
    if sameIgnoringCase f.1 key then (f.1, some value) :: fields else f :: setField key value fields

/-- The value of the first field of that name; a bare one has the empty value. -/
def fieldValue? (name : String) (fields : List (String × Option String)) : Option String :=
  (fields.find? fun f => sameIgnoringCase f.1 name).map fun f => f.2.getD ""

theorem Element.fields_ofOpenTag (pos : Nat) (name : List Char) (body : TagBody) :
    (Element.ofOpenTag pos name body).fields = body.fields := by
  have placed : ∀ (attrs : List RawAttribute) (start : Nat),
      (placeAll start attrs).map (fun a => (a.name, a.value)) = attrs.map field := by
    intro attrs
    induction attrs with
    | nil => exact fun _ => rfl
    | cons a attrs ih =>
      intro start
      rw [placeAll, List.map_cons, List.map_cons, ih]
      rfl
  exact placed body.attrs _

theorem Element.attr?_fields (e : Element) (name : String) :
    e.attr? name = fieldValue? name e.fields := by
  rw [Element.attr?, Element.find?, fieldValue?, Element.fields, List.find?_map, Option.map_map]
  rfl

section Set

variable {key value : String} {fields : List (String × Option String)}

theorem fieldValue?_setField : fieldValue? key (setField key value fields) = some value := by
  induction fields with
  | nil =>
    have same : sameIgnoringCase (String.ofList (Text.lower key.toList)) key = true := by
      rw [sameIgnoringCase, String.toList_ofList, lower_lower, beq_self_eq_true]
    rw [setField, fieldValue?, List.find?_cons_of_pos (by exact same)]
    rfl
  | cons f fields ih =>
    rw [setField]
    split
    · next same =>
      rw [fieldValue?, List.find?_cons_of_pos (by exact same)]
      rfl
    · next other =>
      rw [fieldValue?, List.find?_cons_of_neg (by exact other)]
      exact ih

theorem fieldValue?_setField_other {other : String} (different : sameIgnoringCase other key = false) :
    fieldValue? other (setField key value fields) = fieldValue? other fields := by
  have foreign : ∀ name : String, Text.lower name.toList = Text.lower key.toList →
      ¬ sameIgnoringCase name other = true := by
    intro name same here
    rw [sameIgnoringCase, beq_iff_eq] at here
    rw [sameIgnoringCase, beq_eq_false_iff_ne] at different
    exact different (here.symm.trans same)
  induction fields with
  | nil =>
    have added : ¬ sameIgnoringCase (String.ofList (Text.lower key.toList)) other = true :=
      foreign _ (by rw [String.toList_ofList, lower_lower])
    rw [setField, fieldValue?, List.find?_cons_of_neg (by exact added)]
    rfl
  | cons f fields ih =>
    rw [setField]
    split
    · next same =>
      have skipped := foreign f.1 (beq_iff_eq.1 same)
      rw [fieldValue?, fieldValue?, List.find?_cons_of_neg (by exact skipped),
        List.find?_cons_of_neg (by exact skipped)]
    · rw [fieldValue?, fieldValue?, List.find?_cons, List.find?_cons]
      split
      · rfl
      · exact ih

end Set

theorem field_given {key : String} {a : RawAttribute} (named : a.isNamed key = true) (text : List Char) :
    (a.given key.toList text).field = (a.field.1, some (Entity.decode (String.ofList text))) := by
  unfold RawAttribute.given
  split
  · rfl
  · rw [field, field, isNamed_iff.1 named]
    rfl

theorem map_field_give {key : String} {text trail : List Char} {attrs : List RawAttribute}
    (accepts : Accept key text attrs) :
    (give key text trail attrs).1.map field =
      setField key (Entity.decode (String.ofList text)) (attrs.map field) := by
  induction accepts with
  | nil => rfl
  | named a attrs named clean =>
    have same : sameIgnoringCase a.field.1 key = true := named
    rw [give, if_pos named, List.map_cons, List.map_cons, setField, if_pos same, field_given named]
  | other a attrs other shut later ih =>
    have differs : sameIgnoringCase a.field.1 key = false := other
    have open_ : (attrs.isEmpty && a.gapes) = false := by
      cases attrs with
      | nil => exact shut rfl
      | cons b attrs => rfl
    rw [give, other, open_, if_neg Bool.false_ne_true, if_neg Bool.false_ne_true, List.map_cons,
      List.map_cons, setField, differs, if_neg Bool.false_ne_true, ih]

theorem TagBody.fields_given {body : TagBody} {key value : String}
    (accepts : Accept key (Entity.escapeAttribute value).toList body.attrs) :
    (body.given key value).fields = setField key value body.fields := by
  rw [TagBody.fields, TagBody.given, map_field_give accepts, String.ofList_toList,
    Entity.decode_escapeAttribute, TagBody.fields]

theorem AttributesSound.extend {ending : List Char} {attrs : List RawAttribute}
    (sound : AttributesSound ending attrs) (ends : '>' ∈ ending) (tail : List Char) :
    AttributesSound (ending ++ tail) attrs := by
  induction attrs with
  | nil => trivial
  | cons a attrs ih =>
    refine ⟨?_, ih sound.2⟩
    rw [← List.append_assoc, RawAttribute.Reads.append tail (List.mem_append_right _ ends)]
    exact sound.1

theorem read_fields {a : RawAttribute} {cs rest : List Char} {body : TagBody} (reads : a.Reads cs)
    (read : TagBody.read (a.lexeme ++ cs) = some (body, rest)) :
    ∃ later, TagBody.read cs = some (later, rest) ∧ body.fields = a.field :: later.fields := by
  rw [TagBody.read_cons reads] at read
  obtain ⟨⟨later, after⟩, read, same⟩ := Option.map_eq_some_iff.1 read
  cases same
  exact ⟨later, read, rfl⟩

theorem cut_misread {key value : String} {a : RawAttribute} {cs rest rest' : List Char} {body : TagBody}
    (reads : a.Reads cs) (name : IsPlainName key.toList)
    (quoted : a.value.bind RawValue.quote = some '\'') (holds : '\'' ∈ value.toList)
    (read : TagBody.read ((a.given key.toList (Entity.escapeAttribute value).toList).lexeme ++ rest) =
      some (body, rest')) :
    body.fields.head? ≠ some (a.field.1, some value) := by
  obtain ⟨first, last, cut, clean⟩ := List.eq_append_cons_of_mem holds
  let early := (Entity.escapeAttribute (String.ofList first)).toList
  let late := (Entity.escapeAttribute (String.ofList last)).toList
  have escaped : (Entity.escapeAttribute value).toList = early ++ '\'' :: late := by
    simp only [early, late, Entity.escapeAttribute_toList, String.toList_ofList, cut,
      List.flatMap_append, List.flatMap_cons]
    rfl
  obtain ⟨lead, aName, value_⟩ := a
  obtain ⟨v, valued, quote⟩ := Option.bind_eq_some_iff.1 quoted
  obtain ⟨before, q, old⟩ := v
  cases valued
  cases quote
  have whole : (given key.toList (Entity.escapeAttribute value).toList
      ⟨lead, aName, some ⟨before, some '\'', old⟩⟩).lexeme ++ rest =
        (given key.toList early ⟨lead, aName, some ⟨before, some '\'', old⟩⟩).lexeme ++
          (late ++ '\'' :: rest) := by
    simp [escaped, given, RawAttribute.lexeme, valueLexeme, RawValue.lexeme, RawValue.quoteLexeme]
  have unquoted : '"' ∉ early := fun mem =>
    absurd ((Entity.mem_escapeAttribute rfl _).1 mem).1 (by decide)
  have own : '\'' ∉ early := by
    intro mem
    have inside := ((Entity.mem_escapeAttribute rfl _).1 mem).2
    rw [String.toList_ofList] at inside
    exact clean inside
  have reads' := @RawAttribute.Reads.given _ _ early _ (late ++ '\'' :: rest) reads name unquoted
    fun q same => Option.some.inj same ▸ own
  rw [whole] at read
  obtain ⟨later, -, fields⟩ := read_fields reads' read
  have short : String.ofList first ≠ value := by
    intro same
    have lengths := congrArg (fun s => s.toList.length) same
    rw [cut] at lengths
    simp at lengths
  rw [fields, List.head?_cons]
  intro same
  have value' := congrArg (fun f => f.2) (Option.some.inj same)
  simp only [field, given, Option.map_some, early, String.ofList_toList,
    Entity.decode_escapeAttribute] at value'
  exact short (Option.some.inj value')

theorem swallowed_misread {key : List Char} {a : RawAttribute} {cs tail rest : List Char}
    {body : TagBody} (reads : a.Reads cs) (gapes : a.gapes = true) (name : IsPlainName key)
    (read : TagBody.read (a.lexeme ++ ' ' :: (key ++ tail)) = some (body, rest)) :
    body.fields.head? ≠ some a.field := by
  obtain ⟨k, more, rfl⟩ := List.exists_cons_of_ne_nil name.named
  obtain ⟨first, quote⟩ := isAttributeNameChar_tagName (name.chars k List.mem_cons_self)
  have plain := (isUnquotedChar_name first).1
  have ampersand : k ≠ '&' := by
    rintro rfl
    exact absurd (name.chars '&' List.mem_cons_self) (by decide)
  let taken := (more ++ tail).takeWhile isUnquotedChar
  let left := (more ++ tail).dropWhile isUnquotedChar
  have cut : a.lexeme ++ ' ' :: (k :: more ++ tail) = (a.filled (k :: taken)).lexeme ++ left := by
    rw [filled_lexeme gapes, List.append_assoc, List.cons_append, List.cons_append, List.cons_append,
      List.takeWhile_append_dropWhile]
  have chars : ∀ c ∈ k :: taken, isUnquotedChar c = true :=
    List.forall_mem_cons.2 ⟨plain, fun c mem => Text.mem_takeWhile mem⟩
  have reads' : (a.filled (k :: taken)).Reads left :=
    reads.filled gapes chars ⟨k, rfl, quote⟩ fun c head => Text.head?_dropWhile head
  rw [cut] at read
  obtain ⟨later, -, fields⟩ := read_fields reads' read
  rw [fields, List.head?_cons]
  intro same
  have values := congrArg (fun f => f.2) (Option.some.inj same)
  unfold RawAttribute.gapes at gapes
  split at gapes
  · next lead valued =>
    obtain ⟨others, decoded⟩ := Entity.decode_cons ampersand taken
    have nothing : Entity.decode (String.ofList []) = String.ofList [] := by decide +kernel
    simp only [field, filled, valued, Option.map_some, decoded, nothing, Option.some.injEq,
      String.ofList_inj] at values
    cases values
  · cases gapes

theorem fields_misread {key value : String} {trail ending rest : List Char}
    {attrs : List RawAttribute} {body : TagBody} (name : IsPlainName key.toList)
    (sound : AttributesSound (trail ++ ending) attrs)
    (refuses : ¬ Accept key (Entity.escapeAttribute value).toList attrs)
    (read : TagBody.read
      ((give key (Entity.escapeAttribute value).toList trail attrs).1.flatMap RawAttribute.lexeme ++
        ((give key (Entity.escapeAttribute value).toList trail attrs).2 ++ ending)) =
          some (body, rest)) :
    body.fields ≠ setField key value (attrs.map field) := by
  induction attrs generalizing body with
  | nil => exact absurd .nil refuses
  | cons a attrs ih =>
    obtain ⟨reads, later⟩ := sound
    rw [List.map_cons, setField]
    rw [give] at read
    by_cases named : a.isNamed key = true
    · have same : sameIgnoringCase a.field.1 key = true := named
      rw [if_pos named, List.flatMap_cons, List.append_assoc] at read
      rw [if_pos same]
      rw [accept_named named] at refuses
      obtain ⟨q, quoted, mem⟩ : ∃ q, a.value.bind RawValue.quote = some q ∧
          q ∈ (Entity.escapeAttribute value).toList := by simpa using refuses
      obtain ⟨rfl, holds⟩ := (Entity.mem_escapeAttribute (reads.quoted quoted) value).1 mem
      intro fields
      exact cut_misread reads name quoted holds read (by rw [fields, List.head?_cons])
    · have other : ¬ sameIgnoringCase a.field.1 key = true := named
      rw [if_neg named] at read
      rw [if_neg other]
      by_cases last : (attrs.isEmpty && a.gapes) = true
      · rw [if_pos last, List.flatMap_cons, List.flatMap_nil, List.append_nil] at read
        rw [Bool.and_eq_true] at last
        rw [absorb_lexeme last.2, List.append_assoc, List.cons_append, List.append_assoc] at read
        intro fields
        exact swallowed_misread reads last.2 name read (by rw [fields, List.head?_cons])
      · have shut : attrs = [] → a.gapes = false := by
          rintro rfl
          simpa using last
        have refuses' : ¬ Accept key (Entity.escapeAttribute value).toList attrs := by
          intro accepts
          exact refuses (.other a attrs (Bool.eq_false_iff.2 named) shut accepts)
        have closed : a.gapes = false := by
          cases attrs with
          | nil => exact absurd .nil refuses'
          | cons b attrs =>
            refine Bool.eq_false_iff.2 fun gapes => ?_
            have head := reads.gapes_head gapes
            rw [List.flatMap_cons, List.append_assoc] at head
            exact lead_name_not_end later.1 head
        rw [if_neg last, List.flatMap_cons, List.append_assoc] at read
        obtain ⟨body', read', fields⟩ := read_fields (reads.alike (alike_give name later _) closed) read
        have others := ih later refuses' read'
        rw [fields]
        intro same
        exact others (List.cons.inj same).2

theorem TagBody.Sound.fields_misread {key value : String} {body body' : TagBody}
    {rest rest' : List Char} (sound : body.Sound) (name : IsPlainName key.toList)
    (refuses : ¬ Accept key (Entity.escapeAttribute value).toList body.attrs)
    (read : TagBody.read ((body.given key value).lexeme ++ rest) = some (body', rest')) :
    body'.fields ≠ setField key value body.fields := by
  have bracket : (body.given key value).bracket = body.bracket := rfl
  have attributes := sound.attributes.extend (List.mem_append_right body.trail body.mem_bracket) rest
  rw [List.append_assoc] at attributes
  rw [TagBody.lexeme, TagBody.inside, bracket, List.append_assoc, List.append_assoc] at read
  exact Html.fields_misread name attributes refuses read

end Playground.Html
