import Playground.Proofs.Html.Lexing
import Playground.Proofs.Html.Scripts
import Playground.Proofs.Html.Splice

/-! Tags in which an attribute has been given a value, as they are read back. -/

namespace Playground.Html

namespace RawAttribute

def isNamed (key : String) (a : RawAttribute) : Bool :=
  sameIgnoringCase (String.ofList (Text.lower a.name)) key

def written (lead key text : List Char) : RawAttribute := ⟨lead, key, some ⟨['='], some '"', text⟩⟩

def given (key text : List Char) (a : RawAttribute) : RawAttribute :=
  match a.value with
  | some ⟨lead, some q, _⟩ => { a with value := some ⟨lead, some q, text⟩ }
  | _ => written a.lead key text

def gapes (a : RawAttribute) : Bool :=
  match a.value with
  | some ⟨_, none, []⟩ => true
  | _ => false

def filled (text : List Char) (a : RawAttribute) : RawAttribute :=
  { a with value := a.value.map fun v => ⟨v.lead ++ [' '], none, text⟩ }

/-- A gaping attribute that takes what is written after it for its value. -/
def absorb (key text : List Char) (a : RawAttribute) : RawAttribute :=
  { a with
    value := a.value.map fun v =>
      ⟨v.lead ++ [' '], none, key ++ '=' :: '"' :: (text ++ ['"'])⟩ }

def give (key : String) (text trail : List Char) : List RawAttribute → List RawAttribute × List Char
  | [] => ([written (trail ++ [' ']) key.toList text], [])
  | a :: attrs =>
    if a.isNamed key then (a.given key.toList text :: attrs, trail)
    else if attrs.isEmpty && a.gapes then ([a.absorb key.toList text], trail)
    else (a :: (give key text trail attrs).1, (give key text trail attrs).2)

end RawAttribute

open RawAttribute

def TagBody.given (key value : String) (body : TagBody) : TagBody :=
  let text := (Entity.escapeAttribute value).toList
  let (attrs, trail) := give key text body.trail body.attrs
  { body with attrs := attrs, trail := trail }

theorem written_lexeme (lead key text : List Char) :
    (written lead key text).lexeme = lead ++ (key ++ '=' :: '"' :: (text ++ ['"'])) := by
  simp [written, RawAttribute.lexeme, valueLexeme, RawValue.lexeme, RawValue.quoteLexeme]

theorem filled_lexeme {text : List Char} {a : RawAttribute} (gapes : a.gapes = true) :
    (a.filled text).lexeme = a.lexeme ++ ' ' :: text := by
  obtain ⟨lead, name, value⟩ := a
  unfold RawAttribute.gapes at gapes
  dsimp only at gapes
  split at gapes
  · simp [filled, RawAttribute.lexeme, valueLexeme, RawValue.lexeme, RawValue.quoteLexeme]
  · cases gapes

theorem absorb_lexeme {key text : List Char} {a : RawAttribute} (gapes : a.gapes = true) :
    (a.absorb key text).lexeme = a.lexeme ++ ' ' :: (key ++ '=' :: '"' :: (text ++ ['"'])) :=
  filled_lexeme gapes

theorem written_text (key : String) (value : String) :
    (key ++ "=\"" ++ Entity.escapeAttribute value ++ "\"").toList =
      key.toList ++ '=' :: '"' :: ((Entity.escapeAttribute value).toList ++ ['"']) := by
  have quote : "\"".toList = ['"'] := rfl
  have open_ : "=\"".toList = ['=', '"'] := rfl
  rw [String.toList_append, String.toList_append, String.toList_append, quote, open_]
  simp

theorem given_turns (pos tagEnd : Nat) (key value : String) (a : RawAttribute) :
    (Edit.giveAttr (some (a.place pos)) tagEnd key value).Turns pos a.lexeme
      (a.given key.toList (Entity.escapeAttribute value).toList).lexeme := by
  have text := written_text key value
  obtain ⟨lead, name, value_⟩ := a
  rcases value_ with _ | ⟨before, _ | q, content⟩
  · refine ⟨lead, name, [], by simp [RawAttribute.lexeme, valueLexeme], ?_, ?_⟩
    · simp [Edit.giveAttr, place, valueLexeme]
    · simp only [Edit.giveAttr, place, Option.map_none, given, written_lexeme, text,
        List.append_nil]
  · refine ⟨lead, name ++ before ++ content, [], ?_, ?_, ?_⟩
    · simp [RawAttribute.lexeme, valueLexeme, RawValue.lexeme, RawValue.quoteLexeme]
    · simp [Edit.giveAttr, place, valueLexeme, RawValue.lexeme, RawValue.quoteLexeme]
      omega
    · simp only [Edit.giveAttr, place, Option.map_some, Option.bind_some, Option.isSome_none, given,
        written_lexeme, text, List.append_nil]
  · refine ⟨lead ++ name ++ before ++ [q], content, [q], ?_, ?_, ?_⟩
    · simp [RawAttribute.lexeme, valueLexeme, RawValue.lexeme, RawValue.quoteLexeme]
    · simp [Edit.giveAttr, place, RawValue.quoteLexeme]
      omega
    · simp [Edit.giveAttr, place, given, RawAttribute.lexeme, valueLexeme, RawValue.lexeme,
        RawValue.quoteLexeme]

/-- The edit puts its text where the tag as it is read afterwards has it. A gaping attribute can
only be the last thing before the bracket. -/
theorem give_turns {trail : List Char} {attrs : List RawAttribute} (pos : Nat) (key value : String)
    (shut : ∀ a, attrs.getLast? = some a → a.gapes = true → trail = []) :
    (Edit.giveAttr ((placeAll pos attrs).find? fun a => sameIgnoringCase a.name key)
        (pos + Text.size (attrs.flatMap RawAttribute.lexeme ++ trail)) key value).Turns pos
      (attrs.flatMap RawAttribute.lexeme ++ trail)
      ((give key (Entity.escapeAttribute value).toList trail attrs).1.flatMap RawAttribute.lexeme ++
        (give key (Entity.escapeAttribute value).toList trail attrs).2) := by
  have space : " ".toList = [' '] := rfl
  have text : (" " ++ (key ++ "=\"" ++ Entity.escapeAttribute value ++ "\"")).toList =
      ' ' :: (key.toList ++ '=' :: '"' :: ((Entity.escapeAttribute value).toList ++ ['"'])) := by
    rw [String.toList_append, written_text, space]
    rfl
  induction attrs generalizing pos with
  | nil =>
    refine ⟨trail, [], [], by simp, by simp [placeAll, Edit.giveAttr, Edit.insert], ?_⟩
    simp only [give, List.flatMap_cons, List.flatMap_nil, written_lexeme, List.append_nil, placeAll,
      List.find?_nil, Edit.giveAttr, Edit.insert, text]
    simp
  | cons a attrs ih =>
    have named : sameIgnoringCase (a.place pos).name key = a.isNamed key := rfl
    rw [placeAll, give]
    cases is : a.isNamed key with
    | true =>
      rw [List.find?_cons_of_pos (by rw [named, is]), if_pos rfl]
      have here := given_turns pos (pos + Text.size ((a :: attrs).flatMap RawAttribute.lexeme ++ trail))
        key value a
      have around := Edit.Turns.around [] (attrs.flatMap RawAttribute.lexeme ++ trail) here
      simpa using around
    | false =>
      rw [List.find?_cons_of_neg (by rw [named, is]; simp), if_neg Bool.false_ne_true]
      cases attrs with
      | nil =>
        cases open_ : a.gapes with
        | true =>
          rw [shut a rfl open_]
          refine ⟨a.lexeme, [], [], by simp, by simp [placeAll, Edit.giveAttr, Edit.insert], ?_⟩
          simp only [List.isEmpty_nil, Bool.and_self, if_true, List.flatMap_cons, List.flatMap_nil,
            absorb_lexeme open_, placeAll, List.find?_nil, Edit.giveAttr, Edit.insert, text,
            List.append_nil]
        | false =>
          have later := (ih (pos + Text.size a.lexeme) (by simp)).around a.lexeme []
          simpa [Nat.add_assoc] using later
      | cons b attrs =>
        have later := (ih (pos + Text.size a.lexeme) (fun c last => shut c last)).around a.lexeme []
        simpa [Nat.add_assoc] using later

/-- What follows an attribute may be exchanged without changing how the attribute is read. -/
structure Alike (rest rest' : List Char) : Prop where
  names : (∀ c, rest.head? = some c → isAttributeNameChar c = false) →
    ∀ c, rest'.head? = some c → isAttributeNameChar c = false
  values : NoValue rest → NoValue rest'
  plain : (∀ c, rest.head? = some c → isUnquotedChar c = false) →
    ∀ c, rest'.head? = some c → isUnquotedChar c = false

theorem isUnquotedChar_name {c : Char} (name : isAttributeNameChar c = true) :
    isUnquotedChar c = true ∧ isMarkupBlank c = false ∧ c ≠ '=' := by
  simp only [isAttributeNameChar, isUnquotedChar, Bool.and_eq_true, Bool.not_eq_true',
    bne_iff_ne] at name ⊢
  exact ⟨⟨name.1.1.1, name.1.2⟩, name.1.1.1, name.1.1.2⟩

theorem alike_name {lead r r' : List Char} {c c' : Char} (name : isAttributeNameChar c = true)
    (name' : isAttributeNameChar c' = true) : Alike (lead ++ c :: r) (lead ++ c' :: r') := by
  obtain ⟨plain, blank, equals⟩ := isUnquotedChar_name name
  obtain ⟨plain', blank', equals'⟩ := isUnquotedChar_name name'
  have values : NoValue (lead ++ c :: r) → NoValue (lead ++ c' :: r') := by
    unfold NoValue
    rw [List.dropWhile_append, List.dropWhile_append]
    cases lead.dropWhile isMarkupBlank with
    | nil => simp [blank', equals']
    | cons d more => simp
  cases lead with
  | nil =>
    refine ⟨fun none_ => ?_, values, fun none_ => ?_⟩
    · rw [none_ c rfl] at name
      cases name
    · rw [none_ c rfl] at plain
      cases plain
  | cons d lead => exact ⟨fun none_ => none_, values, fun none_ => none_⟩

theorem alike_blank (lead rest : List Char) {r : List Char} {c : Char}
    (name : isAttributeNameChar c = true) :
    Alike (lead ++ rest) (lead ++ ' ' :: c :: r) := by
  obtain ⟨-, blank, equals⟩ := isUnquotedChar_name name
  have values : NoValue (lead ++ rest) → NoValue (lead ++ ' ' :: c :: r) := by
    have space : isMarkupBlank ' ' = true := by decide
    unfold NoValue
    rw [List.dropWhile_append, List.dropWhile_append]
    cases lead.dropWhile isMarkupBlank with
    | nil => simp [space, blank, equals]
    | cons d more => simp
  cases lead with
  | nil =>
    refine ⟨fun _ d head => ?_, values, fun _ d head => ?_⟩
    · cases head
      decide
    · cases head
      decide
  | cons d lead => exact ⟨fun none_ => none_, values, fun none_ => none_⟩

theorem RawAttribute.Reads.alike {a : RawAttribute} {rest rest' : List Char} (reads : a.Reads rest)
    (alike : Alike rest rest') (shut : a.gapes = false) : a.Reads rest' := by
  obtain ⟨leads, named, plain, stops, value⟩ := reads
  refine ⟨leads, named, plain, ?_, ?_⟩
  · intro c head
    cases valued : a.value with
    | none =>
      rw [valued] at stops head
      exact alike.names stops c head
    | some v =>
      rw [valued] at value stops head
      have some_ : valueText (some v) ≠ [] := by
        cases value <;> simp [valueText, RawValue.lexeme]
      obtain ⟨d, more, cut⟩ := List.exists_cons_of_ne_nil some_
      rw [cut] at stops head
      exact stops c head
  · cases valued : a.value with
    | none =>
      rw [valued] at value
      cases value with
      | bare _ ends => exact .bare _ (alike.values ends)
    | some v =>
      rw [valued] at value
      cases value with
      | quoted before after text _ q blank blank' quote clean =>
        exact .quoted before after text rest' q blank blank' quote clean
      | unquoted before after text _ blank blank' chars ends first =>
        refine .unquoted before after text rest' blank blank' chars (alike.plain ends) ?_
        cases text with
        | nil => simp [gapes, valued] at shut
        | cons d text => exact first

theorem RawAttribute.Reads.gapes_head {a : RawAttribute} {rest : List Char} (reads : a.Reads rest)
    (gapes : a.gapes = true) : rest.head? = some '>' := by
  have value := reads.value
  unfold RawAttribute.gapes at gapes
  split at gapes
  · next lead valued =>
    rw [valued] at value
    cases value with
    | unquoted before after _ _ blank blank' chars ends first =>
      obtain ⟨c, head, -, visible⟩ := first
      have plain := ends c head
      simp only [isUnquotedChar, visible, Bool.not_false, Bool.true_and, bne_eq_false_iff_eq]
        at plain
      rw [← plain]
      exact head
  · cases gapes

structure IsPlainName (key : List Char) : Prop where
  named : key ≠ []
  chars : ∀ c ∈ key, isTagNameChar c = true

theorem isAttributeNameChar_tagName {c : Char} (name : isTagNameChar c = true) :
    isAttributeNameChar c = true ∧ isQuote c = false := by
  have marks : [' ', '\t', '\n', '\x0c', '\r', '=', '>', '/', '"', '\''].all
      (fun d => !isTagNameChar d) = true := by decide
  have other : c ∉ [' ', '\t', '\n', '\x0c', '\r', '=', '>', '/', '"', '\''] := by
    intro mem
    have none_ := List.all_eq_true.1 marks c mem
    rw [name] at none_
    cases none_
  simp only [List.mem_cons, List.not_mem_nil, or_false, not_or] at other
  simp [isAttributeNameChar, isMarkupBlank, isQuote, other]

theorem IsPlainName.attribute {key : List Char} (name : IsPlainName key) :
    ∀ c ∈ key, isAttributeNameChar c = true :=
  fun c mem => (isAttributeNameChar_tagName (name.chars c mem)).1

/-- What an edit may put into a tag whatever stands there: no quotes, blanks or brackets. -/
def IsPlainValue (text : List Char) : Prop := ∀ c ∈ text, isUnquotedChar c = true ∧ isQuote c = false

theorem IsPlainValue.clean {text : List Char} (plain : IsPlainValue text) {q : Char}
    (quote : isQuote q = true) : q ∉ text := by
  intro mem
  rw [(plain q mem).2] at quote
  cases quote

theorem reads_written {lead key text rest : List Char}
    (leads : ∀ c ∈ lead, isLeadChar c = true) (name : IsPlainName key) (clean : '"' ∉ text) :
    (written lead key text).Reads rest := by
  refine ⟨leads, name.named, name.attribute, ?_, ?_⟩
  · rintro c ⟨⟩
    decide
  · exact .quoted [] [] text rest '"' (by simp [AllBlank]) (by simp [AllBlank]) (by decide) clean

/-- Attributes that take a text for a value as it is: where one goes by the name, the text does not
hold its quote, and otherwise the last one does not gape. -/
inductive RawAttribute.Accept (key : String) (text : List Char) : List RawAttribute → Prop
  | nil : Accept key text []
  | named (a : RawAttribute) (attrs : List RawAttribute) (named : a.isNamed key = true)
      (clean : ∀ q, a.value.bind RawValue.quote = some q → q ∉ text) : Accept key text (a :: attrs)
  | other (a : RawAttribute) (attrs : List RawAttribute) (other : a.isNamed key = false)
      (shut : attrs = [] → a.gapes = false) (later : Accept key text attrs) :
      Accept key text (a :: attrs)

section Accept

variable {key : String} {text : List Char} {a : RawAttribute} {attrs : List RawAttribute}

theorem accept_named (named : a.isNamed key = true) :
    Accept key text (a :: attrs) ↔ ∀ q, a.value.bind RawValue.quote = some q → q ∉ text := by
  constructor
  · intro accepts
    cases accepts with
    | named _ _ _ clean => exact clean
    | other _ _ other => cases named.symm.trans other
  · exact .named a attrs named

theorem accept_other (other : a.isNamed key = false) :
    Accept key text (a :: attrs) ↔ (attrs = [] → a.gapes = false) ∧ Accept key text attrs := by
  constructor
  · intro accepts
    cases accepts with
    | named _ _ named => cases named.symm.trans other
    | other _ _ _ shut later => exact ⟨shut, later⟩
  · exact fun ⟨shut, later⟩ => .other a attrs other shut later

end Accept

theorem RawAttribute.Reads.quoted {a : RawAttribute} {rest : List Char} {q : Char}
    (reads : a.Reads rest) (own : a.value.bind RawValue.quote = some q) : isQuote q = true := by
  have value := reads.value
  obtain ⟨v, valued, quoted⟩ := Option.bind_eq_some_iff.1 own
  rw [valued] at value
  cases value with
  | quoted before after text _ q' blank blank' quote clean =>
    cases quoted
    exact quote
  | unquoted => cases quoted

theorem RawAttribute.Reads.given {a : RawAttribute} {key text rest rest' : List Char}
    (reads : a.Reads rest) (name : IsPlainName key) (clean : '"' ∉ text)
    (own : ∀ q, a.value.bind RawValue.quote = some q → q ∉ text) : (a.given key text).Reads rest' := by
  have value := reads.value
  unfold RawAttribute.given
  split
  · next lead q old valued =>
    rw [valued] at value own
    cases value with
    | quoted before after _ _ _ blank blank' quote _ =>
      have stops := reads.stops
      rw [valued] at stops
      refine ⟨reads.leads, reads.named, reads.plain, ?_, ?_⟩
      · intro c head
        apply stops c
        cases before <;> exact head
      · exact .quoted before after text rest' q blank blank' quote (own q rfl)
  · exact reads_written reads.leads name clean

theorem RawAttribute.Reads.filled {a : RawAttribute} {text rest rest' : List Char}
    (reads : a.Reads rest) (gapes : a.gapes = true) (chars : ∀ c ∈ text, isUnquotedChar c = true)
    (first : ∃ c, text.head? = some c ∧ isQuote c = false)
    (ends : ∀ c, rest'.head? = some c → isUnquotedChar c = false) : (a.filled text).Reads rest' := by
  obtain ⟨leads, named, nameChars, stops, value⟩ := reads
  obtain ⟨lead, aName, value_⟩ := a
  unfold RawAttribute.gapes at gapes
  dsimp only at gapes leads named nameChars stops value
  split at gapes
  · next lead' =>
    cases value with
    | unquoted before after _ _ blank blank' _ _ _ =>
      refine ⟨leads, named, nameChars, ?_, ?_⟩
      · intro c head
        apply stops c
        cases before <;> exact head
      · have space : AllBlank (after ++ [' ']) := by
          intro c mem
          rcases List.mem_append.1 mem with mem | mem
          · exact blank' c mem
          · rw [List.mem_singleton.1 mem]
            decide
        obtain ⟨c, head, quote⟩ := first
        obtain ⟨more, rfl⟩ := List.head?_eq_some_iff.1 head
        have visible : isMarkupBlank c = false := by
          have plain := chars c List.mem_cons_self
          rw [isUnquotedChar, Bool.and_eq_true, Bool.not_eq_true'] at plain
          exact plain.1
        have value' : RawValue.Reads (some ⟨before ++ '=' :: (after ++ [' ']), none, c :: more⟩) rest' :=
          .unquoted before (after ++ [' ']) _ rest' blank space chars ends ⟨c, rfl, quote, visible⟩
        have same : before ++ '=' :: (after ++ [' ']) = before ++ '=' :: after ++ [' '] := by simp
        rw [same] at value'
        exact value'
  · cases gapes

theorem RawAttribute.Reads.absorb {a : RawAttribute} {key text rest : List Char} (reads : a.Reads rest)
    (gapes : a.gapes = true) (name : IsPlainName key) (plain : IsPlainValue text) :
    (a.absorb key text).Reads rest := by
  have ends := reads.gapes_head gapes
  refine reads.filled gapes ?_ ?_ ?_
  · intro c mem
    rcases List.mem_append.1 mem with mem | mem
    · exact (isUnquotedChar_name (name.attribute c mem)).1
    · simp only [List.mem_cons, List.mem_append, List.not_mem_nil, or_false] at mem
      rcases mem with rfl | rfl | mem | rfl
      · decide
      · decide
      · exact (plain c mem).1
      · decide
  · obtain ⟨k, more, rfl⟩ := List.exists_cons_of_ne_nil name.named
    exact ⟨k, rfl, (isAttributeNameChar_tagName (name.chars k List.mem_cons_self)).2⟩
  · intro c head
    rw [ends] at head
    cases head
    decide

theorem lead_name_not_end {a : RawAttribute} {rest tail : List Char} (reads : a.Reads rest) :
    (a.lexeme ++ tail).head? ≠ some '>' := by
  obtain ⟨lead, name, value⟩ := a
  obtain ⟨leads, named, chars, -, -⟩ := reads
  dsimp only at leads named chars
  cases lead with
  | nil =>
    obtain ⟨c, more, rfl⟩ := List.exists_cons_of_ne_nil named
    rintro ⟨⟩
    have first := chars '>' List.mem_cons_self
    cases first
  | cons c lead =>
    rintro ⟨⟩
    have first := leads '>' List.mem_cons_self
    cases first

theorem given_lead (key text : List Char) (a : RawAttribute) :
    (a.given key text).lead = a.lead ∧
      ((a.given key text).name = a.name ∨ (a.given key text).name = key) := by
  unfold RawAttribute.given
  split
  · exact ⟨rfl, .inl rfl⟩
  · exact ⟨rfl, .inr rfl⟩

theorem exists_head_lexeme {a : RawAttribute} (named : a.name ≠ [])
    (chars : ∀ c ∈ a.name, isAttributeNameChar c = true) (tail : List Char) :
    ∃ c r, a.lexeme ++ tail = a.lead ++ c :: r ∧ isAttributeNameChar c = true := by
  obtain ⟨c, more, name⟩ := List.exists_cons_of_ne_nil named
  refine ⟨c, more ++ (a.valueLexeme ++ tail), ?_, chars c (by rw [name]; exact List.mem_cons_self)⟩
  simp [RawAttribute.lexeme, name]

theorem give_head (key : String) (text trail : List Char) (a : RawAttribute)
    (attrs : List RawAttribute) :
    ∃ b more, (give key text trail (a :: attrs)).1 = b :: more ∧ b.lead = a.lead ∧
      (b.name = a.name ∨ a.isNamed key = true ∧ b.name = key.toList) := by
  rw [give]
  split
  · next named =>
    obtain ⟨lead, name⟩ := given_lead key.toList text a
    exact ⟨_, _, rfl, lead, name.imp_right fun same => ⟨named, same⟩⟩
  · split
    · exact ⟨_, _, rfl, rfl, .inl rfl⟩
    · exact ⟨_, _, rfl, rfl, .inl rfl⟩

theorem alike_give {key : String} {trail ending : List Char} {attrs : List RawAttribute}
    (name : IsPlainName key.toList) (sound : AttributesSound (trail ++ ending) attrs)
    (text : List Char) :
    Alike (attrs.flatMap RawAttribute.lexeme ++ (trail ++ ending))
      ((give key text trail attrs).1.flatMap RawAttribute.lexeme ++
        ((give key text trail attrs).2 ++ ending)) := by
  cases attrs with
  | nil =>
    obtain ⟨k, more, key_⟩ := List.exists_cons_of_ne_nil name.named
    have first := name.attribute k (by rw [key_]; exact List.mem_cons_self)
    have alike := alike_blank trail ending
      (r := more ++ '=' :: '"' :: (text ++ '"' :: ending)) first
    simpa [give, written_lexeme, key_] using alike
  | cons a attrs =>
    obtain ⟨b, more, given, lead, name'⟩ := give_head key text trail a attrs
    have reads := sound.1
    obtain ⟨c, r, cut, first⟩ := exists_head_lexeme reads.named reads.plain
      (attrs.flatMap RawAttribute.lexeme ++ (trail ++ ending))
    have named : b.name ≠ [] ∧ ∀ c ∈ b.name, isAttributeNameChar c = true := by
      rcases name' with same | ⟨-, same⟩
      · rw [same]
        exact ⟨reads.named, reads.plain⟩
      · rw [same]
        exact ⟨name.named, name.attribute⟩
    obtain ⟨c', r', cut', first'⟩ := exists_head_lexeme named.1 named.2
      (more.flatMap RawAttribute.lexeme ++ ((give key text trail (a :: attrs)).2 ++ ending))
    rw [given, List.flatMap_cons, List.flatMap_cons, List.append_assoc, List.append_assoc, cut, cut',
      lead]
    exact alike_name first first'

theorem give_sound {key : String} {text trail ending : List Char} {attrs : List RawAttribute}
    (name : IsPlainName key.toList) (clean : '"' ∉ text)
    (fits : Accept key text attrs ∨ IsPlainValue text)
    (sound : AttributesSound (trail ++ ending) attrs) (lead : IsLead trail ending) :
    AttributesSound ((give key text trail attrs).2 ++ ending) (give key text trail attrs).1 ∧
      IsLead (give key text trail attrs).2 ending := by
  induction attrs with
  | nil =>
    have leads : ∀ c ∈ trail ++ [' '], isLeadChar c = true := by
      intro c mem
      rcases List.mem_append.1 mem with mem | mem
      · exact lead.1 c mem
      · rw [List.mem_singleton.1 mem]
        decide
    have none_ : (give key text trail []).2 = [] := rfl
    rw [none_]
    exact ⟨⟨reads_written leads name clean, trivial⟩, by simp, by simp, lead.2.2⟩
  | cons a attrs ih =>
    obtain ⟨reads, later⟩ := sound
    rw [give]
    split
    · next named =>
      refine ⟨⟨reads.given name clean fun q own => ?_, later⟩, lead⟩
      rcases fits with accepts | plain
      · exact (accept_named named).1 accepts q own
      · exact plain.clean (reads.quoted own)
    · next other =>
      rw [accept_other (Bool.eq_false_iff.2 other)] at fits
      have fits' : Accept key text attrs ∨ IsPlainValue text := fits.imp_left fun accepts => accepts.2
      split
      · next last =>
        simp only [Bool.and_eq_true, List.isEmpty_iff] at last
        obtain ⟨rfl, gapes⟩ := last
        have plain : IsPlainValue text := by
          refine fits.resolve_left fun accepts => ?_
          rw [accepts.1 rfl] at gapes
          cases gapes
        have head := reads.gapes_head gapes
        cases trail with
        | nil => exact ⟨⟨reads.absorb gapes name plain, trivial⟩, lead⟩
        | cons c trail =>
          cases head
          have skipped := lead.1 '>' List.mem_cons_self
          cases skipped
      · next middle =>
        obtain ⟨later', lead'⟩ := ih fits' later
        refine ⟨⟨reads.alike (alike_give name later text) ?_, later'⟩, lead'⟩
        cases gapes : a.gapes with
        | false => rfl
        | true =>
          have head := reads.gapes_head gapes
          cases attrs with
          | nil => simp [gapes] at middle
          | cons b attrs =>
            rw [List.flatMap_cons, List.append_assoc] at head
            exact absurd head (lead_name_not_end later.1)

theorem AttributesSound.shut {trail ending : List Char} {attrs : List RawAttribute}
    (sound : AttributesSound (trail ++ ending) attrs) (leads : ∀ c ∈ trail, isLeadChar c = true)
    {a : RawAttribute} (last : attrs.getLast? = some a) (gapes : a.gapes = true) : trail = [] := by
  induction attrs with
  | nil => cases last
  | cons b attrs ih =>
    cases attrs with
    | nil =>
      cases last
      have head := sound.1.gapes_head gapes
      cases trail with
      | nil => rfl
      | cons c trail =>
        cases head
        have skipped := leads '>' List.mem_cons_self
        cases skipped
    | cons d attrs => exact ih sound.2 last

def IsUpper (c : Char) : Prop := c.val ≥ 'A'.val ∧ c.val ≤ 'Z'.val

theorem IsUpper.toLower {c : Char} (upper : IsUpper c) :
    c.toLower.val = c.val + ('a'.val - 'A'.val) :=
  congrArg Char.val (dif_pos upper)

theorem toLower_of_not_isUpper {c : Char} (other : ¬ IsUpper c) : c.toLower = c := dif_neg other

theorem isTagNameChar_lower {c : Char} (name : isTagNameChar c.toLower = true) :
    isTagNameChar c = true := by
  by_cases upper : IsUpper c
  · have letter : isAsciiLetter c = true := by
      simp only [isAsciiLetter, Bool.or_eq_true, Bool.and_eq_true, decide_eq_true_eq]
      right
      exact upper
    simp [isTagNameChar, letter]
  · rwa [toLower_of_not_isUpper upper] at name

theorem IsUpper.isAsciiLetter {c : Char} (upper : IsUpper c) : isAsciiLetter c.toLower = true := by
  have first : 'A'.val.toNat ≤ c.val.toNat := UInt32.le_iff_toNat_le.1 upper.1
  have last : c.val.toNat ≤ 'Z'.val.toNat := UInt32.le_iff_toNat_le.1 upper.2
  have bounds : 'A'.val.toNat = 65 ∧ 'Z'.val.toNat = 90 ∧ 'a'.val.toNat = 97 ∧ 'z'.val.toNat = 122 :=
    ⟨rfl, rfl, rfl, rfl⟩
  have sum : (c.val + ('a'.val - 'A'.val)).toNat = c.val.toNat + 32 := by
    have gap : ('a'.val - 'A'.val).toNat = 32 := rfl
    rw [UInt32.toNat_add]
    omega
  simp only [Playground.isAsciiLetter, Bool.or_eq_true, Bool.and_eq_true, decide_eq_true_eq,
    Char.le_def, upper.toLower]
  left
  rw [UInt32.le_iff_toNat_le, UInt32.le_iff_toNat_le, sum]
  omega

theorem isTagNameChar_toLower {c : Char} (name : isTagNameChar c = true) :
    isTagNameChar c.toLower = true := by
  by_cases upper : IsUpper c
  · simp only [isTagNameChar, upper.isAsciiLetter, Bool.true_or]
  · rwa [toLower_of_not_isUpper upper]

theorem head_of_isNamed {key : String} {a : RawAttribute} (name : IsPlainName key.toList)
    (named : a.isNamed key = true) : ∃ c more, a.name = c :: more ∧ isTagNameChar c = true := by
  obtain ⟨k, rest, key_⟩ := List.exists_cons_of_ne_nil name.named
  have first := name.chars k (by rw [key_]; exact List.mem_cons_self)
  simp only [isNamed, sameIgnoringCase, beq_iff_eq, String.toList_ofList, key_] at named
  cases names : a.name with
  | nil => simp [names, Text.lower] at named
  | cons c more =>
    simp only [names, Text.lower, List.map_cons, List.cons.injEq] at named
    refine ⟨c, more, rfl, isTagNameChar_lower (isTagNameChar_lower ?_)⟩
    rw [named.1]
    exact isTagNameChar_toLower first

theorem TagStart.given_stops {tag : List Char} {body : TagBody} {key : String}
    (begins : TagStart tag body) (name : IsPlainName key.toList) (value : String) :
    ∀ c, (body.given key value).lexeme.head? = some c → isTagNameChar c = false := by
  obtain ⟨letter, chars, stops, sound⟩ := begins
  obtain ⟨attrs, trail, selfClosing⟩ := body
  simp only [TagBody.lexeme, TagBody.inside] at stops
  simp only [TagBody.given, TagBody.lexeme, TagBody.inside]
  cases attrs with
  | nil =>
    intro c head
    cases trail with
    | nil =>
      cases head
      decide
    | cons d trail =>
      cases head
      exact stops _ rfl
  | cons a attrs =>
    obtain ⟨b, more, given, lead, name'⟩ :=
      give_head key (Entity.escapeAttribute value).toList trail a attrs
    rw [given]
    have reads := sound.attributes.1
    cases skipped : a.lead with
    | cons c rest =>
      simpa [RawAttribute.lexeme, lead, skipped] using stops
    | nil =>
      obtain ⟨c, rest, named⟩ := List.exists_cons_of_ne_nil reads.named
      have stop : isTagNameChar c = false :=
        stops c (by simp [RawAttribute.lexeme, skipped, named])
      rcases name' with same | ⟨is, -⟩
      · simp [RawAttribute.lexeme, lead, skipped, same, named, stop]
      · obtain ⟨d, _, named', first⟩ := head_of_isNamed name is
        rw [named, List.cons.injEq] at named'
        rw [← named'.1, stop] at first
        cases first

theorem TagStart.given_of_fits {tag : List Char} {body : TagBody} {key value : String}
    (begins : TagStart tag body) (name : IsPlainName key.toList)
    (clean : '"' ∉ (Entity.escapeAttribute value).toList)
    (fits : Accept key (Entity.escapeAttribute value).toList body.attrs ∨
      IsPlainValue (Entity.escapeAttribute value).toList) : TagStart tag (body.given key value) :=
  have fine := give_sound name clean fits begins.sound.attributes begins.sound.trail
  ⟨begins.letter, begins.chars, begins.given_stops name value, fine.1, fine.2⟩

theorem TagStart.given {tag : List Char} {body : TagBody} {key value : String}
    (begins : TagStart tag body) (name : IsPlainName key.toList)
    (plain : IsPlainValue (Entity.escapeAttribute value).toList) :
    TagStart tag (body.given key value) :=
  begins.given_of_fits name (plain.clean (by decide)) (.inr plain)

theorem setAttr_turns {tag : List Char} {body : TagBody} (begins : TagStart tag body) (pos : Nat)
    (key value : String) :
    (Edit.setAttr (Element.ofOpenTag pos tag body) key value).Turns pos
        (Token.openTag tag body).lexeme (Token.openTag tag (body.given key value)).lexeme ∧
      pos < (Edit.setAttr (Element.ofOpenTag pos tag body) key value).span.start ∧
      (Edit.setAttr (Element.ofOpenTag pos tag body) key value).span.start <
        pos + Text.size (Token.openTag tag body).lexeme := by
  have bracket : 0 < Text.size body.bracket := by
    unfold TagBody.bracket
    split <;> decide
  have inside := give_turns (pos + Text.size ('<' :: tag)) key value fun a last gapes =>
    begins.sound.attributes.shut begins.sound.trail.1 last gapes
  have angle : '<'.utf8Size = 1 := by decide
  have place : pos + Text.size ('<' :: tag) = pos + 1 + Text.size tag := by
    rw [Text.size_cons, angle]
    omega
  have edit : Edit.setAttr (Element.ofOpenTag pos tag body) key value =
      Edit.giveAttr ((placeAll (pos + Text.size ('<' :: tag)) body.attrs).find? fun a =>
          sameIgnoringCase a.name key)
        (pos + Text.size ('<' :: tag) +
          Text.size (body.attrs.flatMap RawAttribute.lexeme ++ body.trail)) key value := by
    rw [place]
    rfl
  rw [← edit] at inside
  have bounds := inside.bounds
  refine ⟨?_, ?_, ?_⟩
  · have around := inside.around ('<' :: tag) body.bracket
    exact around
  · rw [Text.size_cons] at bounds
    omega
  · rw [Token.lexeme, TagBody.lexeme, TagBody.inside, Text.size_append, Text.size_append]
    omega

theorem toLower_toLower (c : Char) : c.toLower.toLower = c.toLower := by
  by_cases upper : IsUpper c
  · have high : c.val.toNat ≥ 'A'.val.toNat := UInt32.le_iff_toNat_le.1 upper.1
    have low : c.val.toNat ≤ 'Z'.val.toNat := UInt32.le_iff_toNat_le.1 upper.2
    have bounds : 'A'.val.toNat = 65 ∧ 'Z'.val.toNat = 90 ∧ ('a'.val - 'A'.val).toNat = 32 :=
      ⟨rfl, rfl, rfl⟩
    apply toLower_of_not_isUpper
    intro again
    have small := UInt32.le_iff_toNat_le.1 again.2
    rw [upper.toLower, UInt32.toNat_add] at small
    omega
  · rw [toLower_of_not_isUpper upper, toLower_of_not_isUpper upper]

theorem lower_lower (cs : List Char) : Text.lower (Text.lower cs) = Text.lower cs := by
  simp only [Text.lower, List.map_map, Function.comp_def, toLower_toLower]

theorem isNamed_iff {key : String} {a : RawAttribute} :
    a.isNamed key = true ↔ Text.lower a.name = Text.lower key.toList := by
  rw [isNamed, sameIgnoringCase, String.toList_ofList, lower_lower, beq_iff_eq]

def RawAttribute.meaning (a : RawAttribute) : String :=
  (a.value.map fun v => Entity.decode (String.ofList v.text)).getD ""

theorem meaning_of_gapes {a : RawAttribute} (gapes : a.gapes = true) : a.meaning = "" := by
  have nothing : Entity.decode (String.ofList []) = "" := by decide +kernel
  unfold RawAttribute.gapes at gapes
  split at gapes
  · next lead valued => rw [meaning, valued, Option.map_some, nothing, Option.getD_some]
  · cases gapes

theorem give_find? {key other : String} {text trail : List Char} {attrs : List RawAttribute}
    (different : Text.lower other.toList ≠ Text.lower key.toList)
    (some_ : (attrs.find? (isNamed other)).map meaning ≠ some "") :
    ((give key text trail attrs).1.find? (isNamed other)).map meaning =
      (attrs.find? (isNamed other)).map meaning := by
  have foreign : ∀ a : RawAttribute, a.name = key.toList → a.isNamed other = false := by
    intro a same
    rw [← Bool.not_eq_true, isNamed_iff, same]
    exact Ne.symm different
  induction attrs with
  | nil => simp [give, foreign (written (trail ++ [' ']) key.toList text) rfl]
  | cons a attrs ih =>
    rw [give]
    split
    · next named =>
      have skipped : a.isNamed other = false := by
        rw [← Bool.not_eq_true, isNamed_iff, isNamed_iff.1 named]
        exact Ne.symm different
      have skipped' : (a.given key.toList text).isNamed other = false := by
        rcases (given_lead key.toList text a).2 with same | same
        · rw [isNamed, same]
          exact skipped
        · exact foreign _ same
      rw [List.find?_cons_of_neg (by simp [skipped']), List.find?_cons_of_neg (by simp [skipped])]
    · cases is : a.isNamed other with
      | true =>
        rw [List.find?_cons_of_pos is] at some_ ⊢
        split
        · next last =>
          simp only [Bool.and_eq_true] at last
          exact absurd (congrArg some (meaning_of_gapes last.2)) some_
        · rw [List.find?_cons_of_pos is]
      | false =>
        rw [List.find?_cons_of_neg (by simp [is])] at some_ ⊢
        split
        · next last =>
          simp only [Bool.and_eq_true, List.isEmpty_iff] at last
          have skipped : (a.absorb key.toList text).isNamed other = false := is
          rw [last.1, List.find?_cons_of_neg (by simp [skipped])]
        · rw [List.find?_cons_of_neg (by simp [is])]
          exact ih some_

theorem TagBody.attr?_given {body : TagBody} {key value other : String}
    (different : sameIgnoringCase other key = false) (some_ : body.attr? other ≠ some "") :
    (body.given key value).attr? other = body.attr? other := by
  rw [sameIgnoringCase, beq_eq_false_iff_ne] at different
  exact give_find? different some_

end Playground.Html
