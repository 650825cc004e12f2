import Mathlib.Data.List.Forall2
import Playground.Proofs.Html.Fields
import Playground.Proofs.Html.Splice
import Playground.Proofs.Html.TagExchange

/-! Setting an attribute of an element. -/

namespace Playground.Html

open Text

/-- What setting an attribute of `e` makes of the elements of a text. -/
structure SetsOnly (doc out : String) (e : Element) (key value : String) (x x' : Element) : Prop where
  tag : x'.tag = x.tag
  edited : x = e → x'.fields = setField key value e.fields ∧ x'.attr? key = some value ∧
    ∀ other, sameIgnoringCase other key = false → x'.attr? other = e.attr? other
  others : x ≠ e → x'.fields = x.fields
  inner : ¬ x.Holds e → x'.inner out = x.inner doc
  around : x.Holds e →
    (Edit.setAttr e key value).Turns x.openEnd (x.inner doc).toList (x'.inner out).toList

theorem Element.moved_fields (old new : Nat) (e : Element) : (e.moved old new).fields = e.fields := by
  unfold moved
  split
  · rw [fields, fields, mapPlaces, List.map_map]
    rfl
  · rfl

section Others

variable {doc out : String} {e e' x : Element} {before after : List Token} {name rest : List Char}
  {body body' : TagBody} {t t' : Token} {key value : String}

theorem Element.OpensAt.fields (at_ : e.OpensAt doc before name body rest t after) :
    e.fields = body.fields := by
  obtain ⟨close, stop, rfl⟩ := at_.shape
  exact Element.fields_ofOpenTag (width before) name body

theorem Element.OpensAt.edited (at_ : e.OpensAt doc before name body rest t after)
    (key value : String) :
    edited? doc [Edit.setAttr e key value] = some (String.ofList (before.flatMap Token.lexeme ++
      '<' :: (name ++ ((body.given key value).lexeme ++ rest)))) := by
  obtain ⟨close, stop, rfl⟩ := at_.shape
  have turns := (setAttr_turns at_.begins (width before) key value).1
  have text := at_.text
  have tag : ∀ body : TagBody, '<' :: (name ++ (body.lexeme ++ rest)) =
      (Token.openTag name body).lexeme ++ rest := by
    intro body
    simp [Token.lexeme]
  rw [tag] at text ⊢
  exact edited?_turns turns text

theorem Element.OpensAt.given (at_ : e.OpensAt doc before name body rest t after)
    (plain : IsPlainName key.toList)
    (accepts : RawAttribute.Accept key (Entity.escapeAttribute value).toList body.attrs) {out : String}
    (edited : out.toList = before.flatMap Token.lexeme ++
      '<' :: (name ++ ((body.given key value).lexeme ++ rest))) :
    ∃ e', Element.OpensAt out e' before name (body.given key value) rest
      (t.withBody (body.given key value)) after := by
  have unquoted : '"' ∉ (Entity.escapeAttribute value).toList := fun mem =>
    absurd ((Entity.mem_escapeAttribute rfl value).1 mem).1 (by decide)
  have begins := at_.begins.given_of_fits plain unquoted (.inl accepts)
  have opens : Token.ofOpenTag name (body.given key value) rest =
      (t.withBody (body.given key value), after.flatMap Token.lexeme) :=
    Token.ofOpenTag_withBody at_.opens rfl
  have tokens : Token.ofText out.toList = before ++ t.withBody (body.given key value) :: after := by
    rw [edited, at_.read, Token.ofText_cons, Token.next_openTag begins, opens, at_.read_after]
  obtain ⟨e', element⟩ := Token.exists_elementIn opens (width before) (restackAll [] before) after
  exact ⟨e', begins, edited, opens, tokens, element⟩

theorem setsOnly_early (at_ : e.OpensAt doc before name body rest t after)
    (swapped : Swapped doc out (before.flatMap Token.lexeme) t.lexeme t'.lexeme
      (after.flatMap Token.lexeme))
    (turns : (Edit.setAttr e key value).Turns (width before) t.lexeme t'.lexeme)
    (mem : x ∈ scan doc) (early : x.start < width before) :
    SetsOnly doc out e key value x
      (x.moved (width before + size t.lexeme) (width before + size t'.lexeme)) := by
  obtain ⟨places, -, related, -⟩ := scan_places doc
  have placed := (places x mem).1
  have own := (places e at_.mem).1
  have start := at_.start
  have stop := at_.stop_le
  have some_ := (Token.elementIn_start at_.element).1
  have other : x ≠ e := by
    rintro rfl
    omega
  refine ⟨x.moved_tag _ _, fun same => absurd same other, fun _ => x.moved_fields _ _,
    fun apart => swapped.inner_early placed (Nat.lt_add_right _ early) fun c closes => ?_, ?_⟩
  · have inside : c ≤ width before := by
      have bounds := placed.closed c closes
      have order := placed.start_lt_stop
      have bracket := own.bracket
      have named := own.named
      rcases related x mem e at_.mem other with ends | ends | holds | ⟨_, _, around, -⟩
      · omega
      · omega
      · exact absurd holds apart
      · omega
    exact ⟨inside, Nat.lt_of_le_of_lt inside (Nat.lt_add_of_pos_right some_)⟩
  · rintro ⟨c, closes, opened, closed⟩
    exact swapped.inner_around placed turns closes (Nat.le_trans opened (Nat.le_of_eq start))
      (Nat.le_trans stop closed)

theorem setsOnly_late (at_ : e.OpensAt doc before name body rest t after)
    (swapped : Swapped doc out (before.flatMap Token.lexeme) t.lexeme t'.lexeme
      (after.flatMap Token.lexeme))
    (mem : x ∈ scan doc) (late : width before + size t.lexeme ≤ x.start) :
    SetsOnly doc out e key value x
      (x.moved (width before + size t.lexeme) (width before + size t'.lexeme)) := by
  have placed := ((scan_places doc).1 x mem).1
  have named := placed.named
  have bracket := placed.bracket
  have start := at_.start
  have some_ := (Token.elementIn_start at_.element).1
  have other : x ≠ e := by
    rintro rfl
    omega
  refine ⟨x.moved_tag _ _, fun same => absurd same other, fun _ => x.moved_fields _ _,
    fun _ => swapped.inner_late placed late, ?_⟩
  rintro ⟨c, -, opened, -⟩
  omega

theorem setsOnly_own (at_ : e.OpensAt doc before name body rest t after)
    (at_' : e'.OpensAt out before name (body.given key value) rest
      (t.withBody (body.given key value)) after)
    (accepts : RawAttribute.Accept key (Entity.escapeAttribute value).toList body.attrs) :
    SetsOnly doc out e key value e e' := by
  have fields : e'.fields = setField key value e.fields := by
    rw [at_'.fields, at_.fields, TagBody.fields_given accepts]
  have placed := ((scan_places doc).1 e at_.mem).1
  refine ⟨?_, fun _ => ⟨fields, ?_, ?_⟩, fun other => absurd rfl other, fun _ => ?_, ?_⟩
  · obtain ⟨_, _, rfl⟩ := at_.shape
    obtain ⟨_, _, rfl⟩ := at_'.shape
    rfl
  · rw [Element.attr?_fields, fields, fieldValue?_setField]
  · intro other different
    rw [Element.attr?_fields, Element.attr?_fields, fields, fieldValue?_setField_other different]
  · exact inner_withBody at_ at_' rfl
  · rintro ⟨c, -, opened, -⟩
    have named := placed.named
    have bracket := placed.bracket
    omega

theorem Element.OpensAt.turns (at_ : e.OpensAt doc before name body rest t after) (key value : String) :
    (Edit.setAttr e key value).Turns (width before) t.lexeme
      (t.withBody (body.given key value)).lexeme := by
  have turns := (setAttr_turns at_.begins (width before) key value).1
  obtain ⟨close, stop, rfl⟩ := at_.shape
  rcases Token.ofOpenTag_cases at_.opens with ⟨rfl, -⟩ | ⟨content, closing, rfl, -⟩
  · exact turns
  · have lexeme : ∀ body : TagBody, (Token.raw name body content closing).lexeme =
        (Token.openTag name body).lexeme ++ (content ++ closing) := by
      intro body
      simp [Token.lexeme]
    rw [Token.withBody, lexeme, lexeme]
    exact Edit.Turns.around [] (content ++ closing) turns

theorem Element.OpensAt.setsOnly (at_ : e.OpensAt doc before name body rest t after)
    (at_' : e'.OpensAt out before name (body.given key value) rest
      (t.withBody (body.given key value)) after)
    (accepts : RawAttribute.Accept key (Entity.escapeAttribute value).toList body.attrs) :
    List.Forall₂ (SetsOnly doc out e key value) (scan doc) (scan out) := by
  have swapped := at_.swapped at_'
  have turns := at_.turns key value
  have exchange := @exchange_withBody after name rest body (body.given key value) t at_.opens rfl
    (restackAll [] before)
  have some_ : 0 < width [t] := by
    have positive := (Token.elementIn_start at_.element).1
    rw [width_cons]
    omega
  have earlier := exchange.outline_before some_ 0
  have later := exchange.outline_after (width before) []
  simp only [width_cons, width_nil, Nat.add_zero, Nat.zero_add, List.singleton_append, restackAll_cons,
    restackAll_nil] at earlier later
  have parts := at_.scan_eq
  rw [at_'.scan_eq, earlier, later]
  rw [parts]
  refine List.rel_append ?_ (.cons (setsOnly_own at_ at_' accepts) ?_)
  · refine List.forall₂_map_right_iff.2 (List.forall₂_same.2 fun x mem => ?_)
    have starts := (outline_starts mem).2
    rw [Nat.zero_add] at starts
    exact setsOnly_early at_ swapped turns (parts ▸ List.mem_append_left _ mem) starts
  · refine List.forall₂_map_right_iff.2 (List.forall₂_same.2 fun x mem => ?_)
    have starts := (outline_starts mem).1
    exact setsOnly_late at_ swapped
      (parts ▸ List.mem_append_right _ (List.mem_cons_of_mem _ mem)) starts

theorem Element.OpensAt.not_setsOnly (at_ : e.OpensAt doc before name body rest t after)
    (plain : IsPlainName key.toList)
    (refuses : ¬ RawAttribute.Accept key (Entity.escapeAttribute value).toList body.attrs)
    (edited : out.toList = before.flatMap Token.lexeme ++
      '<' :: (name ++ ((body.given key value).lexeme ++ rest))) :
    ¬ List.Forall₂ (SetsOnly doc out e key value) (scan doc) (scan out) := by
  intro sets
  let cs := name ++ ((body.given key value).lexeme ++ rest)
  have parts : scan out = outline 0 [] before (Token.ofText ('<' :: cs)) ++
      outline (width before) (restackAll [] before) (Token.ofText ('<' :: cs)) [] := by
    rw [scan_outline, edited, at_.read, outline_append, List.append_nil, Nat.zero_add]
  have own := List.forall₂_drop (outline 0 [] before (t :: after)).length sets
  rw [parts, at_.scan_eq, List.drop_left, length_outline 0 [] before _ (Token.ofText ('<' :: cs)),
    List.drop_left] at own
  obtain ⟨x', others, own, -, found⟩ := List.forall₂_cons_left_iff.1 own
  have stops : ∀ c, ((body.given key value).lexeme ++ rest).head? = some c →
      isTagNameChar c = false := by
    intro c head
    rw [head?_append_of_mem (body.given key value).mem_lexeme] at head
    exact at_.begins.given_stops plain value c head
  have next := Token.next_named at_.begins.letter at_.begins.chars stops
  rw [Token.ofText_cons, next] at found
  cases read : TagBody.read ((body.given key value).lexeme ++ rest) with
  | none =>
    rw [read] at found
    rw [Token.ofText] at found
    cases found
  | some parsed =>
    obtain ⟨body', later⟩ := parsed
    rw [read] at found
    cases opens : Token.ofOpenTag name body' later with
    | mk u more =>
      dsimp only at found
      rw [opens, outline] at found
      obtain ⟨x, element⟩ := Token.exists_elementIn opens (width before) (restackAll [] before)
        (Token.ofText more ++ [])
      rw [element] at found
      obtain ⟨rfl, -⟩ := List.cons.inj found
      obtain ⟨close, stop, rfl⟩ := Token.elementIn_ofOpenTag opens element
      have fields := (own.edited rfl).1
      have named : _ = body'.fields := Element.fields_ofOpenTag (width before) name body'
      rw [at_.fields] at fields
      exact at_.begins.sound.fields_misread plain refuses read (named.symm.trans fields)

end Others

def Attribute.gapes (a : Attribute) : Bool := !a.quoted && a.valueSpan.any fun v => v.start == v.stop

/-- Attributes among which a value that is set is not read back: it is put in single quotes and has
one of its own, or it is added behind an attribute that has an `=` and nothing after it. -/
inductive Misread (doc : String) (attrs : List Attribute) (key value : String) : Prop
  | cut (a : Attribute) (v : Span)
      (found : attrs.find? (fun a => sameIgnoringCase a.name key) = some a) (quoted : a.quoted = true)
      (written : a.valueSpan = some v) (single : textIn doc ⟨v.start - 1, v.start⟩ = "'")
      (holds : '\'' ∈ value.toList)
  | swallowed (a : Attribute)
      (missing : attrs.find? (fun a => sameIgnoringCase a.name key) = none)
      (last : attrs.getLast? = some a) (gapes : a.gapes = true)

section Misread

variable {doc key value : String}

theorem gapes_place (a : RawAttribute) (pos : Nat) : (a.place pos).gapes = a.gapes := by
  obtain ⟨lead, name, value⟩ := a
  rcases value with _ | ⟨before, _ | q, text⟩
  · rfl
  · cases text with
    | nil => simp [Attribute.gapes, RawAttribute.place, RawAttribute.gapes]
    | cons c text =>
      have positive := Char.utf8Size_pos c
      simp [Attribute.gapes, RawAttribute.place, RawAttribute.gapes]
      omega
  · rfl

theorem textIn_quote {a : RawAttribute} {before after : List Char} {q : Char}
    (whole : doc.toList = before ++ (a.lexeme ++ after)) (quote : isQuote q = true)
    (quoted : a.value.bind RawValue.quote = some q) :
    (a.place (size before)).quoted = true ∧ ∃ v, (a.place (size before)).valueSpan = some v ∧
      textIn doc ⟨v.start - 1, v.start⟩ = String.ofList [q] := by
  have single : size [q] = 1 := by
    rw [isQuote, Bool.or_eq_true, beq_iff_eq, beq_iff_eq] at quote
    rcases quote with rfl | rfl <;> rfl
  obtain ⟨lead, name, value⟩ := a
  obtain ⟨⟨skipped, _, text⟩, rfl, rfl⟩ := Option.bind_eq_some_iff.1 quoted
  have cut : doc.toList = (before ++ lead ++ name ++ skipped) ++ ([q] ++ (text ++ [q] ++ after)) := by
    rw [whole]
    simp [RawAttribute.lexeme, RawAttribute.valueLexeme, RawValue.lexeme, RawValue.quoteLexeme]
  have here := textIn_of_append cut
  refine ⟨rfl, _, rfl, ?_⟩
  have start : size before + size lead + size name + size skipped + size [q] =
      size (before ++ lead ++ name ++ skipped) + size [q] := by
    simp only [size_append]
  have start' : size (before ++ lead ++ name ++ skipped) + size [q] - 1 =
      size (before ++ lead ++ name ++ skipped) := by
    rw [single, Nat.add_sub_cancel]
  change textIn doc ⟨size before + size lead + size name + size skipped + size [q] - 1,
    size before + size lead + size name + size skipped + size [q]⟩ = _
  rw [start, start', here]

theorem Misread.congr {attrs attrs' : List Attribute}
    (found : attrs.find? (fun a => sameIgnoringCase a.name key) =
      attrs'.find? fun a => sameIgnoringCase a.name key)
    (last : attrs.getLast? = attrs'.getLast?) (misread : Misread doc attrs key value) :
    Misread doc attrs' key value := by
  cases misread with
  | cut a v here quoted written single holds =>
    exact .cut a v (found.symm.trans here) quoted written single holds
  | swallowed a missing at_end gapes =>
    exact .swallowed a (found.symm.trans missing) (last.symm.trans at_end) gapes

theorem misread_cons {x : Attribute} {attrs : List Attribute} (some_ : attrs ≠ [])
    (other : sameIgnoringCase x.name key = false) :
    Misread doc (x :: attrs) key value ↔ Misread doc attrs key value := by
  have passed : (x :: attrs).find? (fun a => sameIgnoringCase a.name key) =
      attrs.find? fun a => sameIgnoringCase a.name key :=
    List.find?_cons_of_neg (by rw [other]; exact Bool.false_ne_true)
  have last : (x :: attrs).getLast? = attrs.getLast? := by
    obtain ⟨y, attrs, rfl⟩ := List.exists_cons_of_ne_nil some_
    exact List.getLast?_cons_cons
  exact ⟨.congr passed last, .congr passed.symm last.symm⟩

theorem misread_found {a : RawAttribute} {attrs : List Attribute} {before after rest : List Char}
    (whole : doc.toList = before ++ (a.lexeme ++ after)) (reads : a.Reads rest)
    (found : attrs.find? (fun a => sameIgnoringCase a.name key) = some (a.place (size before))) :
    Misread doc attrs key value ↔ ∃ q, a.value.bind RawValue.quote = some q ∧
      q ∈ (Entity.escapeAttribute value).toList := by
  constructor
  · rintro (⟨_, v, found', quoted, written, single, holds⟩ | ⟨_, missing, -, -⟩)
    · cases found.symm.trans found'
      obtain ⟨q, own⟩ := Option.isSome_iff_exists.1 quoted
      obtain ⟨-, v', written', single'⟩ := textIn_quote whole (reads.quoted own) own
      cases written.symm.trans written'
      have same : "'".toList = [q] := by rw [single.symm.trans single', String.toList_ofList]
      obtain ⟨rfl, -⟩ := List.cons.inj same
      exact ⟨_, own, (Entity.mem_escapeAttribute rfl value).2 ⟨rfl, holds⟩⟩
    · cases found.symm.trans missing
  · rintro ⟨q, quoted, mem⟩
    have quote := reads.quoted quoted
    obtain ⟨rfl, holds⟩ := (Entity.mem_escapeAttribute quote value).1 mem
    obtain ⟨isQuoted, v, written, single⟩ := textIn_quote whole quote quoted
    exact .cut _ v found isQuoted written single holds

theorem misread_missing {x : Attribute} {attrs : List Attribute}
    (missing : attrs.find? (fun a => sameIgnoringCase a.name key) = none)
    (last : attrs.getLast? = some x) : Misread doc attrs key value ↔ x.gapes = true := by
  constructor
  · rintro (⟨_, _, found, -⟩ | ⟨_, -, last', gapes⟩)
    · cases missing.symm.trans found
    · cases last.symm.trans last'
      exact gapes
  · exact .swallowed x missing last

theorem misread_iff {before after ending : List Char} {attrs : List RawAttribute}
    (whole : doc.toList = before ++ (attrs.flatMap RawAttribute.lexeme ++ after))
    (sound : AttributesSound ending attrs) :
    Misread doc (RawAttribute.placeAll (size before) attrs) key value ↔
      ¬ RawAttribute.Accept key (Entity.escapeAttribute value).toList attrs := by
  induction attrs generalizing before with
  | nil =>
    refine iff_of_false ?_ fun refuses => refuses .nil
    rintro (⟨_, _, found, -⟩ | ⟨_, -, last, -⟩)
    · cases found
    · cases last
  | cons a attrs ih =>
    obtain ⟨reads, later⟩ := sound
    rw [List.flatMap_cons, List.append_assoc] at whole
    rw [RawAttribute.placeAll]
    cases named : a.isNamed key with
    | true =>
      rw [misread_found whole reads (List.find?_cons_of_pos named), accept_named named]
      simp
    | false =>
      have other : sameIgnoringCase (a.place (size before)).name key = false := named
      rw [accept_other named]
      cases attrs with
      | nil =>
        have missing : [a.place (size before)].find? (fun a => sameIgnoringCase a.name key) = none :=
          List.find?_cons_of_neg (Bool.eq_false_iff.1 other)
        have alone : (([] : List RawAttribute) = [] → a.gapes = false) ∧
            RawAttribute.Accept key (Entity.escapeAttribute value).toList [] ↔ a.gapes = false :=
          ⟨fun accepts => accepts.1 rfl, fun shut => ⟨fun _ => shut, .nil⟩⟩
        have last : [a.place (size before)].getLast? = some (a.place (size before)) := rfl
        rw [RawAttribute.placeAll, misread_missing missing last, gapes_place, alone, Bool.not_eq_false]
      | cons b attrs =>
        rw [← List.append_assoc] at whole
        have others := ih whole later
        rw [size_append] at others
        have some_ : RawAttribute.placeAll (size before + size a.lexeme) (b :: attrs) ≠ [] :=
          List.cons_ne_nil _ _
        rw [misread_cons some_ other, others]
        exact not_congr ⟨fun accepts => ⟨fun none_ => absurd none_ (List.cons_ne_nil _ _), accepts⟩,
          And.right⟩

end Misread

/-- Setting an attribute sets it and leaves everything else as it is, except where the value is not
read back. -/
theorem setAttr_sets_iff {doc key value : String} {e : Element} (mem : e ∈ scan doc)
    (plain : IsPlainName key.toList) :
    ∃ out, edited? doc [Edit.setAttr e key value] = some out ∧
      (List.Forall₂ (SetsOnly doc out e key value) (scan doc) (scan out) ↔
        ¬ Misread doc e.attrs key value) := by
  obtain ⟨before, name, body, rest, t, after, at_⟩ := exists_opensAt mem
  have whole : doc.toList = (before.flatMap Token.lexeme ++ '<' :: name) ++
      (body.attrs.flatMap RawAttribute.lexeme ++ (body.trail ++ body.bracket ++ rest)) := by
    rw [at_.text]
    simp [TagBody.lexeme, TagBody.inside]
  have attrs : e.attrs =
      RawAttribute.placeAll (size (before.flatMap Token.lexeme ++ '<' :: name)) body.attrs := by
    obtain ⟨close, stop, rfl⟩ := at_.shape
    rw [size_append, size_cons, ← Nat.add_assoc]
    rfl
  rw [attrs, misread_iff whole at_.begins.sound.attributes, not_not]
  refine ⟨_, at_.edited key value, ?_⟩
  constructor
  · intro sets
    refine Classical.byContradiction fun refuses => ?_
    exact at_.not_setsOnly plain refuses String.toList_ofList sets
  · intro accepts
    obtain ⟨e', at_'⟩ := at_.given plain accepts String.toList_ofList
    exact at_.setsOnly at_' accepts

def singleQuoted : String := "<p a='x'>"

def singleQuotedElement : Element :=
  ⟨"p", [⟨"a", some "x", ⟨3, 8⟩, some ⟨6, 7⟩, true⟩], 0, 8, 9, some 9, 9⟩

theorem apostrophe_cuts : singleQuotedElement ∈ scan singleQuoted ∧ IsPlainName "a".toList ∧
    ∃ out, edited? singleQuoted [Edit.setAttr singleQuotedElement "a" "it's"] = some out ∧
      out = "<p a='it's'>" ∧
        ¬ List.Forall₂ (SetsOnly singleQuoted out singleQuotedElement "a" "it's")
          (scan singleQuoted) (scan out) := by
  have mem : singleQuotedElement ∈ scan singleQuoted := by decide +kernel
  have plain : IsPlainName "a".toList :=
    ⟨by decide, List.all_eq_true.1 (by decide)⟩
  have cut : Misread singleQuoted singleQuotedElement.attrs "a" "it's" :=
    .cut ⟨"a", some "x", ⟨3, 8⟩, some ⟨6, 7⟩, true⟩ ⟨6, 7⟩ (by decide +kernel) rfl rfl
      (by decide +kernel) (by decide +kernel)
  obtain ⟨out, edited, sets⟩ := @setAttr_sets_iff singleQuoted "a" "it's" _ mem plain
  have text : edited? singleQuoted [Edit.setAttr singleQuotedElement "a" "it's"] =
      some "<p a='it's'>" := by
    rw [edited?, Edit.mergeSort_foldr]
    decide +kernel
  exact ⟨mem, plain, out, edited, Option.some.inj (edited.symm.trans text),
    fun all => sets.1 all cut⟩

end Playground.Html
