import Playground.Html.Token

/-! The grammar of open tags. -/

namespace Playground.Text

theorem takeWhile_stop {p : Char → Bool} {a rest : List Char} (all : ∀ c ∈ a, p c = true)
    (stops : ∀ c, rest.head? = some c → p c = false) : (a ++ rest).takeWhile p = a := by
  rw [List.takeWhile_append_of_pos all]
  cases rest with
  | nil => simp
  | cons c cs => simp [stops c rfl]

theorem dropWhile_stop {p : Char → Bool} {a rest : List Char} (all : ∀ c ∈ a, p c = true)
    (stops : ∀ c, rest.head? = some c → p c = false) : (a ++ rest).dropWhile p = rest := by
  rw [List.dropWhile_append_of_pos all]
  cases rest with
  | nil => rfl
  | cons c cs => simp [stops c rfl]

theorem head?_dropWhile {p : Char → Bool} {cs : List Char} {c : Char}
    (head : (cs.dropWhile p).head? = some c) : p c = false := by
  have stops := List.head?_dropWhile_not p cs
  rw [head] at stops
  simpa using stops

theorem mem_takeWhile {p : Char → Bool} {cs : List Char} {c : Char} (mem : c ∈ cs.takeWhile p) :
    p c = true := by
  exact List.all_eq_true.1 List.all_takeWhile c mem

theorem splitAt?_iff {stop : Char} {cs a rest : List Char} :
    splitAt? stop cs = some (a, rest) ↔ cs = a ++ stop :: rest ∧ stop ∉ a := by
  induction cs generalizing a with
  | nil => simp [splitAt?]
  | cons c cs ih =>
    simp only [splitAt?]
    split
    · next same =>
      subst same
      constructor
      · intro found
        cases found
        simp
      · rintro ⟨whole, clean⟩
        cases a with
        | nil =>
          cases whole
          rfl
        | cons d a =>
          cases whole
          simp at clean
    · next differs =>
      rw [Option.map_eq_some_iff]
      constructor
      · rintro ⟨⟨b, after⟩, found, same⟩
        cases same
        obtain ⟨whole, clean⟩ := ih.1 found
        exact ⟨by rw [whole]; rfl, by simp [clean, Ne.symm differs]⟩
      · rintro ⟨whole, clean⟩
        cases a with
        | nil =>
          cases whole
          exact absurd rfl differs
        | cons d a =>
          cases whole
          simp only [List.mem_cons, not_or] at clean
          exact ⟨(a, rest), ih.2 ⟨rfl, clean.2⟩, rfl⟩

end Playground.Text

namespace Playground.Html

def AllBlank (cs : List Char) : Prop := ∀ c ∈ cs, isMarkupBlank c = true

def NoValue (rest : List Char) : Prop := (rest.dropWhile isMarkupBlank).head? ≠ some '='

inductive RawValue.Reads : Option RawValue → List Char → Prop
  | bare (rest : List Char) (ends : NoValue rest) : Reads none rest
  | quoted (before after text rest : List Char) (q : Char) (blank : AllBlank before)
      (blank' : AllBlank after) (quote : isQuote q = true) (clean : q ∉ text) :
      Reads (some ⟨before ++ '=' :: after, some q, text⟩) rest
  | unquoted (before after text rest : List Char) (blank : AllBlank before)
      (blank' : AllBlank after) (plain : ∀ c ∈ text, isUnquotedChar c = true)
      (ends : ∀ c, rest.head? = some c → isUnquotedChar c = false)
      (first : ∃ c, (text ++ rest).head? = some c ∧ isQuote c = false ∧ isMarkupBlank c = false) :
      Reads (some ⟨before ++ '=' :: after, none, text⟩) rest

def valueText (value : Option RawValue) : List Char := (value.map RawValue.lexeme).getD []

theorem equals_not_blank : isMarkupBlank '=' = false := by decide

theorem quote_not_blank {q : Char} (quote : isQuote q = true) : isMarkupBlank q = false := by
  simp only [isQuote, Bool.or_eq_true, beq_iff_eq] at quote
  rcases quote with rfl | rfl <;> decide

theorem RawValue.read_equals {before after tail : List Char} {q : Char} (blank : AllBlank before)
    (blank' : AllBlank after) (visible : isMarkupBlank q = false) :
    RawValue.read (before ++ '=' :: (after ++ q :: tail)) =
      if isQuote q then
        (Text.splitAt? q tail).map fun (text, rest) =>
          (some ⟨before ++ '=' :: after, some q, text⟩, rest)
      else
        some (some ⟨before ++ '=' :: after, none, (q :: tail).takeWhile isUnquotedChar⟩,
          (q :: tail).dropWhile isUnquotedChar) := by
  have equals : ∀ c, ('=' :: (after ++ q :: tail)).head? = some c → isMarkupBlank c = false := by
    rintro c ⟨⟩
    exact equals_not_blank
  have value : ∀ c, (q :: tail).head? = some c → isMarkupBlank c = false := by
    rintro c ⟨⟩
    exact visible
  simp only [RawValue.read, Text.takeWhile_stop blank equals, Text.dropWhile_stop blank equals,
    Text.takeWhile_stop blank' value, Text.dropWhile_stop blank' value]

theorem RawValue.reads_of_read {cs rest : List Char} {value : Option RawValue}
    (done : RawValue.read cs = some (value, rest)) : RawValue.Reads value rest := by
  unfold RawValue.read at done
  dsimp only at done
  split at done
  · next r equals =>
    split at done
    · cases done
    · next q tail value_at =>
      have blank : AllBlank (cs.takeWhile isMarkupBlank) := fun c mem => Text.mem_takeWhile mem
      have blank' : AllBlank (r.takeWhile isMarkupBlank) := fun c mem => Text.mem_takeWhile mem
      have visible : isMarkupBlank q = false := Text.head?_dropWhile (by rw [value_at]; rfl)
      split at done
      · next quote =>
        obtain ⟨⟨text, after⟩, cut, same⟩ := Option.map_eq_some_iff.1 done
        cases same
        exact .quoted _ _ _ _ q blank blank' quote (Text.splitAt?_iff.1 cut).2
      · next plain =>
        cases done
        apply RawValue.Reads.unquoted _ _ _ _ blank blank' (fun c mem => Text.mem_takeWhile mem)
        · intro c head
          exact Text.head?_dropWhile head
        · rw [List.takeWhile_append_dropWhile]
          exact ⟨q, rfl, by simpa using plain, visible⟩
  · next other =>
    cases done
    apply RawValue.Reads.bare
    intro head
    cases found : cs.dropWhile isMarkupBlank with
    | nil => rw [found] at head; cases head
    | cons d ds =>
      rw [found] at head
      cases head
      exact other ds found

theorem RawValue.read_of_reads {rest : List Char} {value : Option RawValue}
    (reads : RawValue.Reads value rest) :
    RawValue.read (valueText value ++ rest) = some (value, rest) := by
  cases reads with
  | bare _ ends =>
    have skip : valueText none ++ rest = rest := rfl
    rw [skip]
    unfold RawValue.read
    dsimp only
    split
    · next r equals =>
      unfold NoValue at ends
      rw [equals] at ends
      exact absurd rfl ends
    · rfl
  | quoted before after text _ q blank blank' quote clean =>
    have whole : valueText (some ⟨before ++ '=' :: after, some q, text⟩) ++ rest =
        before ++ '=' :: (after ++ q :: (text ++ q :: rest)) := by
      simp [valueText, RawValue.lexeme, RawValue.quoteLexeme]
    have cut : Text.splitAt? q (text ++ q :: rest) = some (text, rest) :=
      Text.splitAt?_iff.2 ⟨rfl, clean⟩
    rw [whole, RawValue.read_equals blank blank' (quote_not_blank quote), if_pos quote, cut]
    rfl
  | unquoted before after text _ blank blank' plain ends first =>
    obtain ⟨q, head, quote, visible⟩ := first
    obtain ⟨tail, value_at⟩ : ∃ tail, text ++ rest = q :: tail := by
      cases whole : text ++ rest with
      | nil => rw [whole] at head; cases head
      | cons d ds => rw [whole] at head; cases head; exact ⟨ds, rfl⟩
    have whole : valueText (some ⟨before ++ '=' :: after, none, text⟩) ++ rest =
        before ++ '=' :: (after ++ (text ++ rest)) := by
      simp [valueText, RawValue.lexeme, RawValue.quoteLexeme]
    rw [whole, value_at, RawValue.read_equals blank blank' visible, if_neg (by simp [quote]),
      ← value_at, Text.takeWhile_stop plain ends, Text.dropWhile_stop plain ends]

theorem RawValue.read_iff {cs rest : List Char} {value : Option RawValue} :
    RawValue.read cs = some (value, rest) ↔
      cs = valueText value ++ rest ∧ RawValue.Reads value rest := by
  constructor
  · intro done
    exact ⟨(RawValue.read_append done).symm, RawValue.reads_of_read done⟩
  · rintro ⟨rfl, reads⟩
    exact RawValue.read_of_reads reads

theorem NoValue.append {rest : List Char} (tail : List Char) (ends : '>' ∈ rest) :
    NoValue (rest ++ tail) ↔ NoValue rest := by
  have stays : ∃ c, (rest.dropWhile isMarkupBlank).head? = some c := by
    cases found : rest.dropWhile isMarkupBlank with
    | nil =>
      have whole := List.takeWhile_append_dropWhile (p := isMarkupBlank) (l := rest)
      rw [found, List.append_nil] at whole
      rw [← whole] at ends
      exact absurd (Text.mem_takeWhile ends) (by decide)
    | cons c cs => exact ⟨c, rfl⟩
  obtain ⟨c, head⟩ := stays
  have same : ((rest ++ tail).dropWhile isMarkupBlank).head? = some c := by
    rw [List.dropWhile_append]
    split
    · next empty =>
      rw [List.isEmpty_iff] at empty
      rw [empty] at head
      cases head
    · rw [List.head?_append, head]
      rfl
  unfold NoValue
  rw [head, same]

theorem head?_append_of_mem {c : Char} {cs tail : List Char} (mem : c ∈ cs) :
    (cs ++ tail).head? = cs.head? := by
  cases cs with
  | nil => cases mem
  | cons d ds => rfl

theorem RawValue.Reads.append {value : Option RawValue} {rest : List Char} (tail : List Char)
    (ends : '>' ∈ rest) : RawValue.Reads value (rest ++ tail) ↔ RawValue.Reads value rest := by
  constructor
  · intro reads
    cases reads with
    | bare _ none_ => exact .bare rest ((NoValue.append tail ends).1 none_)
    | quoted before after text _ q blank blank' quote clean =>
      exact .quoted before after text rest q blank blank' quote clean
    | unquoted before after text _ blank blank' plain stops first =>
      rw [head?_append_of_mem ends] at stops
      rw [← List.append_assoc, head?_append_of_mem (List.mem_append_right text ends)] at first
      exact .unquoted before after text rest blank blank' plain stops first
  · intro reads
    cases reads with
    | bare _ none_ => exact .bare _ ((NoValue.append tail ends).2 none_)
    | quoted before after text _ q blank blank' quote clean =>
      exact .quoted before after text _ q blank blank' quote clean
    | unquoted before after text _ blank blank' plain stops first =>
      apply RawValue.Reads.unquoted before after text _ blank blank' plain
      · rwa [head?_append_of_mem ends]
      · rwa [← List.append_assoc, head?_append_of_mem (List.mem_append_right text ends)]

/-- A character that may be skipped before an attribute's name or the end of the tag. -/
def isLeadChar (c : Char) : Bool := isMarkupBlank c || c == '/' || c == '='

theorem isAttributeNameChar_iff {c : Char} :
    isAttributeNameChar c = true ↔ isLeadChar c = false ∧ c ≠ '>' := by
  simp only [isAttributeNameChar, isLeadChar, Bool.and_eq_true, bne_iff_ne, Bool.or_eq_false_iff,
    Bool.not_eq_true', beq_eq_false_iff_ne]
  grind

def IsLead (lead rest : List Char) : Prop :=
  (∀ c ∈ lead, isLeadChar c = true) ∧
    (lead.getLast? = some '/' → rest.head? ≠ some '>') ∧
      ∀ c, rest.head? = some c → isLeadChar c = true → rest.take 2 = ['/', '>']

theorem splitLead_stop {rest : List Char}
    (stops : ∀ c, rest.head? = some c → isLeadChar c = true → rest.take 2 = ['/', '>']) :
    splitLead rest = ([], rest) := by
  cases rest with
  | nil => rfl
  | cons c cs =>
    rw [splitLead]
    by_cases ends : c = '/' ∧ cs.head? = some '>'
    · rw [if_pos ends]
    · rw [if_neg ends, if_neg]
      intro skipped
      have closes := stops c rfl skipped
      cases cs <;> simp_all

theorem isLead_splitLead {cs lead rest : List Char} (split : splitLead cs = (lead, rest)) :
    IsLead lead rest := by
  induction cs generalizing lead with
  | nil =>
    cases split
    exact ⟨by simp, by simp, by simp⟩
  | cons c cs ih =>
    rw [splitLead] at split
    split at split
    · next ends =>
      cases split
      refine ⟨by simp, by simp, ?_⟩
      intro d head _
      cases cs with
      | nil => simp at ends
      | cons d ds => simp_all
    · next goes =>
      split at split
      · next skipped =>
        cases inner : splitLead cs with
        | mk lead' rest' =>
          rw [inner] at split
          cases split
          obtain ⟨chars, slash, stops⟩ := ih inner
          refine ⟨?_, ?_, stops⟩
          · intro d mem
            rcases List.mem_cons.1 mem with rfl | mem
            · exact skipped
            · exact chars d mem
          · intro last
            cases lead' with
            | nil =>
              have whole := splitLead_append cs
              rw [inner] at whole
              cases last
              rw [← whole] at goes
              intro ends
              exact goes ⟨rfl, ends⟩
            | cons d ds => exact slash last
      · next other =>
        cases split
        refine ⟨by simp, by simp, ?_⟩
        intro d head skipped
        cases head
        exact absurd skipped other

theorem splitLead_iff {cs lead rest : List Char} :
    splitLead cs = (lead, rest) ↔ cs = lead ++ rest ∧ IsLead lead rest := by
  constructor
  · intro split
    have whole := splitLead_append cs
    rw [split] at whole
    exact ⟨whole.symm, isLead_splitLead split⟩
  · rintro ⟨rfl, chars, slash, stops⟩
    induction lead with
    | nil => exact splitLead_stop stops
    | cons c lead ih =>
      have skipped : (isMarkupBlank c || c == '/' || c == '=') = true := chars c List.mem_cons_self
      have kept := ih (fun d mem => chars d (List.mem_cons_of_mem c mem)) (by
        intro last
        apply slash
        cases lead with
        | nil => cases last
        | cons d ds => exact last)
      rw [List.cons_append, splitLead, if_neg, if_pos skipped, kept]
      rintro ⟨rfl, ends⟩
      cases lead with
      | nil => exact slash rfl ends
      | cons d ds =>
        cases ends
        exact absurd (chars '>' (by simp)) (by decide)

structure RawAttribute.Reads (a : RawAttribute) (rest : List Char) : Prop where
  leads : ∀ c ∈ a.lead, isLeadChar c = true
  named : a.name ≠ []
  plain : ∀ c ∈ a.name, isAttributeNameChar c = true
  stops : ∀ c, (valueText a.value ++ rest).head? = some c → isAttributeNameChar c = false
  value : RawValue.Reads a.value rest

theorem RawAttribute.read_iff {lead cs rest : List Char} {c : Char} {a : RawAttribute}
    (leads : ∀ c ∈ lead, isLeadChar c = true) (first : isAttributeNameChar c = true) :
    RawAttribute.read lead c cs = some (a, rest) ↔
      lead ++ c :: cs = a.lexeme ++ rest ∧ a.lead = lead ∧ a.Reads rest := by
  constructor
  · intro done
    refine ⟨(RawAttribute.read_lexeme done).symm, ?_⟩
    obtain ⟨⟨value, after⟩, read, same⟩ := Option.map_eq_some_iff.1 done
    cases same
    obtain ⟨whole, reads⟩ := RawValue.read_iff.1 read
    refine ⟨rfl, leads, by simp, ?_, ?_, reads⟩
    · intro d mem
      rcases List.mem_cons.1 mem with rfl | mem
      · exact first
      · exact Text.mem_takeWhile mem
    · intro d head
      rw [← whole] at head
      exact Text.head?_dropWhile head
  · rintro ⟨whole, rfl, reads⟩
    obtain ⟨alead, name, value⟩ := a
    have named := reads.named
    cases name with
    | nil => exact absurd rfl named
    | cons d name =>
      simp only [RawAttribute.lexeme, RawAttribute.valueLexeme, List.append_assoc,
        List.append_cancel_left_eq, List.cons_append, List.cons.injEq] at whole
      obtain ⟨rfl, rfl⟩ := whole
      have plain : ∀ e ∈ name, isAttributeNameChar e = true := fun e mem =>
        reads.plain e (List.mem_cons_of_mem c mem)
      unfold RawAttribute.read
      have cut := reads.stops
      change ∀ e, ((value.map RawValue.lexeme).getD [] ++ rest).head? = some e →
        isAttributeNameChar e = false at cut
      have read : RawValue.read ((value.map RawValue.lexeme).getD [] ++ rest) = some (value, rest) :=
        RawValue.read_iff.2 ⟨rfl, reads.value⟩
      rw [Text.takeWhile_stop plain cut, Text.dropWhile_stop plain cut, read]
      rfl

theorem RawAttribute.Reads.append {a : RawAttribute} {rest : List Char} (tail : List Char)
    (ends : '>' ∈ rest) : a.Reads (rest ++ tail) ↔ a.Reads rest := by
  have head : (valueText a.value ++ (rest ++ tail)).head? = (valueText a.value ++ rest).head? := by
    rw [← List.append_assoc, head?_append_of_mem (List.mem_append_right _ ends)]
  constructor
  · intro reads
    exact ⟨reads.leads, reads.named, reads.plain, head ▸ reads.stops,
      (RawValue.Reads.append tail ends).1 reads.value⟩
  · intro reads
    exact ⟨reads.leads, reads.named, reads.plain, head ▸ reads.stops,
      (RawValue.Reads.append tail ends).2 reads.value⟩

/-- Attributes as they may stand one after the other before the end of a tag. -/
def AttributesSound (ending : List Char) : List RawAttribute → Prop
  | [] => True
  | a :: attrs =>
    a.Reads (attrs.flatMap RawAttribute.lexeme ++ ending) ∧
      AttributesSound ending attrs

/-- A body as it can be written. -/
structure TagBody.Sound (body : TagBody) : Prop where
  attributes : AttributesSound (body.trail ++ body.bracket) body.attrs
  trail : IsLead body.trail body.bracket

namespace TagBody

theorem read_end {cs lead more : List Char} (split : splitLead cs = (lead, '>' :: more)) :
    TagBody.read cs = some (⟨[], lead, false⟩, more) := by
  rw [TagBody.read]
  split <;> simp_all

theorem read_slash {cs lead more : List Char} (split : splitLead cs = (lead, '/' :: more)) :
    TagBody.read cs = some (⟨[], lead, true⟩, more.tail) := by
  rw [TagBody.read]
  split <;> simp_all

theorem read_attribute {cs lead more : List Char} {c : Char}
    (split : splitLead cs = (lead, c :: more)) (angle : c ≠ '>') (slash : c ≠ '/') :
    TagBody.read cs = (RawAttribute.read lead c more).bind fun (a, rest) =>
      (TagBody.read rest).map fun (body, after) => ({ body with attrs := a :: body.attrs }, after) := by
  rw [TagBody.read]
  split
  · simp_all
  · next lead' c' more' split' =>
    rw [split] at split'
    cases split'
    rw [if_neg angle, if_neg slash]
    split
    · next named =>
      rw [named]
      rfl
    · next a rest named =>
      dsimp only
      rw [named]
      rfl

theorem mem_bracket (body : TagBody) : '>' ∈ body.bracket := by
  unfold bracket
  split <;> simp

theorem mem_lexeme (body : TagBody) : '>' ∈ body.lexeme :=
  List.mem_append_right _ body.mem_bracket

theorem lexeme_getLast (body : TagBody) : body.lexeme.getLast? = some '>' := by
  unfold lexeme bracket
  split <;> simp [List.getLast?_append]

theorem bracket_head (body : TagBody) (tail : List Char) :
    ∀ c, (body.bracket ++ tail).head? = some c → isLeadChar c = true →
      (body.bracket ++ tail).take 2 = ['/', '>'] := by
  intro c head leads
  unfold bracket at head ⊢
  split
  · rfl
  · next open_ =>
    rw [if_neg open_] at head
    cases head
    exact absurd leads (by decide)

theorem isLead_bracket (body : TagBody) (tail : List Char) :
    IsLead body.trail (body.bracket ++ tail) ↔ IsLead body.trail body.bracket := by
  have head : (body.bracket ++ tail).head? = body.bracket.head? := head?_append_of_mem body.mem_bracket
  have alone := body.bracket_head []
  rw [List.append_nil] at alone
  constructor
  · rintro ⟨chars, slash, -⟩
    rw [head] at slash
    exact ⟨chars, slash, alone⟩
  · rintro ⟨chars, slash, -⟩
    rw [← head] at slash
    exact ⟨chars, slash, body.bracket_head tail⟩

theorem splitLead_name {lead tail : List Char} {c : Char}
    (leads : ∀ d ∈ lead, isLeadChar d = true) (first : isAttributeNameChar c = true) :
    splitLead (lead ++ c :: tail) = (lead, c :: tail) := by
  obtain ⟨other, angle⟩ := isAttributeNameChar_iff.1 first
  refine splitLead_iff.2 ⟨rfl, leads, ?_, ?_⟩
  · intro _ head
    cases head
    exact angle rfl
  · intro d head skipped
    cases head
    rw [other] at skipped
    cases skipped

theorem sound_read {cs rest : List Char} {body : TagBody}
    (done : TagBody.read cs = some (body, rest)) : body.Sound := by
  fun_induction TagBody.read cs generalizing body with
  | case1 => cases done
  | case2 cs lead more split =>
    cases done
    have bracket := (isLead_bracket ⟨[], lead, false⟩ rest).1
    exact ⟨trivial, bracket (isLead_splitLead split)⟩
  | case3 cs lead more split _ =>
    cases done
    have ends := head_of_splitLead_slash (congrArg Prod.snd split)
    cases more with
    | nil => cases ends
    | cons d more =>
      cases ends
      have bracket := (isLead_bracket ⟨[], lead, true⟩ more).1
      exact ⟨trivial, bracket (isLead_splitLead split)⟩
  | case4 => cases done
  | case5 cs lead c more split angle slash a tail named _ ih =>
    obtain ⟨⟨inner, after⟩, read, same⟩ := Option.map_eq_some_iff.1 done
    cases same
    obtain ⟨chars, -, stops⟩ := isLead_splitLead split
    have first : isAttributeNameChar c = true := by
      rw [isAttributeNameChar_iff]
      refine ⟨?_, angle⟩
      cases skipped : isLeadChar c with
      | false => rfl
      | true =>
        have closes := stops c rfl skipped
        rw [List.take_succ_cons, List.cons.injEq] at closes
        exact absurd closes.1 slash
    obtain ⟨-, -, reads⟩ := (RawAttribute.read_iff chars first).1 named
    have sound := ih read
    refine ⟨⟨?_, sound.attributes⟩, sound.trail⟩
    rw [← TagBody.read_lexeme read] at reads
    have here := (RawAttribute.Reads.append rest inner.mem_lexeme).1 reads
    rwa [TagBody.lexeme, TagBody.inside, List.append_assoc] at here

theorem read_cons {a : RawAttribute} {cs : List Char} (reads : a.Reads cs) :
    TagBody.read (a.lexeme ++ cs) =
      (TagBody.read cs).map fun (body, after) => ({ body with attrs := a :: body.attrs }, after) := by
  obtain ⟨c, more, name⟩ := List.exists_cons_of_ne_nil reads.named
  have first : isAttributeNameChar c = true := reads.plain c (by rw [name]; simp)
  obtain ⟨other, angle⟩ := isAttributeNameChar_iff.1 first
  have whole : a.lexeme ++ cs = a.lead ++ c :: (more ++ a.valueLexeme ++ cs) := by
    simp [RawAttribute.lexeme, name]
  have here : RawAttribute.read a.lead c (more ++ a.valueLexeme ++ cs) = some (a, cs) :=
    (RawAttribute.read_iff reads.leads first).2 ⟨whole.symm, rfl, reads⟩
  rw [whole, read_attribute (splitLead_name reads.leads first) angle (by rintro rfl; cases other),
    here, Option.bind_some]

theorem read_sound {body : TagBody} (sound : body.Sound) (rest : List Char) :
    TagBody.read (body.lexeme ++ rest) = some (body, rest) := by
  obtain ⟨attrs, trail, selfClosing⟩ := body
  induction attrs with
  | nil =>
    have lead := (isLead_bracket _ rest).2 sound.trail
    have split := splitLead_iff.2 ⟨rfl, lead⟩
    rw [← List.append_assoc] at split
    cases selfClosing with
    | false => exact read_end split
    | true => exact read_slash split
  | cons a attrs ih =>
    obtain ⟨⟨reads, others⟩, lead⟩ := sound
    have read := ih ⟨others, lead⟩
    have whole : TagBody.lexeme ⟨a :: attrs, trail, selfClosing⟩ ++ rest =
        a.lexeme ++ (TagBody.lexeme ⟨attrs, trail, selfClosing⟩ ++ rest) := by
      simp [TagBody.lexeme, TagBody.inside, TagBody.bracket]
    have follows : a.Reads (TagBody.lexeme ⟨attrs, trail, selfClosing⟩ ++ rest) := by
      rw [RawAttribute.Reads.append rest (mem_lexeme _), TagBody.lexeme, TagBody.inside, List.append_assoc]
      exact reads
    rw [whole, read_cons follows, read]
    rfl

theorem read_iff {cs rest : List Char} {body : TagBody} :
    TagBody.read cs = some (body, rest) ↔ cs = body.lexeme ++ rest ∧ body.Sound := by
  constructor
  · intro done
    exact ⟨(read_lexeme done).symm, sound_read done⟩
  · rintro ⟨rfl, sound⟩
    exact read_sound sound rest

end TagBody

end Playground.Html
