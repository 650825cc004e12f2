import Playground.Proofs.Html.Tag

/-! A token that ends by itself is read back whatever follows it (`Token.Sound.reads`). -/

namespace Playground.Text

theorem splitThrough_clean {stop : Char} {cs : List Char} (clean : stop ∉ cs) :
    splitThrough stop cs = (cs, []) := by
  induction cs with
  | nil => rfl
  | cons c cs ih =>
    simp only [List.mem_cons, not_or] at clean
    simp [splitThrough, Ne.symm clean.1, ih clean.2]

theorem splitThrough_stop {stop : Char} {a : List Char} (clean : stop ∉ a) (rest : List Char) :
    splitThrough stop (a ++ stop :: rest) = (a ++ [stop], rest) := by
  induction a with
  | nil => simp [splitThrough]
  | cons c cs ih =>
    simp only [List.mem_cons, not_or] at clean
    simp [splitThrough, Ne.symm clean.1, ih clean.2]

theorem splitThrough_ended {stop : Char} {cs before rest : List Char}
    (cut : splitThrough stop cs = (before, rest)) (ended : before.getLast? = some stop) :
    ∃ a, before = a ++ [stop] ∧ stop ∉ a := by
  by_cases found : stop ∈ cs
  · obtain ⟨a, b, rfl, clean⟩ := List.eq_append_cons_of_mem found
    rw [splitThrough_stop clean] at cut
    cases cut
    exact ⟨a, rfl, clean⟩
  · rw [splitThrough_clean found] at cut
    cases cut
    exact absurd (List.mem_of_getLast? ended) found

theorem splitThrough_nil {stop : Char} {cs : List Char} (none_ : (splitThrough stop cs).1 = []) :
    (splitThrough stop cs).2 = [] := by
  cases cs with
  | nil => rfl
  | cons c cs =>
    rw [splitThrough] at none_
    split at none_ <;> cases none_

theorem lower_eq_self_of_mem {x : Char} {cs : List Char} (mem : x ∈ cs) (same : x.toLower = x) :
    x ∈ lower cs := by
  exact List.mem_map.2 ⟨x, mem, same⟩

end Playground.Text

namespace Playground.Html

theorem splitComment_ended {cs before rest : List Char} (cut : splitComment cs = (before, rest))
    (ended : ['-', '-', '>'] <:+ before) (tail : List Char) :
    splitComment (before ++ tail) = (before, tail) := by
  fun_induction splitComment cs generalizing before with
  | case1 =>
    cases cut
    simp at ended
  | case2 cs =>
    cases cut
    rfl
  | case3 c cs other before' after' inner ih =>
    cases cut
    have whole := splitComment_append cs
    rw [inner] at whole
    rcases List.suffix_cons_iff.1 ended with whole' | ended'
    · cases whole'
      exact absurd whole.symm (other _ rfl)
    · have kept := ih inner ended'
      rw [List.cons_append, splitComment, kept]
      rintro ds rfl same
      obtain ⟨lead, rfl⟩ := ended'
      cases lead with
      | nil => cases same
      | cons a lead =>
        cases lead with
        | nil => cases same
        | cons b lead =>
          cases same
          simp at whole
          exact other _ rfl whole.symm

theorem closesRaw_upto {tag : List Char} {x c : Char} (foreign : x ∉ tag) (same : x.toLower = x)
    (slash : x ≠ '/') (cs tail tail' : List Char) :
    closesRaw tag (c :: (cs ++ x :: tail)) = closesRaw tag (c :: (cs ++ x :: tail')) := by
  cases cs with
  | nil => simp [closesRaw, slash]
  | cons d r =>
    by_cases head : c = '<' ∧ d = '/'
    · obtain ⟨rfl, rfl⟩ := head
      rw [List.cons_append, List.cons_append, closesRaw, closesRaw]
      by_cases short : tag.length ≤ r.length
      · rw [List.take_append_of_le_length short, List.take_append_of_le_length short,
          List.drop_append_of_le_length short, List.drop_append_of_le_length short]
        cases r.drop tag.length <;> rfl
      · have differs : ∀ ds : List Char,
            (Text.lower ((r ++ x :: ds).take tag.length) == tag) = false := by
          intro ds
          rw [beq_eq_false_iff_ne]
          rintro equal
          apply foreign
          rw [← equal]
          apply Text.lower_eq_self_of_mem _ same
          rw [List.take_append]
          apply List.mem_append_right
          cases count : tag.length - r.length with
          | zero => omega
          | succ n => simp
        rw [differs, differs, Bool.false_and, Bool.false_and]
    · have other : ∀ ds : List Char, closesRaw tag (c :: d :: ds) = false := by
        intro ds
        unfold closesRaw
        split
        · next whole =>
          cases whole
          exact absurd ⟨rfl, rfl⟩ head
        · rfl
      rw [List.cons_append, List.cons_append, other, other]

theorem splitRaw_stable {tag content tail : List Char} (later : List Char) (foreign : '<' ∉ tag)
    (cut : splitRaw tag (content ++ '<' :: later) = (content, '<' :: later))
    (closes : closesRaw tag ('<' :: tail) = true) :
    splitRaw tag (content ++ '<' :: tail) = (content, '<' :: tail) := by
  induction content with
  | nil => rw [List.nil_append, splitRaw, if_pos closes]
  | cons c content ih =>
    rw [List.cons_append, splitRaw] at cut ⊢
    rw [closesRaw_upto foreign (by decide) (by decide) content tail later]
    split at cut
    · cases cut
    · cases inner : splitRaw tag (content ++ '<' :: later) with
      | mk a b =>
        rw [inner] at cut
        cases cut
        rw [if_neg (by assumption), ih inner]

structure TagStart (name : List Char) (body : TagBody) : Prop where
  letter : ∃ c cs, name = c :: cs ∧ isAsciiLetter c = true
  chars : ∀ c ∈ name, isTagNameChar c = true
  stops : ∀ c, body.lexeme.head? = some c → isTagNameChar c = false
  sound : body.Sound

def TagBody.bare : TagBody := ⟨[], [], false⟩

theorem tagStart_bare {name : List Char} (letter : ∃ c cs, name = c :: cs ∧ isAsciiLetter c = true)
    (chars : ∀ c ∈ name, isTagNameChar c = true) : TagStart name .bare where
  letter := letter
  chars := chars
  stops := by rintro c ⟨⟩; decide
  sound := ⟨trivial, by simp [TagBody.bare], by simp [TagBody.bare], by rintro c ⟨⟩; decide⟩

namespace Token

inductive Begins : Char → List Char → Prop
  | plain (c : Char) (cs : List Char) (plain : c ≠ '<') : Begins c cs
  | stray (cs : List Char)
      (other : ∀ d, cs.head? = some d → d ≠ '/' ∧ d ≠ '!' ∧ d ≠ '?' ∧ isAsciiLetter d = false) :
      Begins '<' cs
  | comment (r : List Char) : Begins '<' ('!' :: '-' :: '-' :: r)
  | close (r : List Char) : Begins '<' ('/' :: r)
  | mark (d : Char) (r : List Char) (mark : d = '!' ∨ d = '?')
      (other : d = '!' → ¬ ['-', '-'] <+: r) : Begins '<' (d :: r)
  | letter (d : Char) (r : List Char) (letter : isAsciiLetter d = true) : Begins '<' (d :: r)

theorem begins (c : Char) (cs : List Char) : Begins c cs := by
  by_cases angle : c = '<'
  · subst angle
    cases cs with
    | nil => exact .stray [] (by simp)
    | cons d r =>
      by_cases close : d = '/'
      · subst close
        exact .close r
      by_cases mark : d = '!' ∨ d = '?'
      · by_cases comment : d = '!' ∧ ['-', '-'] <+: r
        · obtain ⟨rfl, more, rfl⟩ := comment
          exact .comment more
        · exact .mark d r mark (fun bang dashes => comment ⟨bang, dashes⟩)
      cases letter : isAsciiLetter d with
      | true => exact .letter d r letter
      | false =>
        refine .stray (d :: r) ?_
        rintro _ ⟨⟩
        exact ⟨close, fun bang => mark (.inl bang), fun query => mark (.inr query), letter⟩
  · exact .plain c cs angle

theorem next_plain {c : Char} (plain : c ≠ '<') (cs : List Char) : next c cs = (char c, cs) := by
  rw [next.eq_def, if_neg plain]

theorem next_stray {cs : List Char}
    (other : ∀ d, cs.head? = some d → d ≠ '/' ∧ d ≠ '!' ∧ d ≠ '?' ∧ isAsciiLetter d = false) :
    next '<' cs = (char '<', cs) := by
  cases cs with
  | nil => rfl
  | cons d r =>
    obtain ⟨slash, bang, query, letter⟩ := other d rfl
    unfold next
    split <;> simp_all

theorem next_comment (r : List Char) :
    next '<' ('!' :: '-' :: '-' :: r) =
      (aside ('<' :: '!' :: '-' :: '-' :: (splitComment r).1), (splitComment r).2) := rfl

theorem next_close (r : List Char) :
    next '<' ('/' :: r) =
      if r.takeWhile isTagNameChar = [] then (char '<', '/' :: r)
      else
        (closeTag (r.takeWhile isTagNameChar) (Text.splitThrough '>' (r.dropWhile isTagNameChar)).1,
          (Text.splitThrough '>' (r.dropWhile isTagNameChar)).2) := rfl

theorem next_mark {d : Char} {r : List Char} (mark : d = '!' ∨ d = '?')
    (other : d = '!' → ¬ ['-', '-'] <+: r) :
    next '<' (d :: r) =
      (aside ('<' :: (Text.splitThrough '>' (d :: r)).1), (Text.splitThrough '>' (d :: r)).2) := by
  rw [next, if_pos rfl, if_pos mark]
  · rintro more bang rfl
    exact other bang ⟨more, rfl⟩
  · rintro rfl
    simp at mark

theorem next_letter {d : Char} {r : List Char} (letter : isAsciiLetter d = true) :
    next '<' (d :: r) =
      match TagBody.read ((d :: r).dropWhile isTagNameChar) with
      | none => (unfinished ('<' :: d :: r), [])
      | some (body, rest) => ofOpenTag ((d :: r).takeWhile isTagNameChar) body rest := by
  have unmarked : ¬ (d = '!' ∨ d = '?') := by
    rintro (rfl | rfl) <;> cases letter
  unfold next
  rw [if_pos rfl]
  split
  · next same =>
    cases same
    cases letter
  · next same =>
    cases same
    cases letter
  · next same =>
    cases same
    cases TagBody.read ((d :: r).dropWhile isTagNameChar) with
    | none => simp only [unmarked, letter, if_false, if_true]
    | some read => simp only [unmarked, letter, if_false, if_true]
  · next same => cases same

/-- Whether a token ends by itself and not with the text. An angle that begins nothing does not:
what follows could give it a meaning. -/
def ended : Token → Bool
  | char c => c != '<'
  | aside ('<' :: '!' :: '-' :: '-' :: text) => ['-', '-', '>'].isSuffixOf text
  | aside text => text.getLast? == some '>'
  | closeTag _ tail => tail.getLast? == some '>'
  | openTag _ _ => true
  | raw _ _ _ closing => closing.getLast? == some '>'
  | unfinished _ => false

/-- The grammar of tokens that end by themselves. -/
inductive Sound : Token → Prop
  | char (c : Char) (plain : c ≠ '<') : Sound (char c)
  | comment (text : List Char) (closed : ∀ tail, splitComment (text ++ tail) = (text, tail)) :
      Sound (aside ('<' :: '!' :: '-' :: '-' :: text))
  | declaration (d : Char) (text : List Char) (mark : d = '!' ∨ d = '?') (clean : '>' ∉ text)
      (other : d = '!' → ¬ ['-', '-'] <+: text) : Sound (aside ('<' :: d :: (text ++ ['>'])))
  | closeTag (name text : List Char) (named : name ≠ [])
      (chars : ∀ c ∈ name, isTagNameChar c = true)
      (stops : ∀ c, text.head? = some c → isTagNameChar c = false) (clean : '>' ∉ text) :
      Sound (closeTag name (text ++ ['>']))
  | openTag (name : List Char) (body : TagBody) (begins : TagStart name body)
      (normal : body.selfClosing = true ∨ tagOf name ∉ rawTextTags) : Sound (openTag name body)
  | raw (name : List Char) (body : TagBody) (content text : List Char)
      (begins : TagStart name body) (opens : body.selfClosing = false)
      (opaque_ : tagOf name ∈ rawTextTags)
      (inside : ∀ tail, splitRaw (Text.lower name) (content ++ '<' :: (text ++ '>' :: tail)) =
        (content, '<' :: (text ++ '>' :: tail))) (clean : '>' ∉ text) :
      Sound (raw name body content ('<' :: (text ++ ['>'])))

theorem ofText_cons (c : Char) (cs : List Char) :
    ofText (c :: cs) = (next c cs).1 :: ofText (next c cs).2 := by
  rw [ofText]

theorem raw_name_clean {name : List Char} (raw : tagOf name ∈ rawTextTags) :
    '<' ∉ Text.lower name ∧ '>' ∉ Text.lower name := by
  have tag : Text.lower name = (tagOf name).toList := by simp [tagOf]
  rw [tag]
  generalize tagOf name = n at raw
  simp only [rawTextTags, List.mem_cons, List.not_mem_nil, or_false] at raw
  rcases raw with rfl | rfl | rfl | rfl <;> decide

theorem closes_of_splitRaw {tag cs content rest : List Char}
    (cut : splitRaw tag cs = (content, rest)) (more : rest ≠ []) :
    closesRaw tag rest = true ∧ ∃ later, rest = '<' :: later := by
  induction cs generalizing content with
  | nil =>
    cases cut
    exact absurd rfl more
  | cons c cs ih =>
    rw [splitRaw] at cut
    split at cut
    · next closes =>
      cases cut
      refine ⟨closes, ?_⟩
      unfold closesRaw at closes
      split at closes
      · next r whole =>
        rw [whole]
        exact ⟨_, rfl⟩
      · cases closes
    · cases inner : splitRaw tag cs with
      | mk a b =>
        rw [inner] at cut
        cases cut
        exact ih inner

theorem takeWhile_names (cs : List Char) : ∀ c ∈ cs.takeWhile isTagNameChar, isTagNameChar c = true :=
  fun _ mem => Text.mem_takeWhile mem

theorem tagStart_of_read {d : Char} {r rest : List Char} {body : TagBody}
    (letter : isAsciiLetter d = true)
    (read : TagBody.read ((d :: r).dropWhile isTagNameChar) = some (body, rest)) :
    TagStart ((d :: r).takeWhile isTagNameChar) body := by
  have named : isTagNameChar d = true := by simp [isTagNameChar, letter]
  obtain ⟨whole, sound⟩ := TagBody.read_iff.1 read
  refine ⟨⟨d, r.takeWhile isTagNameChar, ?_, letter⟩, takeWhile_names _, ?_, sound⟩
  · rw [List.takeWhile_cons, if_pos named]
  · intro c head
    have same : (body.lexeme ++ rest).head? = body.lexeme.head? :=
      head?_append_of_mem body.mem_lexeme
    rw [← same, ← whole] at head
    exact Text.head?_dropWhile head

theorem sound_ofOpenTag {name rest : List Char} {body : TagBody} (begins : TagStart name body)
    (ended : (ofOpenTag name body rest).1.ended = true) : (ofOpenTag name body rest).1.Sound := by
  unfold ofOpenTag at ended ⊢
  split
  · next open_ =>
    rw [if_pos open_] at ended
    simp only [Bool.and_eq_true, Bool.not_eq_true', decide_eq_true_eq] at open_
    obtain ⟨foreign, foreign'⟩ := raw_name_clean open_.2
    cases cut : splitRaw (Text.lower name) rest with
    | mk content after =>
      cases through : Text.splitThrough '>' after with
      | mk closing later =>
        simp only [cut, through, Token.ended, beq_iff_eq] at ended ⊢
        obtain ⟨a, rfl, clean⟩ := Text.splitThrough_ended through ended
        have whole := Text.splitThrough_append '>' after
        rw [through] at whole
        have more : after ≠ [] := by
          rintro rfl
          simp at whole
        obtain ⟨closes, x, rfl⟩ := closes_of_splitRaw cut more
        cases a with
        | nil => cases whole
        | cons b text =>
          have split := splitRaw_append (Text.lower name) rest
          rw [cut] at split
          simp only [List.cons_append, List.append_assoc, List.nil_append, List.cons.injEq] at whole
          obtain ⟨rfl, rfl⟩ := whole
          refine .raw name body content text begins open_.1 open_.2 ?_ ?_
          · intro tail
            apply splitRaw_stable (text ++ '>' :: later) foreign
            · rw [← cut, ← split]
            · rw [closesRaw_upto foreign' (by decide) (by decide) text tail later]
              exact closes
          · exact fun mem => clean (List.mem_cons_of_mem _ mem)
  · next normal =>
    refine .openTag name body begins ?_
    simp only [Bool.and_eq_true, Bool.not_eq_true', decide_eq_true_eq, not_and] at normal
    cases closing : body.selfClosing with
    | true => exact .inl rfl
    | false => exact .inr (normal closing)

theorem ended_declaration {text : List Char} (other : ¬ ∃ r, text = '!' :: '-' :: '-' :: r) :
    (aside ('<' :: text)).ended = (('<' :: text).getLast? == some '>') := by
  unfold ended
  split <;> simp_all

theorem close_sound {r : List Char} (ended : (next '<' ('/' :: r)).1.ended = true) :
    (next '<' ('/' :: r)).1.Sound := by
  rw [next_close] at ended ⊢
  split at ended
  · cases ended
  · next named =>
    rw [if_neg named]
    cases cut : Text.splitThrough '>' (r.dropWhile isTagNameChar) with
    | mk tail rest =>
      have whole := Text.splitThrough_append '>' (r.dropWhile isTagNameChar)
      simp only [cut, Token.ended, beq_iff_eq] at ended whole ⊢
      obtain ⟨text, rfl, clean⟩ := Text.splitThrough_ended cut ended
      refine .closeTag _ text named (takeWhile_names r) ?_ clean
      intro d head
      have first : (r.dropWhile isTagNameChar).head? = some d := by
        rw [← whole]
        cases text with
        | nil => cases head
        | cons e es => exact head
      exact Text.head?_dropWhile first

theorem mark_sound {d : Char} {r : List Char} (mark : d = '!' ∨ d = '?')
    (other : d = '!' → ¬ ['-', '-'] <+: r) (ended : (next '<' (d :: r)).1.ended = true) :
    (next '<' (d :: r)).1.Sound := by
  rw [next_mark mark other] at ended ⊢
  cases cut : Text.splitThrough '>' (d :: r) with
  | mk text rest =>
    have whole := Text.splitThrough_append '>' (d :: r)
    simp only [cut] at ended whole ⊢
    have last : text.getLast? = some '>' := by
      rw [ended_declaration, beq_iff_eq] at ended
      · cases text with
        | nil => cases ended
        | cons e es => exact ended
      · rintro ⟨more, rfl⟩
        cases whole
        exact other rfl ⟨_, rfl⟩
    obtain ⟨a, rfl, clean⟩ := Text.splitThrough_ended cut last
    cases a with
    | nil =>
      cases whole
      simp at mark
    | cons e text =>
      simp only [List.cons_append, List.cons.injEq] at whole
      obtain ⟨rfl, rfl⟩ := whole
      refine .declaration e text mark (fun mem => clean (List.mem_cons_of_mem _ mem)) ?_
      rintro rfl ⟨more, rfl⟩
      exact other rfl ⟨_, rfl⟩

theorem sound_of_ended {c : Char} {cs : List Char} (ended : (next c cs).1.ended = true) :
    (next c cs).1.Sound := by
  cases begins c cs with
  | plain _ _ plain =>
    rw [next_plain plain]
    exact .char c plain
  | stray _ other =>
    rw [next_stray other] at ended
    cases ended
  | comment r =>
    rw [next_comment] at ended ⊢
    have cut : splitComment r = ((splitComment r).1, (splitComment r).2) := rfl
    exact .comment _ (splitComment_ended cut (List.isSuffixOf_iff_suffix.1 ended))
  | close r => exact close_sound ended
  | mark d r mark other => exact mark_sound mark other ended
  | letter d r letter =>
    rw [next_letter letter] at ended ⊢
    split at ended
    · cases ended
    · next body rest read => exact sound_ofOpenTag (tagStart_of_read letter read) ended

theorem next_named {name rest : List Char} (letter : ∃ c cs, name = c :: cs ∧ isAsciiLetter c = true)
    (chars : ∀ c ∈ name, isTagNameChar c = true)
    (stops : ∀ c, rest.head? = some c → isTagNameChar c = false) :
    next '<' (name ++ rest) =
      match TagBody.read rest with
      | none => (unfinished ('<' :: (name ++ rest)), [])
      | some (body, more) => ofOpenTag name body more := by
  have named := Text.takeWhile_stop chars stops
  have after := Text.dropWhile_stop chars stops
  obtain ⟨c, cs, rfl, letter⟩ := letter
  rw [List.cons_append] at named after ⊢
  rw [next_letter letter, named, after]

theorem next_openTag {name : List Char} {body : TagBody} (begins : TagStart name body)
    (tail : List Char) :
    next '<' (name ++ (body.lexeme ++ tail)) = ofOpenTag name body tail := by
  have stops : ∀ c, (body.lexeme ++ tail).head? = some c → isTagNameChar c = false := by
    intro c head
    rw [head?_append_of_mem body.mem_lexeme] at head
    exact begins.stops c head
  rw [next_named begins.letter begins.chars stops, TagBody.read_sound begins.sound]

theorem Sound.next {t : Token} (sound : t.Sound) :
    ∃ c cs, t.lexeme = c :: cs ∧ ∀ tail, Token.next c (cs ++ tail) = (t, tail) := by
  cases sound with
  | char c plain => exact ⟨c, [], rfl, fun tail => next_plain plain tail⟩
  | comment text closed =>
    refine ⟨'<', _, rfl, ?_⟩
    intro tail
    rw [List.cons_append, List.cons_append, List.cons_append, next_comment, closed]
  | declaration d text mark clean other =>
    refine ⟨'<', _, rfl, ?_⟩
    intro tail
    have clean' : '>' ∉ d :: text := by
      rintro (_ | ⟨_, mem⟩)
      · simp at mark
      · exact clean mem
    have other' : d = '!' → ¬ ['-', '-'] <+: text ++ '>' :: tail := by
      rintro bang ⟨more, same⟩
      cases text with
      | nil => cases same
      | cons a text =>
        cases text with
        | nil => cases same
        | cons b text =>
          cases same
          exact other bang ⟨text, rfl⟩
    have whole' : text ++ ['>'] ++ tail = text ++ '>' :: tail := by simp
    rw [List.cons_append, whole', next_mark mark other', ← List.cons_append,
      Text.splitThrough_stop clean']
    rfl
  | closeTag name text named chars stops clean =>
    refine ⟨'<', '/' :: (name ++ (text ++ ['>'])), rfl, ?_⟩
    intro tail
    have whole : name ++ (text ++ ['>']) ++ tail = name ++ (text ++ '>' :: tail) := by simp
    have stops' : ∀ c, (text ++ '>' :: tail).head? = some c → isTagNameChar c = false := by
      intro c head
      cases text with
      | nil =>
        cases head
        decide
      | cons a text => exact stops c head
    rw [List.cons_append, whole, next_close, Text.takeWhile_stop chars stops',
      Text.dropWhile_stop chars stops', if_neg named, Text.splitThrough_stop clean]
  | openTag name body begins normal =>
    refine ⟨'<', name ++ body.lexeme, rfl, ?_⟩
    intro tail
    rw [List.append_assoc, next_openTag begins, ofOpenTag, if_neg]
    rcases normal with closing | normal
    · simp [closing]
    · simp [normal]
  | raw name body content text begins opens opaque_ inside clean =>
    refine ⟨'<', name ++ body.lexeme ++ content ++ '<' :: (text ++ ['>']), rfl, ?_⟩
    intro tail
    have whole : name ++ body.lexeme ++ content ++ '<' :: (text ++ ['>']) ++ tail =
        name ++ (body.lexeme ++ (content ++ '<' :: (text ++ '>' :: tail))) := by simp
    rw [whole, next_openTag begins, ofOpenTag, if_pos (by simp [opens, opaque_]), inside]
    have clean' : '>' ∉ '<' :: text := by
      rintro (_ | ⟨_, mem⟩)
      exact clean mem
    dsimp only
    rw [← List.cons_append, Text.splitThrough_stop clean']
    rfl

theorem Sound.ofText {t : Token} (sound : t.Sound) (tail : List Char) :
    Token.ofText (t.lexeme ++ tail) = t :: Token.ofText tail := by
  obtain ⟨c, cs, lexeme, next⟩ := sound.next
  rw [lexeme, List.cons_append, ofText_cons, next]

theorem ofText_lexemes {ts : List Token} (sound : ∀ t ∈ ts, t.Sound) (tail : List Char) :
    ofText (ts.flatMap lexeme ++ tail) = ts ++ ofText tail := by
  induction ts with
  | nil => rfl
  | cons t ts ih =>
    have first := (sound t List.mem_cons_self).ofText (ts.flatMap lexeme ++ tail)
    rw [List.flatMap_cons, List.append_assoc, first,
      ih (fun u mem => sound u (List.mem_cons_of_mem t mem)), List.cons_append]

theorem sound_of_mem {t : Token} {cs : List Char} (mem : t ∈ ofText cs) (ended : t.ended = true) :
    t.Sound := by
  fun_induction ofText cs with
  | case1 => cases mem
  | case2 c rest _ ih =>
    rcases List.mem_cons.1 mem with rfl | later
    · exact sound_of_ended ended
    · exact ih later

theorem lexeme_ne_nil_of_mem {t : Token} {cs : List Char} (mem : t ∈ ofText cs) : t.lexeme ≠ [] := by
  fun_induction ofText cs with
  | case1 => cases mem
  | case2 c rest _ ih =>
    rcases List.mem_cons.1 mem with rfl | later
    · exact lexeme_ne_nil c rest
    · exact ih later

theorem next_raw_open {c : Char} {cs name content : List Char} {body : TagBody}
    (open_ : (next c cs).1 = .raw name body content []) : (next c cs).2 = [] := by
  cases begins c cs with
  | plain _ _ plain =>
    rw [next_plain plain] at open_
    cases open_
  | stray _ other =>
    rw [next_stray other] at open_
    cases open_
  | comment r =>
    rw [next_comment] at open_
    cases open_
  | close r =>
    rw [next_close] at open_
    split at open_ <;> cases open_
  | mark d r mark other =>
    rw [next_mark mark other] at open_
    cases open_
  | letter d r letter =>
    rw [next_letter letter] at open_ ⊢
    split at open_
    · cases open_
    · next body' rest read =>
      unfold ofOpenTag at open_ ⊢
      split at open_
      · next opens =>
        rw [if_pos opens]
        obtain ⟨-, -, -, closing⟩ := raw.inj open_
        exact Text.splitThrough_nil closing
      · cases open_

theorem ofText_raw_open {cs name content : List Char} {body : TagBody} {before after : List Token}
    (whole : ofText cs = before ++ raw name body content [] :: after) : after = [] := by
  induction before generalizing cs with
  | nil =>
    cases cs with
    | nil =>
      rw [ofText] at whole
      cases whole
    | cons c cs =>
      rw [ofText_cons] at whole
      obtain ⟨first, rest⟩ := List.cons.inj whole
      rw [← rest, next_raw_open first, ofText]
  | cons t before ih =>
    cases cs with
    | nil =>
      rw [ofText] at whole
      cases whole
    | cons c cs =>
      rw [ofText_cons] at whole
      exact ih (List.cons.inj whole).2

end Token

end Playground.Html
