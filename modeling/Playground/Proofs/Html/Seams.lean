import Playground.Proofs.Html.Forest

/-! Texts cut between tokens. -/

namespace Playground.Text

theorem splitThrough_open {stop : Char} {cs : List Char}
    (open_ : (splitThrough stop cs).1.getLast? ≠ some stop) : (splitThrough stop cs).2 = [] := by
  by_cases found : stop ∈ cs
  · obtain ⟨a, b, rfl, clean⟩ := List.eq_append_cons_of_mem found
    rw [splitThrough_stop clean] at open_
    exact absurd List.getLast?_concat open_
  · rw [splitThrough_clean found]

end Playground.Text

namespace Playground.Html

theorem splitComment_unended {cs : List Char} (open_ : ¬ ['-', '-', '>'] <:+ (splitComment cs).1) :
    (splitComment cs).2 = [] := by
  fun_induction splitComment cs with
  | case1 => rfl
  | case2 cs => exact absurd (List.suffix_refl _) open_
  | case3 c cs other before after inner ih =>
    rw [inner] at ih
    exact ih fun ended => open_ (ended.trans (List.suffix_cons c before))

namespace Token

/-- What may follow an angle that begins nothing. -/
def Stray (cs : List Char) : Prop :=
  match cs with
  | [] => True
  | '/' :: r => ∀ d, r.head? = some d → isTagNameChar d = false
  | d :: _ => d ≠ '!' ∧ d ≠ '?' ∧ isAsciiLetter d = false

theorem takeWhile_eq_nil {p : Char → Bool} {cs : List Char} :
    cs.takeWhile p = [] ↔ ∀ d, cs.head? = some d → p d = false := by
  cases cs with
  | nil => simp
  | cons d ds => cases named : p d <;> simp [named]

theorem next_angle {cs : List Char} : (next '<' cs).1 = char '<' ↔ Stray cs := by
  cases begins '<' cs with
  | plain _ _ plain => exact absurd rfl plain
  | stray _ other =>
    rw [next_stray other]
    cases cs with
    | nil => exact iff_of_true rfl trivial
    | cons d r =>
      obtain ⟨slash, bang, query, letter⟩ := other d rfl
      unfold Stray
      split <;> simp_all
  | comment r =>
    refine iff_of_false nofun fun stray => ?_
    exact stray.1 rfl
  | close r =>
    rw [next_close, Stray, ← takeWhile_eq_nil]
    split
    · next unnamed => exact iff_of_true rfl unnamed
    · next named => exact iff_of_false nofun named
  | mark d r mark other =>
    rw [next_mark mark other]
    refine iff_of_false nofun fun stray => ?_
    unfold Stray at stray
    split at stray
    · next whole => cases whole
    · next whole =>
      cases whole
      simp at mark
    · next whole =>
      cases whole
      exact mark.elim stray.1 stray.2.1
  | letter d r letter =>
    rw [next_letter letter]
    have none_ : ¬ Stray (d :: r) := by
      intro stray
      unfold Stray at stray
      split at stray
      · next whole => cases whole
      · next whole =>
        cases whole
        cases letter
      · next whole =>
        cases whole
        rw [stray.2.2] at letter
        cases letter
    refine iff_of_false ?_ none_
    split
    · nofun
    · unfold ofOpenTag
      split <;> nofun

theorem next_stray_rest {cs : List Char} (stray : Stray cs) : next '<' cs = (char '<', cs) := by
  have first := next_angle.2 stray
  have whole := next_lexeme '<' cs
  rw [first] at whole
  exact Prod.ext first (List.cons.inj whole).2

/-- A token that does not end by itself is an angle that begins nothing, or it takes all that
follows. -/
theorem next_open {c : Char} {cs : List Char} (open_ : (next c cs).1.ended = false) :
    c = '<' ∧ Stray cs ∨ (next c cs).2 = [] := by
  cases begins c cs with
  | plain _ _ plain =>
    rw [next_plain plain] at open_
    simp [ended, plain] at open_
  | stray _ other => exact .inl ⟨rfl, next_angle.1 (by rw [next_stray other])⟩
  | comment r =>
    rw [next_comment] at open_ ⊢
    refine .inr (splitComment_unended fun closed => ?_)
    have ended_ := List.isSuffixOf_iff_suffix.2 closed
    rw [ended, ended_] at open_
    cases open_
  | close r =>
    by_cases unnamed : r.takeWhile isTagNameChar = []
    · exact .inl ⟨rfl, takeWhile_eq_nil.1 unnamed⟩
    · rw [next_close, if_neg unnamed] at open_ ⊢
      refine .inr (Text.splitThrough_open fun last => ?_)
      rw [ended, last] at open_
      cases open_
  | mark d r mark other =>
    rw [next_mark mark other] at open_ ⊢
    refine .inr (Text.splitThrough_open fun last => ?_)
    have foreign : ¬ ∃ more, (Text.splitThrough '>' (d :: r)).1 = '!' :: '-' :: '-' :: more := by
      rintro ⟨more, begins⟩
      have whole := Text.splitThrough_append '>' (d :: r)
      rw [begins, List.cons_append, List.cons_append, List.cons_append, List.cons.injEq] at whole
      obtain ⟨bang, dashes⟩ := whole
      exact other bang.symm ⟨_, dashes⟩
    rw [ended_declaration foreign] at open_
    have last' : ('<' :: (Text.splitThrough '>' (d :: r)).1).getLast? = some '>' := by
      rw [List.getLast?_cons, last]
      rfl
    rw [last'] at open_
    cases open_
  | letter d r letter =>
    rw [next_letter letter] at open_ ⊢
    split at open_
    · exact .inr rfl
    · next body rest read =>
      unfold ofOpenTag at open_ ⊢
      split at open_
      · next opens =>
        rw [if_pos opens]
        refine .inr (Text.splitThrough_open fun last => ?_)
        rw [ended, last] at open_
        cases open_
      · cases open_

def Dangles (cs : List Char) : Prop := ['<'] <:+ cs ∨ ['<', '/'] <:+ cs

instance (cs : List Char) : Decidable (Dangles cs) := inferInstanceAs (Decidable (_ ∨ _))

theorem Stray.exchange {cs x y : List Char} (stray : Stray (cs ++ y))
    (seam : ¬ Dangles ('<' :: cs) ∨ x.head? = some '<') : Stray (cs ++ x) := by
  have angle : ∀ {cs : List Char}, cs.head? = some '<' → Stray cs := by
    intro cs head
    cases cs with
    | nil => cases head
    | cons d r =>
      cases head
      exact ⟨by decide, by decide, by decide⟩
  cases cs with
  | nil =>
    rcases seam with calm | head
    · exact absurd (.inl (List.suffix_refl _)) calm
    · exact angle head
  | cons d cs =>
    by_cases slash : d = '/'
    · subst slash
      cases cs with
      | nil =>
        rcases seam with calm | head
        · exact absurd (.inr (List.suffix_refl _)) calm
        · intro e first
          cases head.symm.trans first
          decide
      | cons e cs => exact fun c first => stray c first
    · unfold Stray at stray ⊢
      split at stray
      · trivial
      · next whole => exact absurd (List.cons.inj whole).1 slash
      · next whole =>
        obtain ⟨rfl, -⟩ := List.cons.inj whole
        split
        · trivial
        · next whole => exact absurd (List.cons.inj whole).1 slash
        · next whole =>
          obtain ⟨rfl, -⟩ := List.cons.inj whole
          exact stray

theorem next_of_ofText {t : Token} {ts : List Token} {y : List Char}
    (read : ofText (t.lexeme ++ y) = t :: ts) :
    ∃ c cs, t.lexeme ++ y = c :: cs ∧ next c cs = (t, y) ∧ ofText y = ts := by
  cases whole : t.lexeme ++ y with
  | nil =>
    rw [whole, ofText] at read
    cases read
  | cons c cs =>
    rw [whole, ofText_cons] at read
    obtain ⟨first, rest⟩ := List.cons.inj read
    have cut := next_lexeme c cs
    rw [first, ← whole, List.append_cancel_left_eq] at cut
    exact ⟨c, cs, rfl, Prod.ext first cut, cut ▸ rest⟩

theorem ofText_exchange {ts : List Token} {x y : List Char}
    (read : ofText (ts.flatMap lexeme ++ y) = ts ++ ofText y) (some_ : y ≠ [])
    (seam : ¬ Dangles (ts.flatMap lexeme) ∨ x.head? = some '<') :
    ofText (ts.flatMap lexeme ++ x) = ts ++ ofText x := by
  induction ts with
  | nil => rfl
  | cons t ts ih =>
    have later : ¬ Dangles (ts.flatMap lexeme) ∨ x.head? = some '<' := by
      refine seam.imp_left fun calm dangles => calm ?_
      exact dangles.imp (·.trans (List.suffix_append _ _)) (·.trans (List.suffix_append _ _))
    rw [List.flatMap_cons, List.append_assoc] at read ⊢
    rw [List.cons_append] at read
    obtain ⟨c, cs, -, here, rest⟩ := next_of_ofText read
    cases ends : t.ended with
    | true =>
      have sound := @sound_of_ended c cs
      rw [here] at sound
      rw [(sound ends).ofText, ih rest later, List.cons_append]
    | false =>
      have open_ := @next_open c cs
      rw [here] at open_
      rcases open_ ends with ⟨rfl, stray⟩ | none_
      · cases here.symm.trans (next_stray_rest stray)
        have angle := next_stray_rest (stray.exchange seam)
        change ofText ('<' :: (ts.flatMap lexeme ++ x)) = char '<' :: (ts ++ ofText x)
        rw [ofText_cons, angle, ih rest later]
      · exact absurd (List.append_eq_nil_iff.1 none_).2 some_

theorem ofText_rest {cs : List Char} {ts us : List Token} (read : ofText cs = ts ++ us) :
    ofText (us.flatMap lexeme) = us ∧ cs = ts.flatMap lexeme ++ us.flatMap lexeme := by
  have whole := ofText_lexeme cs
  rw [read, List.flatMap_append] at whole
  refine ⟨?_, whole.symm⟩
  rw [← whole] at read
  clear whole
  induction ts with
  | nil => exact read
  | cons t ts ih =>
    rw [List.flatMap_cons, List.append_assoc, List.cons_append] at read
    obtain ⟨_, _, -, -, rest⟩ := next_of_ofText read
    exact ih rest

theorem ofText_cut {cs cs' : List Char} {ts us : List Token} (read : ofText cs = ts ++ us)
    (some_ : us ≠ []) (seam : ¬ Dangles (ts.flatMap lexeme) ∨ cs'.head? = some '<') :
    ofText (ts.flatMap lexeme ++ cs') = ts ++ ofText cs' := by
  obtain ⟨rest, whole⟩ := ofText_rest read
  obtain ⟨t, us, rfl⟩ := List.exists_cons_of_ne_nil some_
  have first : t.lexeme ≠ [] := lexeme_ne_nil_of_mem (by
    rw [read]
    exact List.mem_append_right _ List.mem_cons_self)
  refine ofText_exchange (y := (t :: us).flatMap lexeme) ?_ ?_ seam
  · rw [← whole, read, rest]
  · intro none_
    rw [List.flatMap_cons, List.append_eq_nil_iff] at none_
    exact first none_.1

theorem next_tagged {c : Char} {cs : List Char} (tagged : ∃ e, (next c cs).1.element? 0 = some e) :
    c = '<' ∧ ∃ name body rest, TagStart name body ∧ cs = name ++ (body.lexeme ++ rest) ∧
      next c cs = ofOpenTag name body rest := by
  obtain ⟨e, tagged⟩ := tagged
  cases begins c cs with
  | plain _ _ plain =>
    rw [next_plain plain] at tagged
    cases tagged
  | stray _ other =>
    rw [next_stray other] at tagged
    cases tagged
  | comment r => cases tagged
  | close r =>
    rw [next_close] at tagged
    split at tagged <;> cases tagged
  | mark d r mark other =>
    rw [next_mark mark other] at tagged
    cases tagged
  | letter d r letter =>
    rw [next_letter letter] at tagged ⊢
    split at tagged
    · cases tagged
    · next body rest read =>
      refine ⟨rfl, _, body, rest, tagStart_of_read letter read, ?_, rfl⟩
      rw [TagBody.read_lexeme read, List.takeWhile_append_dropWhile]

theorem ofText_tagged {t : Token} {ts : List Token} {pos : Nat} {e : Element}
    (read : ofText (t.lexeme ++ ts.flatMap lexeme) = t :: ts) (tagged : t.element? pos = some e) :
    ∃ name body rest, TagStart name body ∧
      t.lexeme ++ ts.flatMap lexeme = '<' :: (name ++ (body.lexeme ++ rest)) ∧
        ofOpenTag name body rest = (t, ts.flatMap lexeme) := by
  obtain ⟨c, cs, whole, here, -⟩ := next_of_ofText read
  have found : ∃ e, (next c cs).1.element? 0 = some e := by
    rw [here]
    cases t with
    | openTag | raw => exact ⟨_, rfl⟩
    | char | aside | closeTag | unfinished => cases tagged
  obtain ⟨rfl, name, body, rest, begins, rfl, opens⟩ := next_tagged found
  exact ⟨name, body, rest, begins, whole, opens.symm.trans here⟩

end Token

end Playground.Html
