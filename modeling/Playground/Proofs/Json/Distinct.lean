import Playground.Proofs.Json.Reading

/-! Values are told apart by their compact texts, which say where they end. -/

namespace Playground.Json

mutual

/-- All its numbers that are not whole are in their only form. -/
def IsProper : Json → Prop
  | float x => x.IsProper
  | arr items => AreProper items
  | obj fields => HaveProper fields
  | _ => True

def AreProper : List Json → Prop
  | [] => True
  | j :: rest => j.IsProper ∧ AreProper rest

def HaveProper : List (String × Json) → Prop
  | [] => True
  | (_, v) :: rest => v.IsProper ∧ HaveProper rest

end

theorem literal_append {s t : String} {r r' : List Char} (same : literal s ++ r = literal t ++ r') :
    s = t ∧ r = r' := by
  obtain ⟨a, shape, spelled⟩ := exists_literal s
  obtain ⟨b, shape', spelled'⟩ := exists_literal t
  obtain ⟨_, first⟩ := readLiteral_spelled spelled r 0
  obtain ⟨_, second⟩ := readLiteral_spelled spelled' r' 0
  rw [shape, shape', List.cons_append, List.cons_append] at same
  rw [same, second, Except.ok.injEq, Prod.mk.injEq, Cursor.mk.injEq] at first
  exact ⟨first.1.symm, first.2.1.symm⟩

open NumberLayout (IsNumberChar IsDigits)

def IsEnd (cs : List Char) : Prop := ∀ c more, cs = c :: more → c ∈ [',', ']', '\x7d']

theorem isEnd_nil : IsEnd [] := nofun

theorem not_isNumberChar {c : Char} (mem : c ∈ [',', ']', '\x7d']) : ¬ IsNumberChar c := by
  simp only [List.mem_cons, List.not_mem_nil, or_false] at mem
  rcases mem with rfl | rfl | rfl <;> simp [IsNumberChar]

theorem number_append {a b r s : List Char} (ha : ∀ c ∈ a, IsNumberChar c)
    (hb : ∀ c ∈ b, IsNumberChar c) (hr : IsEnd r) (hs : IsEnd s) (same : a ++ r = b ++ s) :
    a = b ∧ r = s := by
  induction a generalizing b with
  | nil =>
    cases b with
    | nil => exact ⟨rfl, same⟩
    | cons c b => exact absurd (hb c List.mem_cons_self) (not_isNumberChar (hr c _ same))
  | cons c a ih =>
    cases b with
    | nil => exact absurd (ha c List.mem_cons_self) (not_isNumberChar (hs c _ same.symm))
    | cons d b =>
      rw [List.cons_append, List.cons_append, List.cons.injEq] at same
      obtain ⟨rfl, rest⟩ := ih (List.forall_mem_of_forall_mem_cons ha)
        (List.forall_mem_of_forall_mem_cons hb) same.2
      exact ⟨by rw [same.1], rest⟩

theorem toDigits_injective {m n : ℕ} (same : Nat.toDigits 10 m = Nat.toDigits 10 n) : m = n := by
  rw [← Nat.ofDigitChars_ten_toDigits (n := m), same, Nat.ofDigitChars_ten_toDigits]

theorem toDigits_ne_minus (n : ℕ) (cs : List Char) : Nat.toDigits 10 n ≠ '-' :: cs := fun same =>
  absurd (NumberLayout.isDigits_toDigits n '-' (same ▸ List.mem_cons_self)) (by decide)

theorem intText_injective {m n : ℤ} (same : intText m = intText n) : m = n := by
  cases m with
  | ofNat m =>
    cases n with
    | ofNat n => rw [toDigits_injective same]
    | negSucc n => exact absurd same (toDigits_ne_minus m _)
  | negSucc m =>
    cases n with
    | ofNat n => exact absurd same.symm (toDigits_ne_minus n _)
    | negSucc n => rw [Nat.succ.inj (toDigits_injective (List.cons.inj same).2)]

theorem text_ne_intText (layout : NumberLayout) (x : Binary64) (n : ℤ) :
    (layout.text x).toList ≠ intText n := by
  have shape := layout.isMagnitude_magnitudeText x
  obtain ⟨c, more, first, digit⟩ := shape.first
  rw [NumberLayout.toList_text]
  intro same
  cases n with
  | ofNat n =>
    have digits : IsDigits (intText (.ofNat n)) := NumberLayout.isDigits_toDigits n
    rw [← same] at digits
    exact shape.real fun c mem => digits c (List.mem_append_right _ mem)
  | negSucc n =>
    cases sign : x.negative with
    | false =>
      rw [sign, first] at same
      exact absurd digit (by rw [(List.cons.inj same).1]; decide)
    | true =>
      rw [sign] at same
      refine shape.real ?_
      rw [show layout.magnitudeText x = _ from (List.cons.inj same).2]
      exact NumberLayout.isDigits_toDigits (n + 1)

def opener? : Json → Option Char
  | null => some 'n'
  | bool true => some 't'
  | bool false => some 'f'
  | int _ | float _ => none
  | str _ => some '"'
  | arr _ => some '['
  | obj _ => some '\x7b'

theorem exists_opener (j : Json) :
    ∃ c more, compactChars j = c :: more ∧ (j.opener? = some c ∨ j.opener? = none ∧ IsNumberChar c) := by
  cases j with
  | null => exact ⟨'n', _, rfl, .inl rfl⟩
  | bool b => cases b <;> exact ⟨_, _, rfl, .inl rfl⟩
  | int n =>
    have some_ : intText n ≠ [] := by
      cases n with
      | ofNat n => exact Nat.toDigits_ne_nil
      | negSucc n => exact List.cons_ne_nil _ _
    obtain ⟨c, more, shape⟩ := List.exists_cons_of_ne_nil some_
    exact ⟨c, more, shape, .inr ⟨rfl, number_intText n c (shape ▸ List.mem_cons_self)⟩⟩
  | float x =>
    have some_ : (NumberLayout.json.text x).toList ≠ [] := by
      obtain ⟨c, more, first, -⟩ := (NumberLayout.json.isMagnitude_magnitudeText x).first
      rw [NumberLayout.toList_text, first]
      simp
    obtain ⟨c, more, shape⟩ := List.exists_cons_of_ne_nil some_
    exact ⟨c, more, shape, .inr ⟨rfl, number_text .json x c (shape ▸ List.mem_cons_self)⟩⟩
  | str s => exact ⟨'"', _, rfl, .inl rfl⟩
  | arr items => exact ⟨'[', _, rfl, .inl rfl⟩
  | obj fields => exact ⟨'\x7b', _, rfl, .inl rfl⟩

theorem opener_not_number {j : Json} {c : Char} (opens : j.opener? = some c) : ¬ IsNumberChar c := by
  cases j with
  | bool b => cases b <;> cases opens <;> simp [IsNumberChar]
  | int | float => cases opens
  | null | str | arr | obj =>
    cases opens
    simp [IsNumberChar]

theorem opener_eq {a b : Json} {r s : List Char} (same : compactChars a ++ r = compactChars b ++ s) :
    a.opener? = b.opener? := by
  obtain ⟨c, more, first, ha⟩ := exists_opener a
  obtain ⟨d, rest, second, hb⟩ := exists_opener b
  rw [first, second, List.cons_append, List.cons_append, List.cons.injEq] at same
  obtain ⟨rfl, -⟩ := same
  rcases ha with opens | ⟨none_, number⟩ <;> rcases hb with opens' | ⟨none', number'⟩
  · rw [opens, opens']
  · exact absurd number' (opener_not_number opens)
  · exact absurd number (opener_not_number opens')
  · rw [none_, none']

theorem compactChars_ne_bracket (j : Json) (r s : List Char) : compactChars j ++ r ≠ ']' :: s := by
  obtain ⟨c, more, shape, opens⟩ := exists_opener j
  rw [shape, List.cons_append, ne_eq, List.cons.injEq, not_and]
  rintro rfl
  rcases opens with opens | ⟨-, number⟩
  · cases j with
    | bool b => cases b <;> cases opens
    | _ => cases opens
  · exact absurd number (not_isNumberChar (by decide))

theorem isEnd_compactMoreItems (items : List Json) (r : List Char) :
    IsEnd (compactMoreItems items ++ r) := by
  intro c more shape
  cases items <;> cases shape <;> decide

theorem isEnd_compactMoreFields (fields : List (String × Json)) (r : List Char) :
    IsEnd (compactMoreFields fields ++ r) := by
  intro c more shape
  cases fields <;> cases shape <;> decide

theorem numbers_append {a b : Json} (ha : a.opener? = none) (hb : b.opener? = none)
    (pa : a.IsProper) (pb : b.IsProper) {r s : List Char} (hr : IsEnd r) (hs : IsEnd s)
    (same : compactChars a ++ r = compactChars b ++ s) : a = b ∧ r = s := by
  cases a with
  | int m =>
    cases b with
    | int n =>
      obtain ⟨texts, rest⟩ := number_append (number_intText m) (number_intText n) hr hs same
      exact ⟨congrArg int (intText_injective texts), rest⟩
    | float y =>
      obtain ⟨texts, -⟩ := number_append (number_intText m) (number_text .json y) hr hs same
      exact absurd texts.symm (text_ne_intText .json y m)
    | bool b => cases b <;> cases hb
    | _ => cases hb
  | float x =>
    cases b with
    | int n =>
      obtain ⟨texts, -⟩ := number_append (number_text .json x) (number_intText n) hr hs same
      exact absurd texts (text_ne_intText .json x n)
    | float y =>
      obtain ⟨texts, rest⟩ := number_append (number_text .json x) (number_text .json y) hr hs same
      exact ⟨congrArg float (NumberLayout.json.text_injective pa pb (String.toList_inj.1 texts)), rest⟩
    | bool b => cases b <;> cases hb
    | _ => cases hb
  | bool b => cases b <;> cases ha
  | _ => cases ha

mutual

theorem compactChars_append (a b : Json) (pa : a.IsProper) (pb : b.IsProper) {r s : List Char}
    (hr : IsEnd r) (hs : IsEnd s) (same : compactChars a ++ r = compactChars b ++ s) :
    a = b ∧ r = s := by
  have kind := opener_eq same
  cases a with
  | null =>
    cases b with
    | null => exact ⟨rfl, List.append_cancel_left same⟩
    | bool y => cases y <;> simp [opener?] at kind
    | _ => simp [opener?] at kind
  | bool x =>
    cases b with
    | bool y =>
      cases x <;> cases y
      case false.false | true.true => exact ⟨rfl, List.append_cancel_left same⟩
      all_goals simp [opener?] at kind
    | _ => cases x <;> simp [opener?] at kind
  | int | float => exact numbers_append rfl kind.symm pa pb hr hs same
  | str x =>
    cases b with
    | str y =>
      obtain ⟨rfl, rest⟩ := literal_append same
      exact ⟨rfl, rest⟩
    | bool y => cases y <;> simp [opener?] at kind
    | _ => simp [opener?] at kind
  | arr items =>
    cases b with
    | arr others =>
      obtain ⟨rfl, rest⟩ := compactItems_append items others pa pb (List.cons.inj same).2
      exact ⟨rfl, rest⟩
    | bool y => cases y <;> simp [opener?] at kind
    | _ => simp [opener?] at kind
  | obj fields =>
    cases b with
    | obj others =>
      obtain ⟨rfl, rest⟩ := compactFields_append fields others pa pb (List.cons.inj same).2
      exact ⟨rfl, rest⟩
    | bool y => cases y <;> simp [opener?] at kind
    | _ => simp [opener?] at kind

theorem compactItems_append (a b : List Json) (pa : AreProper a) (pb : AreProper b)
    {r s : List Char} (same : compactItems a ++ r = compactItems b ++ s) : a = b ∧ r = s := by
  match a, b with
  | [], [] => exact ⟨rfl, (List.cons.inj same).2⟩
  | [], j :: rest =>
    rw [compactItems, compactItems, List.append_assoc] at same
    exact absurd same.symm (compactChars_ne_bracket j _ _)
  | j :: rest, [] =>
    rw [compactItems, compactItems, List.append_assoc] at same
    exact absurd same (compactChars_ne_bracket j _ _)
  | j :: rest, k :: others =>
    simp only [compactItems, List.append_assoc] at same
    obtain ⟨rfl, more⟩ := compactChars_append j k pa.1 pb.1 (isEnd_compactMoreItems rest r)
      (isEnd_compactMoreItems others s) same
    obtain ⟨rfl, end_⟩ := compactMoreItems_append rest others pa.2 pb.2 more
    exact ⟨rfl, end_⟩

theorem compactMoreItems_append (a b : List Json) (pa : AreProper a) (pb : AreProper b)
    {r s : List Char} (same : compactMoreItems a ++ r = compactMoreItems b ++ s) :
    a = b ∧ r = s := by
  match a, b with
  | [], [] => exact ⟨rfl, (List.cons.inj same).2⟩
  | [], _ :: _ | _ :: _, [] => exact absurd (List.cons.inj same).1 (by decide)
  | j :: rest, k :: others =>
    simp only [compactMoreItems, List.append_assoc, List.cons_append] at same
    obtain ⟨rfl, more⟩ := compactChars_append j k pa.1 pb.1 (isEnd_compactMoreItems rest r)
      (isEnd_compactMoreItems others s) (List.cons.inj same).2
    obtain ⟨rfl, end_⟩ := compactMoreItems_append rest others pa.2 pb.2 more
    exact ⟨rfl, end_⟩

theorem compactFields_append (a b : List (String × Json)) (pa : HaveProper a) (pb : HaveProper b)
    {r s : List Char} (same : compactFields a ++ r = compactFields b ++ s) : a = b ∧ r = s := by
  match a, b with
  | [], [] => exact ⟨rfl, (List.cons.inj same).2⟩
  | [], (_, _) :: _ | (_, _) :: _, [] => exact absurd (List.cons.inj same).1 (by decide)
  | (k, v) :: rest, (l, w) :: others =>
    simp only [compactFields, List.append_assoc, List.cons_append] at same
    obtain ⟨rfl, after⟩ := literal_append same
    obtain ⟨rfl, more⟩ := compactChars_append v w pa.1 pb.1 (isEnd_compactMoreFields rest r)
      (isEnd_compactMoreFields others s) (List.cons.inj after).2
    obtain ⟨rfl, end_⟩ := compactMoreFields_append rest others pa.2 pb.2 more
    exact ⟨rfl, end_⟩

theorem compactMoreFields_append (a b : List (String × Json)) (pa : HaveProper a)
    (pb : HaveProper b) {r s : List Char}
    (same : compactMoreFields a ++ r = compactMoreFields b ++ s) : a = b ∧ r = s := by
  match a, b with
  | [], [] => exact ⟨rfl, (List.cons.inj same).2⟩
  | [], (_, _) :: _ | (_, _) :: _, [] => exact absurd (List.cons.inj same).1 (by decide)
  | (k, v) :: rest, (l, w) :: others =>
    simp only [compactMoreFields, List.append_assoc, List.cons_append] at same
    obtain ⟨rfl, after⟩ := literal_append (List.cons.inj same).2
    obtain ⟨rfl, more⟩ := compactChars_append v w pa.1 pb.1 (isEnd_compactMoreFields rest r)
      (isEnd_compactMoreFields others s) (List.cons.inj after).2
    obtain ⟨rfl, end_⟩ := compactMoreFields_append rest others pa.2 pb.2 more
    exact ⟨rfl, end_⟩

end

theorem compact_injective {a b : Json} (pa : a.IsProper) (pb : b.IsProper)
    (same : a.compact = b.compact) : a = b := by
  have texts : compactChars a ++ [] = compactChars b ++ [] := by
    rw [List.append_nil, List.append_nil]
    exact String.ofList_injective same
  exact (compactChars_append a b pa pb isEnd_nil isEnd_nil texts).1

end Playground.Json
