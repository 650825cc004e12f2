import Playground.Proofs.Number.Shortest

/-! Doubles are told apart by their texts, in every layout (`NumberLayout.text_injective`). -/

namespace Playground

namespace Binary64

variable {x : Binary64}

theorem value_pos_of_contains (some_ : 0 < x.significand) {d : Decimal}
    (inside : x.interval.contains d = true) : 0 < d.value := by
  rw [contains_iff some_] at inside
  have low : 0 < x.low := by
    have below : (x.quartersBelow : ℚ) ≤ 2 := by exact_mod_cast x.quartersBelow_le
    have one : (1 : ℚ) ≤ x.significand := by exact_mod_cast some_
    exact mul_pos (by linarith) x.quarter_pos
  split at inside <;> linarith

theorem IsProper.shortest_pos (proper : x.IsProper) (some_ : 0 < x.significand) :
    0 < x.shortest.value := by
  obtain ⟨d, inside, value⟩ := proper.shortest_contains some_
  rw [value]
  exact value_pos_of_contains some_ inside

theorem shortest_zero (some_ : 0 < x.significand) (zero : x.shortest.digits = 0) :
    x.shortest = ⟨0, 0⟩ := by
  rw [shortest] at zero ⊢
  cases found : (List.range 17).findSome? fun count => x.interval.onGrid (count + 1) with
  | none => rfl
  | some d =>
    obtain ⟨count, -, here⟩ := List.exists_of_findSome?_eq_some found
    have pos := value_pos_of_contains some_ (Interval.contains_of_onGrid x.den_interval here)
    rw [found, Option.getD_some] at zero
    rw [← d.value_normalize 20, Decimal.value, zero, Nat.cast_zero, zero_mul] at pos
    exact absurd pos (lt_irrefl 0)

end Binary64

namespace NumberLayout

def IsDigits (cs : List Char) : Prop := ∀ c ∈ cs, c.isDigit = true

def exponentValue : List Char → ℤ
  | '-' :: digits => -(Nat.ofDigitChars 10 digits 0 : ℤ)
  | '+' :: digits => Nat.ofDigitChars 10 digits 0
  | digits => Nat.ofDigitChars 10 digits 0

def mantissaValue (cs : List Char) : ℚ :=
  let fraction := (cs.dropWhile (· != '.')).tail
  Nat.ofDigitChars 10 (cs.takeWhile (· != '.') ++ fraction) 0 * 10 ^ (-(fraction.length : ℤ))

def textValue (cs : List Char) : ℚ :=
  mantissaValue (cs.takeWhile (· != 'e')) * 10 ^ exponentValue (cs.dropWhile (· != 'e')).tail

def magnitudeText (layout : NumberLayout) (x : Binary64) : List Char :=
  if x.significand = 0 then ['0', '.', '0']
  else
    let digits := Nat.toDigits 10 x.shortest.digits
    let whole := (digits.length : ℤ) + x.shortest.power
    if layout.fits whole then positionalText digits whole
    else exponentText layout digits (whole - 1)

theorem toList_text (layout : NumberLayout) (x : Binary64) :
    (layout.text x).toList = (if x.negative then ['-'] else []) ++ layout.magnitudeText x := by
  unfold text magnitudeText
  dsimp only
  split <;> split <;> rw [String.toList_ofList]

theorem isDigits_zero : IsDigits ['0'] := List.forall_mem_singleton.2 rfl

theorem isDigits_toDigits (n : ℕ) : IsDigits (Nat.toDigits 10 n) := fun _ mem =>
  Nat.isDigit_of_mem_toDigits (by norm_num) (by norm_num) mem

theorem isDigits_zeros (n : ℕ) : IsDigits (zeros n) := by
  intro c mem
  rw [List.eq_of_mem_replicate mem]
  rfl

theorem IsDigits.append {cs ds : List Char} (first : IsDigits cs) (second : IsDigits ds) :
    IsDigits (cs ++ ds) := fun c mem => (List.mem_append.1 mem).elim (first c) (second c)

theorem IsDigits.not_mem {cs : List Char} (digits : IsDigits cs) {c : Char}
    (other : c.isDigit = false) : c ∉ cs := fun mem =>
  Bool.false_ne_true (other.symm.trans (digits c mem))

theorem takeWhile_ne {c : Char} {cs : List Char} (without : c ∉ cs) (more : List Char) :
    (cs ++ c :: more).takeWhile (· != c) = cs ∧ (cs ++ c :: more).dropWhile (· != c) = c :: more := by
  have others : ∀ d ∈ cs, (d != c) = true := fun d mem =>
    bne_iff_ne.2 fun same => without (same ▸ mem)
  rw [List.takeWhile_append_of_pos others, List.dropWhile_append_of_pos others]
  simp

theorem takeWhile_ne_all {c : Char} {cs : List Char} (without : c ∉ cs) :
    cs.takeWhile (· != c) = cs ∧ cs.dropWhile (· != c) = [] := by
  have others : ∀ d ∈ cs, (d != c) = true := fun d mem =>
    bne_iff_ne.2 fun same => without (same ▸ mem)
  exact ⟨List.takeWhile_eq_self_iff.2 others, List.dropWhile_eq_nil_iff.2 others⟩

theorem mantissaValue_whole {cs : List Char} (digits : IsDigits cs) :
    mantissaValue cs = Nat.ofDigitChars 10 cs 0 := by
  obtain ⟨whole, fraction⟩ := takeWhile_ne_all (digits.not_mem (c := '.') rfl)
  simp [mantissaValue, whole, fraction]

theorem mantissaValue_point {cs : List Char} (digits : IsDigits cs) (fraction : List Char) :
    mantissaValue (cs ++ '.' :: fraction) =
      Nat.ofDigitChars 10 (cs ++ fraction) 0 * 10 ^ (-(fraction.length : ℤ)) := by
  obtain ⟨whole, rest⟩ := takeWhile_ne (digits.not_mem (c := '.') rfl) fraction
  rw [mantissaValue, whole, rest]
  rfl

theorem textValue_plain {cs : List Char} (without : 'e' ∉ cs) : textValue cs = mantissaValue cs := by
  obtain ⟨whole, rest⟩ := takeWhile_ne_all without
  simp [textValue, whole, rest, exponentValue]

theorem textValue_exponent {cs : List Char} (without : 'e' ∉ cs) (exponent : List Char) :
    textValue (cs ++ 'e' :: exponent) = mantissaValue cs * 10 ^ exponentValue exponent := by
  obtain ⟨whole, rest⟩ := takeWhile_ne without exponent
  rw [textValue, whole, rest]
  rfl

theorem textValue_point {cs fraction : List Char} (digits : IsDigits cs)
    (places : IsDigits fraction) :
    textValue (cs ++ '.' :: fraction) =
      Nat.ofDigitChars 10 (cs ++ fraction) 0 * 10 ^ (-(fraction.length : ℤ)) := by
  rw [textValue_plain, mantissaValue_point digits]
  simp only [List.mem_append, List.mem_cons, not_or]
  exact ⟨digits.not_mem rfl, by decide, places.not_mem rfl⟩

theorem textValue_positional {digits : List Char} (plain : IsDigits digits) (whole : ℤ) :
    textValue (positionalText digits whole) =
      Nat.ofDigitChars 10 digits 0 * 10 ^ (whole - digits.length) := by
  unfold positionalText
  split
  · next n =>
    split
    · next none_ =>
      have value := textValue_point isDigits_zero plain
      rw [List.singleton_append] at value
      rw [value, none_, Nat.ofDigitChars_append]
      simp [Nat.ofDigitChars_cons]
    · split
      · next short =>
        have value := textValue_point (plain.append (isDigits_zeros (n - digits.length)))
          isDigits_zero
        rw [value, zeros, Nat.ofDigitChars_append, Nat.ofDigitChars_append,
          Nat.ofDigitChars_replicate_zero]
        have places : (10 : ℚ) ^ ((n : ℤ) - digits.length) = 10 ^ (n - digits.length) := by
          rw [← zpow_natCast]
          congr 1
          omega
        simp only [Int.ofNat_eq_natCast, places, Nat.ofDigitChars_cons, Nat.ofDigitChars_nil]
        simp
        ring
      · next long =>
        have before : IsDigits (digits.take n) := fun c mem => plain c (List.mem_of_mem_take mem)
        have after : IsDigits (digits.drop n) := fun c mem => plain c (List.mem_of_mem_drop mem)
        rw [textValue_point before after, List.take_append_drop, List.length_drop]
        congr 2
        simp only [Int.ofNat_eq_natCast]
        omega
  · next n =>
    have value := textValue_point isDigits_zero
      ((isDigits_zeros (n + 1)).append plain)
    rw [List.singleton_append] at value
    rw [List.cons_append, List.cons_append, value, Nat.ofDigitChars_append,
      Nat.ofDigitChars_append, zeros, Nat.ofDigitChars_replicate_zero]
    simp only [Nat.ofDigitChars_cons, Nat.ofDigitChars_nil, List.length_append,
      List.length_replicate]
    congr 2
    rw [Int.negSucc_eq]
    push_cast
    ring

theorem exponentValue_digits (n : ℕ) : exponentValue (Nat.toDigits 10 n) = n := by
  have digits := isDigits_toDigits n
  have read := Nat.ofDigitChars_toDigits (b := 10) (n := n) (by norm_num) (by norm_num)
  unfold exponentValue
  split
  · next more shape => exact absurd (digits '-' (shape ▸ List.mem_cons_self)) (by decide)
  · next more shape => exact absurd (digits '+' (shape ▸ List.mem_cons_self)) (by decide)
  · rw [read]

def exponentPart (layout : NumberLayout) (exponent : ℤ) : List Char :=
  (match exponent with
    | .ofNat _ => if layout.plusInExponent then ['+'] else []
    | .negSucc _ => ['-']) ++ Nat.toDigits 10 exponent.natAbs

theorem exponentText_one (layout : NumberLayout) (d : Char) (exponent : ℤ) :
    exponentText layout [d] exponent = [d] ++ 'e' :: exponentPart layout exponent := rfl

theorem exponentText_more (layout : NumberLayout) (d c : Char) (more : List Char) (exponent : ℤ) :
    exponentText layout (d :: c :: more) exponent =
      ([d] ++ '.' :: c :: more) ++ 'e' :: exponentPart layout exponent := by
  cases exponent <;> simp [exponentText, exponentPart]

theorem exponentValue_exponentPart (layout : NumberLayout) (exponent : ℤ) :
    exponentValue (exponentPart layout exponent) = exponent := by
  have read := fun n => Nat.ofDigitChars_toDigits (b := 10) (n := n) (by norm_num) (by norm_num)
  unfold exponentPart
  cases exponent with
  | ofNat n =>
    dsimp only
    split
    · simp [exponentValue, read]
    · simpa using exponentValue_digits n
  | negSucc n =>
    dsimp only [Int.natAbs_negSucc]
    rw [List.singleton_append, exponentValue, read, Int.negSucc_eq]
    push_cast
    ring

theorem textValue_exponentText (layout : NumberLayout) {digits : List Char}
    (plain : IsDigits digits) (some_ : digits ≠ []) (exponent : ℤ) :
    textValue (exponentText layout digits exponent) =
      Nat.ofDigitChars 10 digits 0 * 10 ^ (exponent + 1 - digits.length) := by
  match digits with
  | [] => exact absurd rfl some_
  | [d] =>
    rw [exponentText_one, textValue_exponent (plain.not_mem rfl), mantissaValue_whole plain,
      exponentValue_exponentPart]
    simp
  | d :: c :: more =>
    have first : IsDigits [d] := List.forall_mem_singleton.2 (plain d List.mem_cons_self)
    have rest : IsDigits (c :: more) := fun x mem => plain x (List.mem_cons_of_mem d mem)
    have without : 'e' ∉ [d] ++ '.' :: c :: more := by
      simp only [List.mem_append, List.mem_cons (b := '.'), not_or]
      exact ⟨first.not_mem rfl, by decide, rest.not_mem rfl⟩
    rw [exponentText_more, textValue_exponent without, mantissaValue_point first,
      exponentValue_exponentPart, mul_assoc, ← zpow_add₀ (by norm_num), List.singleton_append]
    congr 2
    simp
    ring

theorem textValue_magnitudeText (layout : NumberLayout) (x : Binary64) :
    textValue (layout.magnitudeText x) = if x.significand = 0 then 0 else x.shortest.value := by
  have read := Nat.ofDigitChars_toDigits (b := 10) (n := x.shortest.digits) (by norm_num)
    (by norm_num)
  unfold magnitudeText
  split
  · have value := textValue_point isDigits_zero isDigits_zero
    rw [List.singleton_append] at value
    rw [value]
    simp [Nat.ofDigitChars_cons]
  · have digits := isDigits_toDigits x.shortest.digits
    dsimp only
    split
    · rw [textValue_positional digits, read, Decimal.value]
      congr 2
      ring
    · rw [textValue_exponentText layout digits Nat.toDigits_ne_nil, read, Decimal.value]
      congr 2
      ring

def IsNumberChar (c : Char) : Prop := c.isDigit = true ∨ c ∈ ['+', '-', '.', 'e']

theorem IsDigits.number {cs : List Char} (digits : IsDigits cs) : ∀ c ∈ cs, IsNumberChar c :=
  fun c mem => .inl (digits c mem)

/-- What is written after the sign starts with a digit, and a point or an `e` tells it from a whole
number. -/
structure IsMagnitude (cs : List Char) : Prop where
  chars : ∀ c ∈ cs, IsNumberChar c
  first : ∃ c more, cs = c :: more ∧ c.isDigit = true
  real : ¬ IsDigits cs

theorem isMagnitude_point {cs fraction : List Char} (digits : IsDigits cs) (some_ : cs ≠ [])
    (places : IsDigits fraction) : IsMagnitude (cs ++ '.' :: fraction) where
  chars := by
    simp only [List.mem_append, List.mem_cons]
    rintro c (mem | rfl | mem)
    · exact digits.number c mem
    · exact .inr (by decide)
    · exact places.number c mem
  first := by
    obtain ⟨c, more, rfl⟩ := List.exists_cons_of_ne_nil some_
    exact ⟨c, more ++ '.' :: fraction, rfl, digits c List.mem_cons_self⟩
  real all := Bool.false_ne_true (all '.' (by simp))

theorem isMagnitude_positional {digits : List Char} (plain : IsDigits digits)
    (some_ : digits ≠ []) (whole : ℤ) : IsMagnitude (positionalText digits whole) := by
  unfold positionalText
  split
  · next n =>
    split
    · exact isMagnitude_point isDigits_zero (List.cons_ne_nil _ _) plain
    · next ahead =>
      split
      · exact isMagnitude_point (plain.append (isDigits_zeros _)) (by simp [some_]) isDigits_zero
      · refine isMagnitude_point (fun c mem => plain c (List.mem_of_mem_take mem)) ?_
          fun c mem => plain c (List.mem_of_mem_drop mem)
        simp [some_, ahead]
  · exact isMagnitude_point isDigits_zero (List.cons_ne_nil _ _)
      ((isDigits_zeros _).append plain)

theorem isMagnitude_exponent {cs exponent : List Char} (chars : ∀ c ∈ cs, IsNumberChar c)
    (first : ∃ c more, cs = c :: more ∧ c.isDigit = true)
    (power : ∀ c ∈ exponent, IsNumberChar c) : IsMagnitude (cs ++ 'e' :: exponent) where
  chars := by
    simp only [List.mem_append, List.mem_cons]
    rintro c (mem | rfl | mem)
    · exact chars c mem
    · exact .inr (by decide)
    · exact power c mem
  first := by
    obtain ⟨c, more, rfl, digit⟩ := first
    exact ⟨c, more ++ 'e' :: exponent, rfl, digit⟩
  real all := Bool.false_ne_true (all 'e' (by simp))

theorem number_exponentPart (layout : NumberLayout) (exponent : ℤ) :
    ∀ c ∈ exponentPart layout exponent, IsNumberChar c := by
  intro c mem
  rcases List.mem_append.1 mem with sign | digit
  · refine .inr ?_
    split at sign
    · split at sign
      · rw [List.mem_singleton.1 sign]
        decide
      · exact absurd sign List.not_mem_nil
    · rw [List.mem_singleton.1 sign]
      decide
  · exact (isDigits_toDigits _).number c digit

theorem isMagnitude_exponentText (layout : NumberLayout) {digits : List Char}
    (plain : IsDigits digits) (some_ : digits ≠ []) (exponent : ℤ) :
    IsMagnitude (exponentText layout digits exponent) := by
  have power := number_exponentPart layout exponent
  match digits with
  | [] => exact absurd rfl some_
  | [d] =>
    rw [exponentText_one]
    exact isMagnitude_exponent plain.number ⟨d, [], rfl, plain d List.mem_cons_self⟩ power
  | d :: c :: more =>
    have first : IsDigits [d] := List.forall_mem_singleton.2 (plain d List.mem_cons_self)
    have point := isMagnitude_point first (List.cons_ne_nil d []) 
      fun x mem => plain x (List.mem_cons_of_mem d mem)
    rw [exponentText_more]
    exact isMagnitude_exponent point.chars point.first power

theorem isMagnitude_magnitudeText (layout : NumberLayout) (x : Binary64) :
    IsMagnitude (layout.magnitudeText x) := by
  have digits := isDigits_toDigits x.shortest.digits
  unfold magnitudeText
  split
  · exact isMagnitude_point isDigits_zero (List.cons_ne_nil _ _) isDigits_zero
  · dsimp only
    split
    · exact isMagnitude_positional digits Nat.toDigits_ne_nil _
    · exact isMagnitude_exponentText layout digits Nat.toDigits_ne_nil _

theorem text_injective (layout : NumberLayout) {x y : Binary64} (px : x.IsProper)
    (py : y.IsProper) (same : layout.text x = layout.text y) : x = y := by
  have texts := congrArg String.toList same
  rw [toList_text, toList_text] at texts
  obtain ⟨c, cs, hx, first⟩ := (layout.isMagnitude_magnitudeText x).first
  obtain ⟨d, ds, hy, second⟩ := (layout.isMagnitude_magnitudeText y).first
  have both : x.negative = y.negative ∧ layout.magnitudeText x = layout.magnitudeText y := by
    cases hn : x.negative <;> cases hm : y.negative <;> rw [hn, hm] at texts
    · exact ⟨rfl, texts⟩
    · rw [hx] at texts
      exact absurd first (by rw [(List.cons.inj texts).1]; decide)
    · rw [hy] at texts
      exact absurd second (by rw [← (List.cons.inj texts).1]; decide)
    · exact ⟨rfl, (List.cons.inj texts).2⟩
  have values := congrArg textValue both.2
  rw [textValue_magnitudeText, textValue_magnitudeText] at values
  have numbers : x.significand = y.significand ∧ x.exponent = y.exponent := by
    split at values <;> split at values
    · next zx zy => exact ⟨zx.trans zy.symm, (px.normal (by omega)).trans (py.normal (by omega)).symm⟩
    · next some_ => exact absurd values (py.shortest_pos (Nat.pos_of_ne_zero some_)).ne
    · next some_ _ => exact absurd values (px.shortest_pos (Nat.pos_of_ne_zero some_)).ne'
    · next hx hy =>
      obtain ⟨d, inx, dx⟩ := px.shortest_contains (Nat.pos_of_ne_zero hx)
      obtain ⟨e, iny, ey⟩ := py.shortest_contains (Nat.pos_of_ne_zero hy)
      exact px.unique py (Nat.pos_of_ne_zero hx) (Nat.pos_of_ne_zero hy)
        (dx.symm.trans (values.trans ey)) inx iny
  obtain ⟨_, _, _⟩ := x
  obtain ⟨_, _, _⟩ := y
  simp_all

end NumberLayout

end Playground
