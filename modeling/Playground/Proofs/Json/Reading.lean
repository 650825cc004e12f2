import Playground.Proofs.Json.Numerals

/-! What is spelled is read. -/

namespace Playground.Json

open NumberLayout (IsDigits IsWhole IsNumber)

theorem skipBlanks_visible {d : Char} {cs : List Char} {pos : Nat} (visible : isJsonBlank d = false) :
    skipBlanks ⟨d :: cs, pos⟩ = ⟨d :: cs, pos⟩ := by
  simp [skipBlanks, visible, Cursor.advance]

section Blanks

variable {bs bs' : List Char} {d : Char}

theorem skipBlanks_blank (blank : AreBlank bs) (visible : isJsonBlank d = false) (cs : List Char)
    (pos : Nat) : ∃ pos', skipBlanks ⟨bs ++ d :: cs, pos⟩ = ⟨d :: cs, pos'⟩ := by
  refine ⟨pos + Text.size bs, ?_⟩
  have skipped : (bs ++ d :: cs).takeWhile isJsonBlank = bs := by
    rw [List.takeWhile_append_of_pos blank, List.takeWhile_cons_of_neg (by simp [visible]),
      List.append_nil]
  rw [skipBlanks, skipped, Cursor.advance, List.drop_left, List.take_left]

theorem readColon_blank (blank : AreBlank bs) (cs : List Char) (pos : Nat) :
    ∃ pos', readColon ⟨bs ++ ':' :: cs, pos⟩ = .ok ⟨cs, pos'⟩ := by
  obtain ⟨p, skip⟩ := skipBlanks_blank blank (d := ':') rfl cs pos
  exact ⟨p + Text.size [':'], by rw [readColon, skip]; rfl⟩

theorem beforeItem_stop (blank : AreBlank bs) (cs : List Char) (pos : Nat) :
    ∃ pos', beforeItem ⟨bs ++ ']' :: cs, pos⟩ = .ok (.stop ⟨cs, pos'⟩) := by
  obtain ⟨p, skip⟩ := skipBlanks_blank blank (d := ']') rfl cs pos
  exact ⟨p + Text.size [']'], by rw [beforeItem, skip]; rfl⟩

theorem beforeItem_more (blank : AreBlank bs) (visible : isJsonBlank d = false) (goes : d ≠ ']')
    (cs : List Char) (pos : Nat) :
    ∃ pos', beforeItem ⟨bs ++ d :: cs, pos⟩ = .ok (.more ⟨d :: cs, pos'⟩) := by
  obtain ⟨p, skip⟩ := skipBlanks_blank blank visible cs pos
  refine ⟨p, ?_⟩
  rw [beforeItem, skip]
  dsimp only
  split
  · next same => cases same
  · next same => exact absurd (List.cons.inj same).1 goes
  · rfl

theorem afterItem_stop (blank : AreBlank bs) (cs : List Char) (pos : Nat) :
    ∃ pos', afterItem ⟨bs ++ ']' :: cs, pos⟩ = .ok (.stop ⟨cs, pos'⟩) := by
  obtain ⟨p, skip⟩ := skipBlanks_blank blank (d := ']') rfl cs pos
  exact ⟨p + Text.size [']'], by rw [afterItem, skip]; rfl⟩

theorem afterItem_more (blank : AreBlank bs) (blank' : AreBlank bs') (visible : isJsonBlank d = false)
    (goes : d ≠ ']') (cs : List Char) (pos : Nat) :
    ∃ pos', afterItem ⟨bs ++ ',' :: (bs' ++ d :: cs), pos⟩ = .ok (.more ⟨d :: cs, pos'⟩) := by
  obtain ⟨p, skip⟩ := skipBlanks_blank blank (d := ',') rfl (bs' ++ d :: cs) pos
  obtain ⟨q, skip'⟩ := skipBlanks_blank blank' visible cs (p + Text.size [','])
  refine ⟨q, ?_⟩
  rw [afterItem, skip]
  dsimp only
  rw [advance_one, skip']
  dsimp only
  split
  · next same => cases same
  · next same => exact absurd (List.cons.inj same).1 (by decide)
  · split
    · next same => cases same
    · next same => exact absurd (List.cons.inj same).1 goes
    · rfl
  · next other => exact (other _ rfl).elim

theorem beforeField_stop (blank : AreBlank bs) (cs : List Char) (pos : Nat) :
    ∃ pos', beforeField ⟨bs ++ '\x7d' :: cs, pos⟩ = .ok (.stop ⟨cs, pos'⟩) := by
  obtain ⟨p, skip⟩ := skipBlanks_blank blank (d := '\x7d') rfl cs pos
  exact ⟨p + Text.size ['\x7d'], by rw [beforeField, skip]; rfl⟩

theorem beforeField_more (blank : AreBlank bs) (cs : List Char) (pos : Nat) :
    ∃ pos', beforeField ⟨bs ++ '"' :: cs, pos⟩ = .ok (.more ⟨'"' :: cs, pos'⟩) := by
  obtain ⟨p, skip⟩ := skipBlanks_blank blank (d := '"') rfl cs pos
  exact ⟨p, by rw [beforeField, skip]; rfl⟩

theorem afterField_stop (blank : AreBlank bs) (cs : List Char) (pos : Nat) :
    ∃ pos', afterField ⟨bs ++ '\x7d' :: cs, pos⟩ = .ok (.stop ⟨cs, pos'⟩) := by
  obtain ⟨p, skip⟩ := skipBlanks_blank blank (d := '\x7d') rfl cs pos
  exact ⟨p + Text.size ['\x7d'], by rw [afterField, skip]; rfl⟩

theorem afterField_more (blank : AreBlank bs) (blank' : AreBlank bs') (cs : List Char) (pos : Nat) :
    ∃ pos', afterField ⟨bs ++ ',' :: (bs' ++ '"' :: cs), pos⟩ = .ok (.more ⟨'"' :: cs, pos'⟩) := by
  obtain ⟨p, skip⟩ := skipBlanks_blank blank (d := ',') rfl (bs' ++ '"' :: cs) pos
  obtain ⟨q, skip'⟩ := skipBlanks_blank blank' (d := '"') rfl cs (p + Text.size [','])
  refine ⟨q, ?_⟩
  rw [afterField, skip]
  dsimp only
  rw [advance_one, skip']
  rfl

end Blanks

theorem readString_escape {fuel : Nat} {more : List Char} {pos : Nat} {later : Cursor} {e : Char}
    (escape : readEscape ⟨more, pos + Text.size ['\\']⟩ = .ok (e, later)) :
    readString (fuel + 1) ⟨'\\' :: more, pos⟩ =
      (readString fuel later).map fun (more, last) => (e :: more, last) := by
  rw [readString]
  dsimp only
  rw [if_neg (by decide), if_pos rfl, advance_one, escape]
  cases found : readString fuel later with
  | error fault => simp [bind, Except.bind, found, Except.map]
  | ok result => simp [bind, Except.bind, found, Except.map, pure, Except.pure]

theorem readString_plain {fuel : Nat} {d : Char} (more : List Char) (pos : Nat) (plain : IsPlain d) :
    readString (fuel + 1) ⟨d :: more, pos⟩ =
      (readString fuel ⟨more, pos + Text.size [d]⟩).map fun (more, last) => (d :: more, last) := by
  obtain ⟨visible, quote, slash⟩ := plain
  rw [readString]
  dsimp only
  rw [if_neg quote, if_neg slash, if_neg (Nat.not_lt.2 visible), advance_one]
  cases found : readString fuel ⟨more, pos + Text.size [d]⟩ with
  | error fault => simp [bind, Except.bind, Except.map]
  | ok result => simp [bind, Except.bind, Except.map, pure, Except.pure]

theorem length_hexUnit {digits : List Char} {n : Nat} (unit : hexUnit? digits = some n) :
    digits.length = 4 := by
  unfold hexUnit? at unit
  split at unit
  · rfl
  · cases unit

theorem readUnit_spelled {digits : List Char} {n : Nat} (unit : hexUnit? digits = some n)
    (rest : List Char) (pos : Nat) : Gives (readUnit ⟨digits ++ rest, pos⟩) n rest := by
  have four := length_hexUnit unit
  have front : (digits ++ rest).take 4 = digits := List.take_left' four
  have back : (digits ++ rest).drop 4 = rest := List.drop_left' four
  rw [readUnit, front, unit]
  exact ⟨pos + Text.size digits, by simp [Cursor.advance, front, back]⟩

theorem readEscape_short {letter c : Char} (known : (letter, c) ∈ shortEscapes) (rest : List Char)
    (pos : Nat) : Gives (readEscape ⟨letter :: rest, pos⟩) c rest := by
  refine ⟨pos + Text.size [letter], ?_⟩
  simp only [shortEscapes, List.mem_cons, Prod.mk.injEq, List.not_mem_nil, or_false] at known
  rcases known with ⟨rfl, rfl⟩ | ⟨rfl, rfl⟩ | ⟨rfl, rfl⟩ | ⟨rfl, rfl⟩ | ⟨rfl, rfl⟩ | ⟨rfl, rfl⟩ |
    ⟨rfl, rfl⟩ | ⟨rfl, rfl⟩ <;> rfl

theorem readEscape_unit {more : List Char} {pos n : Nat} {later : Cursor}
    (unit : readUnit ⟨more, pos + Text.size ['u']⟩ = .ok (n, later)) :
    readEscape ⟨'u' :: more, pos⟩ = if isLowSurrogate n then later.fault .loneSurrogate
      else if isHighSurrogate n then readLowSurrogate n later
      else .ok (Char.ofNat n, later) := by
  rw [readEscape]
  dsimp only
  rw [if_neg (by decide), if_neg (by decide), if_neg (by decide), if_neg (by decide),
    if_neg (by decide), if_neg (by decide), if_pos rfl, advance_one, unit]
  rfl

theorem not_surrogate (c : Char) :
    isLowSurrogate c.toNat = false ∧ isHighSurrogate c.toNat = false := by
  have valid : c.toNat.isValidChar := c.valid
  simp only [isLowSurrogate, isHighSurrogate, Bool.and_eq_false_iff, decide_eq_false_iff_not]
  rcases valid with low | ⟨high, -⟩ <;> omega

theorem readEscape_character {digits : List Char} {c : Char}
    (unit : hexUnit? digits = some c.toNat) (rest : List Char) (pos : Nat) :
    Gives (readEscape ⟨'u' :: (digits ++ rest), pos⟩) c rest := by
  obtain ⟨p, read⟩ := readUnit_spelled unit rest (pos + Text.size ['u'])
  refine ⟨p, ?_⟩
  rw [readEscape_unit read, (not_surrogate c).1, (not_surrogate c).2, Char.ofNat_toNat]
  rfl

theorem readEscape_pair {first second : List Char} {high low : Nat}
    (upper : hexUnit? first = some high) (lower : hexUnit? second = some low)
    (isHigh : isHighSurrogate high = true) (isLow : isLowSurrogate low = true) (rest : List Char)
    (pos : Nat) :
    Gives (readEscape ⟨'u' :: (first ++ '\\' :: 'u' :: (second ++ rest)), pos⟩)
      (Char.ofNat ((high - 0xd800) * 0x400 + (low - 0xdc00) + 0x10000)) rest := by
  obtain ⟨p, read⟩ := readUnit_spelled upper ('\\' :: 'u' :: (second ++ rest))
    (pos + Text.size ['u'])
  obtain ⟨q, read'⟩ := readUnit_spelled lower rest (p + Text.size ['\\', 'u'])
  have other : isLowSurrogate high = false := by
    simp only [isHighSurrogate, isLowSurrogate, Bool.and_eq_true, decide_eq_true_eq,
      Bool.and_eq_false_iff, decide_eq_false_iff_not] at isHigh ⊢
    omega
  have step : (Cursor.mk ('\\' :: 'u' :: (second ++ rest)) p).advance 2 =
      ⟨second ++ rest, p + Text.size ['\\', 'u']⟩ := rfl
  refine ⟨q, ?_⟩
  rw [readEscape_unit read, other, isHigh, if_neg (by decide), if_pos rfl, readLowSurrogate,
    step, read']
  simp [bind, Except.bind, isLow, pure, Except.pure]

theorem readString_spelled {cs text : List Char} (spelled : SpellsString cs text) {fuel : Nat}
    (enough : text.length ≤ fuel) (rest : List Char) (pos : Nat) :
    Gives (readString fuel ⟨text ++ rest, pos⟩) cs rest := by
  induction spelled generalizing fuel pos with
  | stop =>
    obtain ⟨fuel, rfl⟩ := Nat.exists_eq_add_of_le' enough
    exact ⟨_, rfl⟩
  | plain plain _ ih =>
    obtain ⟨fuel, rfl⟩ := Nat.exists_eq_add_one_of_ne_zero (n := fuel) (by simp at enough; omega)
    rw [List.cons_append, readString_plain _ _ plain]
    exact (ih (by simpa using enough) _).map _
  | short known _ ih =>
    obtain ⟨fuel, rfl⟩ := Nat.exists_eq_add_one_of_ne_zero (n := fuel) (by simp at enough; omega)
    obtain ⟨p, escape⟩ := readEscape_short known _ (pos + Text.size ['\\'])
    rw [List.cons_append, List.cons_append, readString_escape escape]
    exact (ih (by simp at enough; omega) _).map _
  | unit unit _ ih =>
    obtain ⟨fuel, rfl⟩ := Nat.exists_eq_add_one_of_ne_zero (n := fuel) (by simp at enough; omega)
    obtain ⟨p, escape⟩ := readEscape_character unit _ (pos + Text.size ['\\'])
    rw [List.cons_append, List.cons_append, List.append_assoc, readString_escape escape]
    exact (ih (by simp at enough; omega) _).map _
  | pair upper lower isHigh isLow _ ih =>
    obtain ⟨fuel, rfl⟩ := Nat.exists_eq_add_one_of_ne_zero (n := fuel) (by simp at enough; omega)
    obtain ⟨p, escape⟩ := readEscape_pair upper lower isHigh isLow _ (pos + Text.size ['\\'])
    simp only [List.cons_append, List.append_assoc]
    rw [readString_escape escape]
    exact (ih (by simp at enough; omega) _).map _

theorem readLiteral_spelled {s : String} {text : List Char} (spelled : SpellsString s.toList text)
    (rest : List Char) (pos : Nat) : Gives (readLiteral ⟨'"' :: (text ++ rest), pos⟩) s rest := by
  have enough : text.length ≤ (text ++ rest).length + 1 := by
    rw [List.length_append]
    omega
  obtain ⟨p, read⟩ := readString_spelled spelled enough rest (pos + Text.size ['"'])
  refine ⟨p, ?_⟩
  rw [readLiteral]
  simp only [advance_one, read, bind, Except.bind, pure, Except.pure, String.ofList_toList]

theorem readWord_spelled (word rest : List Char) (pos : Nat) :
    ∃ pos', readWord ⟨word ++ rest, pos⟩ word = .ok ⟨rest, pos'⟩ := by
  induction word generalizing pos with
  | nil => exact ⟨pos, rfl⟩
  | cons d word ih =>
    obtain ⟨p, read⟩ := ih (pos + Text.size [d])
    refine ⟨p, ?_⟩
    rw [List.cons_append, readWord]
    dsimp only
    rw [if_pos rfl, advance_one, read]

mutual

/-- Its numbers are whole and in range, and no object in it repeats a key. -/
def IsExact : Json → Prop
  | int n => -(2 ^ 63) ≤ n ∧ n < 2 ^ 64
  | float _ => False
  | arr items => AreExact items
  | obj fields => (fields.map Prod.fst).Nodup ∧ HaveExact fields
  | _ => True

def AreExact : List Json → Prop
  | [] => True
  | j :: rest => j.IsExact ∧ AreExact rest

def HaveExact : List (String × Json) → Prop
  | [] => True
  | (_, v) :: rest => v.IsExact ∧ HaveExact rest

end

mutual

/-- How many brackets stand around its innermost part. -/
def nesting : Json → Nat
  | arr items => nestingItems items + 1
  | obj fields => nestingFields fields + 1
  | _ => 0

def nestingItems : List Json → Nat
  | [] => 0
  | j :: rest => max j.nesting (nestingItems rest)

def nestingFields : List (String × Json) → Nat
  | [] => 0
  | (_, v) :: rest => max v.nesting (nestingFields rest)

end

section Heads

variable {numbers : Json → List Char → Prop}

theorem SpellsBy.value_head {j : Json} {cs : List Char} (spelled : SpellsBy numbers (.value j) cs) :
    ∃ d more, cs = d :: more ∧ isJsonBlank d = false ∧ d ≠ ']' := by
  have whole : ∀ ds more, IsWhole ds →
      ∃ d more', ds ++ more = d :: more' ∧ isJsonBlank d = false ∧ d ≠ ']' := by
    intro ds more whole
    obtain ⟨d, later, rfl, digit⟩ := whole_head whole
    exact ⟨d, later ++ more, rfl, visible_digit digit, digit_ne digit rfl⟩
  cases spelled with
  | number number =>
    rcases number with ⟨ds, fraction, exponent, isWhole, -, -, rfl⟩ | ⟨magnitude, -, rfl⟩
    · exact whole ds _ isWhole
    · exact ⟨'-', magnitude, rfl, by decide⟩
  | _ => exact ⟨_, _, rfl, by decide⟩

theorem SpellsBy.items_head {js : List Json} {cs : List Char} (spelled : SpellsBy numbers (.items js) cs) :
    ∃ d more, cs = d :: more ∧ isJsonBlank d = false ∧ d ≠ ']' := by
  cases spelled with
  | items first more =>
    obtain ⟨d, later, rfl, visible⟩ := first.value_head
    exact ⟨d, later ++ _, rfl, visible⟩

theorem SpellsBy.fields_head {fs : List (String × Json)} {cs : List Char}
    (spelled : SpellsBy numbers (.fields fs) cs) : ∃ more, cs = '"' :: more := by
  cases spelled
  exact ⟨_, rfl⟩

theorem SpellsBy.length_pos {p : Part} {cs : List Char} (spelled : SpellsBy numbers p cs) : 0 < cs.length := by
  cases p with
  | value j =>
    obtain ⟨d, more, rfl, -⟩ := spelled.value_head
    exact Nat.succ_pos _
  | items js =>
    obtain ⟨d, more, rfl, -⟩ := spelled.items_head
    exact Nat.succ_pos _
  | moreItems js | fields fs | moreFields fs => cases spelled <;> simp

theorem stops_blank {bs : List Char} (blank : AreBlank bs) {d : Char}
    (mem : d ∈ [',', ']', '\x7d']) (cs : List Char) : Stops (bs ++ d :: cs) := by
  intro c more same
  cases bs with
  | nil =>
    cases same
    exact .inr mem
  | cons b bs =>
    cases same
    exact .inl (blank c List.mem_cons_self)

theorem SpellsBy.stops_moreItems {js : List Json} {cs : List Char}
    (spelled : SpellsBy numbers (.moreItems js) cs) (rest : List Char) : Stops (cs ++ rest) := by
  cases spelled with
  | lastItem blank | nextItem blank =>
    rw [List.append_assoc]
    exact stops_blank blank (by decide) _

theorem SpellsBy.stops_moreFields {fs : List (String × Json)} {cs : List Char}
    (spelled : SpellsBy numbers (.moreFields fs) cs) (rest : List Char) : Stops (cs ++ rest) := by
  cases spelled with
  | lastField blank | nextField blank =>
    rw [List.append_assoc]
    exact stops_blank blank (by decide) _

end Heads

theorem readValue_atom {j : Json} {bs more : List Char} {d : Char} {rest : List Char} {fuel : Nat}
    (enough : 0 < fuel) (blank : AreBlank bs) (visible : isJsonBlank d = false) (list : d ≠ '[')
    (object : d ≠ '\x7b')
    (atom : ∀ pos, Gives (readAtom d ⟨d :: (more ++ rest), pos⟩) j rest) (depth pos : Nat) :
    Gives (readValue fuel depth ⟨bs ++ (d :: more ++ rest), pos⟩) j rest := by
  obtain ⟨fuel, rfl⟩ := Nat.exists_eq_add_one_of_ne_zero (Nat.ne_of_gt enough)
  obtain ⟨p, skip⟩ := skipBlanks_blank blank visible (more ++ rest) pos
  rw [List.cons_append, readValue, skip]
  dsimp only
  rw [if_neg list, if_neg object]
  exact atom p

theorem readAtom_null (rest : List Char) (pos : Nat) :
    Gives (readAtom 'n' ⟨'n' :: (['u', 'l', 'l'] ++ rest), pos⟩) .null rest := by
  obtain ⟨p, read⟩ := readWord_spelled ['u', 'l', 'l'] rest (pos + Text.size ['n'])
  refine ⟨p, ?_⟩
  rw [readAtom, if_pos rfl, advance_one]
  exact congrArg (Except.map _) read

theorem readAtom_true (rest : List Char) (pos : Nat) :
    Gives (readAtom 't' ⟨'t' :: (['r', 'u', 'e'] ++ rest), pos⟩) (.bool true) rest := by
  obtain ⟨p, read⟩ := readWord_spelled ['r', 'u', 'e'] rest (pos + Text.size ['t'])
  refine ⟨p, ?_⟩
  rw [readAtom, if_neg (by decide), if_pos rfl, advance_one]
  exact congrArg (Except.map _) read

theorem readAtom_false (rest : List Char) (pos : Nat) :
    Gives (readAtom 'f' ⟨'f' :: (['a', 'l', 's', 'e'] ++ rest), pos⟩) (.bool false) rest := by
  obtain ⟨p, read⟩ := readWord_spelled ['a', 'l', 's', 'e'] rest (pos + Text.size ['f'])
  refine ⟨p, ?_⟩
  rw [readAtom, if_neg (by decide), if_neg (by decide), if_pos rfl, advance_one]
  exact congrArg (Except.map _) read

theorem readAtom_string {s : String} {text : List Char} (spelled : SpellsString s.toList text)
    (rest : List Char) (pos : Nat) :
    Gives (readAtom '"' ⟨'"' :: (text ++ rest), pos⟩) (.str s) rest := by
  rw [readAtom, if_neg (by decide), if_neg (by decide), if_neg (by decide), if_neg (by decide),
    if_neg (by decide), if_pos rfl]
  exact (readLiteral_spelled spelled rest pos).map str

theorem readAtom_minus (c : Cursor) : readAtom '-' c = readNumber true (c.advance 1) := by
  rw [readAtom, if_neg (by decide), if_neg (by decide), if_neg (by decide), if_pos rfl]

theorem readAtom_digit {d : Char} (digit : d.isDigit = true) (c : Cursor) :
    readAtom d c = readNumber false c := by
  have other := fun x => digit_ne (x := x) digit
  rw [readAtom, if_neg (other 'n' rfl), if_neg (other 't' rfl), if_neg (other 'f' rfl),
    if_neg (other '-' rfl)]
  exact if_pos digit

theorem readValue_list {bs : List Char} (blank : AreBlank bs) {depth : Nat} (room : 1 < depth)
    (fuel : Nat) (cs : List Char) (pos : Nat) : ∃ pos',
    readValue (fuel + 1) depth ⟨bs ++ '[' :: cs, pos⟩ = match beforeItem ⟨cs, pos'⟩ with
      | .error fault => .error fault
      | .ok (.stop after) => .ok (.arr [], after)
      | .ok (.more after) =>
        (readItems fuel (depth - 1) after).map fun (items, c) => (.arr items, c) := by
  obtain ⟨p, skip⟩ := skipBlanks_blank blank (d := '[') rfl cs pos
  refine ⟨p + Text.size ['['], ?_⟩
  rw [readValue, skip]
  exact (if_pos rfl).trans (if_neg (Nat.not_le.2 room))

theorem readValue_object {bs : List Char} (blank : AreBlank bs) {depth : Nat} (room : 1 < depth)
    (fuel : Nat) (cs : List Char) (pos : Nat) : ∃ pos',
    readValue (fuel + 1) depth ⟨bs ++ '\x7b' :: cs, pos⟩ = match beforeField ⟨cs, pos'⟩ with
      | .error fault => .error fault
      | .ok (.stop after) => .ok (.obj [], after)
      | .ok (.more after) =>
        (readFields fuel (depth - 1) after).map fun (fields, c) => (.obj fields, c) := by
  obtain ⟨p, skip⟩ := skipBlanks_blank blank (d := '\x7b') rfl cs pos
  refine ⟨p + Text.size ['\x7b'], ?_⟩
  rw [readValue, skip]
  exact (if_neg (by decide)).trans ((if_pos rfl).trans (if_neg (Nat.not_le.2 room)))

/-- The texts that are read as a value. -/
abbrev Holds : Part → List Char → Prop := SpellsBy HoldsNumber

/-- What reading a part of a text comes to, given steps for its length and room for its brackets. -/
def IsRead : Part → List Char → Prop
  | .value j, cs => ∀ fuel depth, 2 * cs.length ≤ fuel → j.nesting < depth →
    ∀ {bs rest : List Char}, AreBlank bs → Stops rest → ∀ pos,
      Gives (readValue fuel depth ⟨bs ++ (cs ++ rest), pos⟩) j rest
  | .items js, cs => ∀ fuel depth, 2 * cs.length ≤ fuel → nestingItems js < depth → ∀ rest pos,
      Gives (readItems fuel depth ⟨cs ++ rest, pos⟩) js rest
  | .moreItems js, cs => ∀ fuel depth, 2 * cs.length ≤ fuel → nestingItems js < depth → ∀ rest pos,
      (js = [] ∧ ∃ pos', afterItem ⟨cs ++ rest, pos⟩ = .ok (.stop ⟨rest, pos'⟩)) ∨
        ∃ later, afterItem ⟨cs ++ rest, pos⟩ = .ok (.more later) ∧
          Gives (readItems fuel depth later) js rest
  | .fields fs, cs => ∀ fuel depth, 2 * cs.length ≤ fuel → nestingFields fs < depth → ∀ rest pos,
      Gives (readFields fuel depth ⟨cs ++ rest, pos⟩) fs rest
  | .moreFields fs, cs => ∀ fuel depth, 2 * cs.length ≤ fuel → nestingFields fs < depth →
    ∀ rest pos,
      (fs = [] ∧ ∃ pos', afterField ⟨cs ++ rest, pos⟩ = .ok (.stop ⟨rest, pos'⟩)) ∨
        ∃ later, afterField ⟨cs ++ rest, pos⟩ = .ok (.more later) ∧
          Gives (readFields fuel depth later) fs rest

section Steps

variable {j : Json} {js : List Json} {fs : List (String × Json)} {bs bs' cs ds : List Char}

theorem isRead_number (held : HoldsNumber j cs) : IsRead (.value j) cs := by
  intro fuel depth enough _ bs rest blank stops
  cases held with
  | @parts negative whole fraction exponent _ isWhole isFraction isExponent value =>
    have read := readNumber_spelled isWhole isFraction isExponent value stops
    obtain ⟨d, more, rfl, digit⟩ := whole_head isWhole
    cases negative with
    | false =>
      refine readValue_atom (by simp [signed] at enough; omega) blank (visible_digit digit)
        (digit_ne digit rfl) (digit_ne digit rfl) (fun pos => ?_) depth
      rw [readAtom_digit digit]
      simpa using read pos
    | true =>
      refine readValue_atom (by simp [signed] at enough; omega) blank rfl (by decide) (by decide)
        (fun pos => ?_) depth
      rw [readAtom_minus, advance_one]
      simpa using read _

theorem isRead_noItems (blank : AreBlank bs) : IsRead (.value (.arr [])) ('[' :: (bs ++ [']'])) := by
  intro fuel depth enough room _ rest ahead _ pos
  obtain ⟨fuel, rfl⟩ := Nat.exists_eq_add_one_of_ne_zero (n := fuel) (by simp at enough; omega)
  obtain ⟨p, opens⟩ := readValue_list ahead room fuel (bs ++ ']' :: rest) pos
  obtain ⟨q, ends⟩ := beforeItem_stop blank rest p
  rw [List.cons_append, List.append_assoc, List.singleton_append, opens, ends]
  exact ⟨q, rfl⟩

theorem isRead_arr (blank : AreBlank bs) (items : Holds (.items js) cs)
    (read : IsRead (.items js) cs) : IsRead (.value (.arr js)) ('[' :: (bs ++ cs)) := by
  intro fuel depth enough room _ rest ahead _ pos
  rw [nesting] at room
  obtain ⟨fuel, rfl⟩ := Nat.exists_eq_add_one_of_ne_zero (n := fuel) (by simp at enough; omega)
  obtain ⟨d, more, rfl, visible, goes⟩ := items.items_head
  have inside : 1 < depth := by omega
  obtain ⟨p, opens⟩ := readValue_list ahead inside fuel (bs ++ d :: (more ++ rest)) pos
  obtain ⟨q, first⟩ := beforeItem_more blank visible goes (more ++ rest) p
  rw [List.cons_append, List.append_assoc, List.cons_append, opens, first]
  exact (read _ _ (by simp at enough ⊢; omega) (by omega) rest q).map arr

theorem isRead_noFields (blank : AreBlank bs) :
    IsRead (.value (.obj [])) ('\x7b' :: (bs ++ ['\x7d'])) := by
  intro fuel depth enough room _ rest ahead _ pos
  obtain ⟨fuel, rfl⟩ := Nat.exists_eq_add_one_of_ne_zero (n := fuel) (by simp at enough; omega)
  obtain ⟨p, opens⟩ := readValue_object ahead room fuel (bs ++ '\x7d' :: rest) pos
  obtain ⟨q, ends⟩ := beforeField_stop blank rest p
  rw [List.cons_append, List.append_assoc, List.singleton_append, opens, ends]
  exact ⟨q, rfl⟩

theorem isRead_obj (blank : AreBlank bs) (fields : Holds (.fields fs) cs)
    (read : IsRead (.fields fs) cs) : IsRead (.value (.obj fs)) ('\x7b' :: (bs ++ cs)) := by
  intro fuel depth enough room _ rest ahead _ pos
  rw [nesting] at room
  obtain ⟨fuel, rfl⟩ := Nat.exists_eq_add_one_of_ne_zero (n := fuel) (by simp at enough; omega)
  obtain ⟨more, rfl⟩ := fields.fields_head
  have inside : 1 < depth := by omega
  obtain ⟨p, opens⟩ := readValue_object ahead inside fuel (bs ++ '"' :: (more ++ rest)) pos
  obtain ⟨q, first⟩ := beforeField_more blank (more ++ rest) p
  rw [List.cons_append, List.append_assoc, List.cons_append, opens, first]
  exact (read _ _ (by simp at enough ⊢; omega) (by omega) rest q).map obj

theorem isRead_items (first : Holds (.value j) cs) (more : Holds (.moreItems js) ds)
    (read : IsRead (.value j) cs) (reads : IsRead (.moreItems js) ds) :
    IsRead (.items (j :: js)) (cs ++ ds) := by
  intro fuel depth enough room rest pos
  have some_ := first.length_pos
  have some_' := more.length_pos
  rw [List.length_append] at enough
  rw [nestingItems] at room
  obtain ⟨fuel, rfl⟩ := Nat.exists_eq_add_one_of_ne_zero (n := fuel) (by omega)
  obtain ⟨p, item⟩ := read fuel depth (by omega) (by omega) areBlank_nil
    (more.stops_moreItems rest) pos
  rw [List.nil_append] at item
  rw [List.append_assoc, readItems, item]
  dsimp only
  rcases reads fuel depth (by omega) (by omega) rest p with
    ⟨rfl, q, ends⟩ | ⟨later, next, items⟩
  · rw [ends]
    exact ⟨q, rfl⟩
  · rw [next]
    exact items.map (List.cons j)

theorem isRead_nextItem (blank : AreBlank bs) (blank' : AreBlank bs')
    (items : Holds (.items js) cs) (read : IsRead (.items js) cs) :
    IsRead (.moreItems js) (bs ++ ',' :: (bs' ++ cs)) := by
  intro fuel depth enough room rest pos
  obtain ⟨d, more, rfl, visible, goes⟩ := items.items_head
  obtain ⟨p, next⟩ := afterItem_more blank blank' visible goes (more ++ rest) pos
  refine .inr ⟨_, ?_, read _ _ (by simp at enough ⊢; omega) room rest p⟩
  simpa using next

theorem isRead_fields {k : String} {v : Json} {ks vs ms : List Char}
    (key : SpellsString k.toList ks) (blank : AreBlank bs) (blank' : AreBlank bs')
    (more : Holds (.moreFields fs) ms) (read : IsRead (.value v) vs)
    (reads : IsRead (.moreFields fs) ms) :
    IsRead (.fields ((k, v) :: fs)) ('"' :: (ks ++ (bs ++ ':' :: (bs' ++ (vs ++ ms))))) := by
  intro fuel depth enough room rest pos
  simp only [List.length_cons, List.length_append] at enough
  rw [nestingFields] at room
  obtain ⟨fuel, rfl⟩ := Nat.exists_eq_add_one_of_ne_zero (n := fuel) (by omega)
  obtain ⟨p, literal⟩ := readLiteral_spelled key (bs ++ ':' :: (bs' ++ (vs ++ (ms ++ rest)))) pos
  obtain ⟨q, colon⟩ := readColon_blank blank (bs' ++ (vs ++ (ms ++ rest))) p
  obtain ⟨r, value⟩ := read fuel depth (by omega) (by omega) blank'
    (more.stops_moreFields rest) q
  simp only [List.cons_append, List.append_assoc]
  rw [readFields, literal]
  simp only [colon, value]
  rcases reads fuel depth (by omega) (by omega) rest r with
    ⟨rfl, s, ends⟩ | ⟨later, next, fields⟩
  · rw [ends]
    exact ⟨s, rfl⟩
  · rw [next]
    exact fields.map (List.cons (k, v))

theorem isRead_nextField (blank : AreBlank bs) (blank' : AreBlank bs')
    (fields : Holds (.fields fs) cs) (read : IsRead (.fields fs) cs) :
    IsRead (.moreFields fs) (bs ++ ',' :: (bs' ++ cs)) := by
  intro fuel depth enough room rest pos
  obtain ⟨more, rfl⟩ := fields.fields_head
  obtain ⟨p, next⟩ := afterField_more blank blank' (more ++ rest) pos
  refine .inr ⟨_, ?_, read _ _ (by simp at enough ⊢; omega) room rest p⟩
  simpa using next

end Steps

theorem SpellsBy.isRead {p : Part} {cs : List Char} (spelled : Holds p cs) : IsRead p cs := by
  induction spelled with
  | null =>
    intro fuel depth enough _ bs rest blank _
    exact readValue_atom (by simp at enough; omega) blank rfl (by decide) (by decide)
      (readAtom_null rest) depth
  | yes =>
    intro fuel depth enough _ bs rest blank _
    exact readValue_atom (by simp at enough; omega) blank rfl (by decide) (by decide)
      (readAtom_true rest) depth
  | no =>
    intro fuel depth enough _ bs rest blank _
    exact readValue_atom (by simp at enough; omega) blank rfl (by decide) (by decide)
      (readAtom_false rest) depth
  | number _ held => exact isRead_number held
  | str s spelled =>
    intro fuel depth enough _ bs rest blank _
    exact readValue_atom (by simp at enough; omega) blank rfl (by decide) (by decide)
      (readAtom_string spelled rest) depth
  | noItems blank => exact isRead_noItems blank
  | arr blank items read => exact isRead_arr blank items read
  | noFields blank => exact isRead_noFields blank
  | obj blank fields read => exact isRead_obj blank fields read
  | items first more read reads => exact isRead_items first more read reads
  | lastItem blank =>
    intro fuel depth _ _ rest pos
    rw [List.append_assoc]
    exact .inl ⟨rfl, afterItem_stop blank rest pos⟩
  | nextItem blank blank' items read => exact isRead_nextItem blank blank' items read
  | fields key blank blank' value more read reads => exact isRead_fields key blank blank' more read reads
  | lastField blank =>
    intro fuel depth _ _ rest pos
    rw [List.append_assoc]
    exact .inl ⟨rfl, afterField_stop blank rest pos⟩
  | nextField blank blank' fields read => exact isRead_nextField blank blank' fields read

def Part.IsExact : Part → Prop
  | .value j => j.IsExact
  | .items js | .moreItems js => AreExact js
  | .fields fs | .moreFields fs => HaveExact fs

theorem SpellsBy.holds {p : Part} {cs : List Char} (spelled : Spells p cs) (exact_ : p.IsExact) :
    Holds p cs := by
  induction spelled with
  | null => exact .null
  | yes => exact .yes
  | no => exact .no
  | number number read =>
    refine .number number ?_
    cases read with
    | natural n => exact .natural (by have most := exact_.2; omega)
    | negative n => exact .negative (by have least := exact_.1; omega)
    | double => exact exact_.elim
  | str s spelled => exact .str s spelled
  | noItems blank => exact .noItems blank
  | arr blank _ ih => exact .arr blank (ih exact_)
  | noFields blank => exact .noFields blank
  | obj blank _ ih => exact .obj blank (ih exact_.2)
  | items _ _ ih ih' => exact .items (ih exact_.1) (ih' exact_.2)
  | lastItem blank => exact .lastItem blank
  | nextItem blank blank' _ ih => exact .nextItem blank blank' (ih exact_)
  | fields key blank blank' _ _ ih ih' => exact .fields key blank blank' (ih exact_.1) (ih' exact_.2)
  | lastField blank => exact .lastField blank
  | nextField blank blank' _ ih => exact .nextField blank blank' (ih exact_)

mutual

theorem IsExact.collapse {j : Json} (exact_ : j.IsExact) : j.collapse = j := by
  cases j with
  | arr items => rw [Json.collapse, AreExact.collapse exact_]
  | obj fields =>
    rw [Json.collapse, HaveExact.collapse exact_.2, collapsePairs_distinct exact_.1]
  | _ => rfl

theorem AreExact.collapse {items : List Json} (exact_ : AreExact items) :
    collapseItems items = items := by
  cases items with
  | nil => rfl
  | cons j rest => rw [collapseItems, exact_.1.collapse, AreExact.collapse exact_.2]

theorem HaveExact.collapse {fields : List (String × Json)} (exact_ : HaveExact fields) :
    collapseFields fields = fields := by
  cases fields with
  | nil => rfl
  | cons field rest => rw [collapseFields, exact_.1.collapse, HaveExact.collapse exact_.2]

end

end Playground.Json
