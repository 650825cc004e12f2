import Playground.Json.Parser
import Playground.Proofs.Number.Text

/-! JSON as a grammar, and what is written. -/

namespace Playground

namespace NumberLayout

structure IsWhole (cs : List Char) : Prop where
  digits : IsDigits cs
  some_ : cs ≠ []
  leading : cs.head? = some '0' → cs = ['0']

def IsFraction (cs : List Char) : Prop :=
  cs = [] ∨ ∃ digits, IsDigits digits ∧ digits ≠ [] ∧ cs = '.' :: digits

def IsExponent (cs : List Char) : Prop :=
  cs = [] ∨ ∃ letter ∈ ['e', 'E'], ∃ sign ∈ [[], ['+'], ['-']], ∃ digits,
    IsDigits digits ∧ digits ≠ [] ∧ cs = letter :: (sign ++ digits)

def IsUnsigned (cs : List Char) : Prop :=
  ∃ whole fraction exponent, IsWhole whole ∧ IsFraction fraction ∧ IsExponent exponent ∧
    cs = whole ++ (fraction ++ exponent)

def IsNumber (cs : List Char) : Prop :=
  IsUnsigned cs ∨ ∃ magnitude, IsUnsigned magnitude ∧ cs = '-' :: magnitude

end NumberLayout

namespace Json

open NumberLayout (IsNumber)

def IsPlain (c : Char) : Prop := 0x20 ≤ c.toNat ∧ c ≠ '"' ∧ c ≠ '\\'

def shortEscapes : List (Char × Char) :=
  [('"', '"'), ('\\', '\\'), ('/', '/'), ('b', '\x08'), ('f', '\x0c'), ('n', '\n'), ('r', '\r'),
    ('t', '\t')]

inductive SpellsString : List Char → List Char → Prop
  | stop : SpellsString [] ['"']
  | plain {c : Char} {cs text : List Char} (plain : IsPlain c) (more : SpellsString cs text) :
    SpellsString (c :: cs) (c :: text)
  | short {letter c : Char} {cs text : List Char} (known : (letter, c) ∈ shortEscapes)
    (more : SpellsString cs text) : SpellsString (c :: cs) ('\\' :: letter :: text)
  | unit {digits : List Char} {c : Char} {cs text : List Char}
    (unit : hexUnit? digits = some c.toNat) (more : SpellsString cs text) :
    SpellsString (c :: cs) ('\\' :: 'u' :: (digits ++ text))
  /-- A character beyond the first 2^16, as its two surrogates. -/
  | pair {first second : List Char} {high low : Nat} {cs text : List Char}
    (upper : hexUnit? first = some high) (lower : hexUnit? second = some low)
    (isHigh : isHighSurrogate high = true) (isLow : isLowSurrogate low = true)
    (more : SpellsString cs text) :
    SpellsString (Char.ofNat ((high - 0xd800) * 0x400 + (low - 0xdc00) + 0x10000) :: cs)
      ('\\' :: 'u' :: (first ++ '\\' :: 'u' :: (second ++ text)))

def AreBlank (cs : List Char) : Prop := ∀ c ∈ cs, isJsonBlank c = true

inductive Part
  | value (j : Json)
  /-- The items of a list from the first one on, and its closing bracket. -/
  | items (js : List Json)
  | moreItems (js : List Json)
  /-- The fields of an object from the first key on, and its closing bracket. -/
  | fields (fs : List (String × Json))
  | moreFields (fs : List (String × Json))

/-- The texts of values and of parts of them, by a reading of the texts of numbers. -/
inductive SpellsBy (numbers : Json → List Char → Prop) : Part → List Char → Prop
  | null : SpellsBy numbers (.value .null) ['n', 'u', 'l', 'l']
  | yes : SpellsBy numbers (.value (.bool true)) ['t', 'r', 'u', 'e']
  | no : SpellsBy numbers (.value (.bool false)) ['f', 'a', 'l', 's', 'e']
  | number {j : Json} {cs : List Char} (number : IsNumber cs) (read : numbers j cs) :
    SpellsBy numbers (.value j) cs
  | str (s : String) {cs : List Char} (spelled : SpellsString s.toList cs) :
    SpellsBy numbers (.value (.str s)) ('"' :: cs)
  | noItems {bs : List Char} (blank : AreBlank bs) :
    SpellsBy numbers (.value (.arr [])) ('[' :: (bs ++ [']']))
  | arr {js : List Json} {bs cs : List Char} (blank : AreBlank bs)
    (items : SpellsBy numbers (.items js) cs) : SpellsBy numbers (.value (.arr js)) ('[' :: (bs ++ cs))
  | noFields {bs : List Char} (blank : AreBlank bs) :
    SpellsBy numbers (.value (.obj [])) ('\x7b' :: (bs ++ ['\x7d']))
  | obj {fs : List (String × Json)} {bs cs : List Char} (blank : AreBlank bs)
    (fields : SpellsBy numbers (.fields fs) cs) :
    SpellsBy numbers (.value (.obj fs)) ('\x7b' :: (bs ++ cs))
  | items {j : Json} {js : List Json} {cs ds : List Char} (first : SpellsBy numbers (.value j) cs)
    (more : SpellsBy numbers (.moreItems js) ds) : SpellsBy numbers (.items (j :: js)) (cs ++ ds)
  | lastItem {bs : List Char} (blank : AreBlank bs) : SpellsBy numbers (.moreItems []) (bs ++ [']'])
  | nextItem {js : List Json} {bs bs' cs : List Char} (blank : AreBlank bs) (blank' : AreBlank bs')
    (items : SpellsBy numbers (.items js) cs) :
    SpellsBy numbers (.moreItems js) (bs ++ ',' :: (bs' ++ cs))
  | fields {k : String} {v : Json} {fs : List (String × Json)} {ks bs bs' vs ms : List Char}
    (key : SpellsString k.toList ks) (blank : AreBlank bs) (blank' : AreBlank bs')
    (value : SpellsBy numbers (.value v) vs) (more : SpellsBy numbers (.moreFields fs) ms) :
    SpellsBy numbers (.fields ((k, v) :: fs)) ('"' :: (ks ++ (bs ++ ':' :: (bs' ++ (vs ++ ms)))))
  | lastField {bs : List Char} (blank : AreBlank bs) :
    SpellsBy numbers (.moreFields []) (bs ++ ['\x7d'])
  | nextField {fs : List (String × Json)} {bs bs' cs : List Char} (blank : AreBlank bs)
    (blank' : AreBlank bs') (fields : SpellsBy numbers (.fields fs) cs) :
    SpellsBy numbers (.moreFields fs) (bs ++ ',' :: (bs' ++ cs))

/-- The texts of a number; one that is not whole may be any number. -/
inductive SpellsNumber : Json → List Char → Prop
  | natural (n : Nat) : SpellsNumber (.int n) (Nat.toDigits 10 n)
  | negative (n : Nat) : SpellsNumber (.int (.negSucc n)) ('-' :: Nat.toDigits 10 (n + 1))
  | double (x : Binary64) (cs : List Char) : SpellsNumber (.float x) cs

abbrev Spells : Part → List Char → Prop := SpellsBy SpellsNumber

end Json

namespace NumberLayout

theorem head?_toDigits {n : Nat} (pos : 0 < n) : (Nat.toDigits 10 n).head? ≠ some '0' := by
  induction n using Nat.strong_induction_on with
  | h n ih =>
    rw [Nat.toDigits_eq_if (by norm_num)]
    split
    · next small =>
      interval_cases n <;> decide
    · next large =>
      have front := ih (n / 10) (by omega) (by omega)
      rwa [List.head?_append_of_ne_nil _ Nat.toDigits_ne_nil]

theorem isWhole_toDigits (n : Nat) : IsWhole (Nat.toDigits 10 n) where
  digits := isDigits_toDigits n
  some_ := Nat.toDigits_ne_nil
  leading zero := by
    rcases Nat.eq_zero_or_pos n with rfl | pos
    · rfl
    · exact absurd zero (head?_toDigits pos)

theorem isUnsigned_toDigits (n : Nat) : IsUnsigned (Nat.toDigits 10 n) :=
  ⟨_, [], [], isWhole_toDigits n, .inl rfl, .inl rfl, by simp⟩

theorem isNumber_toDigits (n : Nat) : IsNumber (Nat.toDigits 10 n) := .inl (isUnsigned_toDigits n)

theorem isNumber_minus (n : Nat) : IsNumber ('-' :: Nat.toDigits 10 n) :=
  .inr ⟨_, isUnsigned_toDigits n, rfl⟩

theorem isWhole_digit {d : Char} (digit : d.isDigit = true) : IsWhole [d] where
  digits := List.forall_mem_singleton.2 digit
  some_ := List.cons_ne_nil d []
  leading zero := by rw [Option.some.inj zero]

theorem isUnsigned_point {whole digits : List Char} (isWhole : IsWhole whole)
    (places : IsDigits digits) (some_ : digits ≠ []) : IsUnsigned (whole ++ '.' :: digits) :=
  ⟨whole, '.' :: digits, [], isWhole, .inr ⟨digits, places, some_, rfl⟩, .inl rfl, by simp⟩

theorem isUnsigned_positional {digits : List Char} {whole : Int} (isWhole : IsWhole digits)
    (zero : digits = ['0'] → whole ≤ 1) : IsUnsigned (positionalText digits whole) := by
  have isZero : IsWhole ['0'] := isWhole_digit rfl
  unfold positionalText
  split
  · next n =>
    split
    · exact isUnsigned_point isZero isWhole.digits isWhole.some_
    · next ahead =>
      split
      · next short =>
        refine isUnsigned_point ?_ isDigits_zero (List.cons_ne_nil _ _)
        refine ⟨isWhole.digits.append (isDigits_zeros _), by simp [isWhole.some_], fun leads => ?_⟩
        rw [List.head?_append_of_ne_nil _ isWhole.some_] at leads
        have only := isWhole.leading leads
        have one := zero only
        have none_ : n - digits.length = 0 := by
          rw [only]
          simp only [Int.ofNat_eq_natCast] at one
          simp
          omega
        rw [none_, only]
        rfl
      · next long =>
        refine isUnsigned_point ⟨fun c mem => isWhole.digits c (List.mem_of_mem_take mem), ?_, ?_⟩
          (fun c mem => isWhole.digits c (List.mem_of_mem_drop mem)) ?_
        · simp [isWhole.some_, ahead]
        · intro leads
          rw [List.head?_take, if_neg ahead] at leads
          rw [isWhole.leading leads] at long
          simp at long
          omega
        · rw [ne_eq, List.drop_eq_nil_iff]
          omega
  · next n =>
    exact isUnsigned_point isZero ((isDigits_zeros (n + 1)).append isWhole.digits)
      (by simp [isWhole.some_])

theorem isExponent_exponentPart (layout : NumberLayout) (exponent : Int) :
    IsExponent ('e' :: exponentPart layout exponent) := by
  refine .inr ⟨'e', by simp, _, ?_, _, isDigits_toDigits exponent.natAbs, Nat.toDigits_ne_nil, rfl⟩
  cases exponent with
  | ofNat n =>
    dsimp only
    split <;> simp
  | negSucc n => simp

theorem isUnsigned_exponentText (layout : NumberLayout) {digits : List Char}
    (plain : IsDigits digits) (some_ : digits ≠ []) (exponent : Int) :
    IsUnsigned (exponentText layout digits exponent) := by
  have power := isExponent_exponentPart layout exponent
  match digits with
  | [] => exact absurd rfl some_
  | [d] =>
    rw [exponentText_one]
    exact ⟨[d], [], _, isWhole_digit (plain d List.mem_cons_self), .inl rfl, power, rfl⟩
  | d :: c :: more =>
    rw [exponentText_more]
    have places : IsDigits (c :: more) := fun x mem => plain x (List.mem_cons_of_mem d mem)
    exact ⟨[d], '.' :: c :: more, _, isWhole_digit (plain d List.mem_cons_self),
      .inr ⟨_, places, List.cons_ne_nil _ _, rfl⟩, power, by simp⟩

theorem isNumber_text (layout : NumberLayout) (x : Binary64) :
    IsNumber (layout.text x).toList := by
  have magnitude : IsUnsigned (layout.magnitudeText x) := by
    unfold magnitudeText
    split
    · exact isUnsigned_point (isWhole_digit rfl) isDigits_zero (List.cons_ne_nil _ _)
    · next some_ =>
      have digits := isWhole_toDigits x.shortest.digits
      dsimp only
      split
      · refine isUnsigned_positional digits fun zero => ?_
        have none_ : x.shortest.digits = 0 := by
          rw [← Nat.ofDigitChars_ten_toDigits (n := x.shortest.digits), zero]
          rfl
        rw [Binary64.shortest_zero (Nat.pos_of_ne_zero some_) none_]
        decide
      · exact isUnsigned_exponentText layout digits.digits digits.some_ _
  rw [toList_text]
  split
  · exact .inr ⟨_, magnitude, rfl⟩
  · exact .inl magnitude

end NumberLayout

namespace Json

open NumberLayout (IsNumberChar)

theorem number_intText (n : Int) : ∀ c ∈ intText n, IsNumberChar c := by
  have digits := fun n => (NumberLayout.isDigits_toDigits n).number
  cases n with
  | ofNat n => exact digits n
  | negSucc n => exact List.forall_mem_cons.2 ⟨.inr (by decide), digits (n + 1)⟩

theorem number_text (layout : NumberLayout) (x : Binary64) :
    ∀ c ∈ (layout.text x).toList, IsNumberChar c := by
  intro c mem
  rw [NumberLayout.toList_text] at mem
  rcases List.mem_append.1 mem with sign | magnitude
  · split at sign
    · rw [List.mem_singleton.1 sign]
      exact .inr (by decide)
    · exact absurd sign List.not_mem_nil
  · exact (layout.isMagnitude_magnitudeText x).chars c magnitude

theorem hexUnit_control : ∀ n < 32,
    hexUnit? ['0', '0', hexDigit (n / 16), hexDigit (n % 16)] = some n := by decide

theorem spells_escapeChar (c : Char) {cs text : List Char} (more : SpellsString cs text) :
    SpellsString (c :: cs) (escapeChar c ++ text) := by
  have short : ∀ letter, (letter, c) ∈ shortEscapes →
      SpellsString (c :: cs) (['\\', letter] ++ text) := fun _ known => .short known more
  unfold escapeChar
  split
  · next same => exact short '"' (by simp [shortEscapes, same])
  split
  · next same => exact short '\\' (by simp [shortEscapes, same])
  split
  · next same => exact short 'n' (by simp [shortEscapes, same])
  split
  · next same => exact short 'r' (by simp [shortEscapes, same])
  split
  · next same => exact short 't' (by simp [shortEscapes, same])
  split
  · next same => exact short 'b' (by simp [shortEscapes, same])
  split
  · next same => exact short 'f' (by simp [shortEscapes, same])
  split
  · next control => exact .unit (hexUnit_control c.toNat control) more
  · next quote slash _ _ _ _ _ visible => exact .plain ⟨Nat.le_of_not_lt visible, quote, slash⟩ more

theorem exists_literal (s : String) :
    ∃ text, literal s = '"' :: text ∧ SpellsString s.toList text := by
  refine ⟨s.toList.flatMap escapeChar ++ ['"'], rfl, ?_⟩
  induction s.toList with
  | nil => exact .stop
  | cons c cs ih =>
    rw [List.flatMap_cons, List.append_assoc]
    exact spells_escapeChar c ih

theorem areBlank_nil : AreBlank [] := nofun

theorem areBlank_space : AreBlank [' '] := List.forall_mem_singleton.2 rfl

theorem areBlank_newLine (depth : Nat) : AreBlank (newLine depth) := by
  intro c mem
  rcases List.mem_cons.1 mem with rfl | mem
  · rfl
  · rw [List.eq_of_mem_replicate mem]
    rfl

section Tight

variable {js : List Json} {fs : List (String × Json)} {cs : List Char}

theorem Spells.arr_tight (items : Spells (.items js) cs) : Spells (.value (.arr js)) ('[' :: cs) :=
  .arr areBlank_nil items

theorem Spells.obj_tight (fields : Spells (.fields fs) cs) :
    Spells (.value (.obj fs)) ('\x7b' :: cs) := .obj areBlank_nil fields

theorem Spells.nextItem_tight (items : Spells (.items js) cs) : Spells (.moreItems js) (',' :: cs) :=
  .nextItem areBlank_nil areBlank_nil items

theorem Spells.nextField_tight (fields : Spells (.fields fs) cs) :
    Spells (.moreFields fs) (',' :: cs) := .nextField areBlank_nil areBlank_nil fields

end Tight

theorem spells_fields {k : String} {v : Json} {fs : List (String × Json)} {bs vs ms : List Char}
    (blank : AreBlank bs) (value : Spells (.value v) vs) (more : Spells (.moreFields fs) ms) :
    Spells (.fields ((k, v) :: fs)) (literal k ++ ':' :: (bs ++ (vs ++ ms))) := by
  obtain ⟨text, shape, key⟩ := exists_literal k
  rw [shape]
  exact .fields key areBlank_nil blank value more

theorem spells_atom {j : Json} (atom : ∀ items, j ≠ .arr items) (atom' : ∀ fields, j ≠ .obj fields) :
    Spells (.value j) (atomText j) := by
  cases j with
  | null => exact .null
  | bool b =>
    cases b with
    | true => exact .yes
    | false => exact .no
  | int n =>
    cases n with
    | ofNat n => exact .number (NumberLayout.isNumber_toDigits n) (.natural n)
    | negSucc n => exact .number (NumberLayout.isNumber_minus (n + 1)) (.negative n)
  | float x => exact .number (NumberLayout.json.isNumber_text x) (.double x _)
  | str s =>
    obtain ⟨text, shape, spelled⟩ := exists_literal s
    rw [atomText, shape]
    exact .str s spelled
  | arr items => exact absurd rfl (atom items)
  | obj fields => exact absurd rfl (atom' fields)

mutual

theorem spells_compact (j : Json) : Spells (.value j) (compactChars j) := by
  cases j with
  | arr items =>
    cases items with
    | nil => exact .noItems areBlank_nil
    | cons j rest =>
      exact .arr_tight (.items (spells_compact j) (spells_compactMoreItems rest))
  | obj fields =>
    cases fields with
    | nil => exact .noFields areBlank_nil
    | cons field rest =>
      obtain ⟨k, v⟩ := field
      have spelled := spells_fields (k := k) areBlank_nil (spells_compact v)
        (spells_compactMoreFields rest)
      rw [compactChars, compactFields, List.append_assoc]
      exact .obj_tight spelled
  | null | bool | int | float | str => exact spells_atom nofun nofun

theorem spells_compactMoreItems (items : List Json) :
    Spells (.moreItems items) (compactMoreItems items) := by
  cases items with
  | nil => exact .lastItem areBlank_nil
  | cons j rest =>
    exact .nextItem_tight (.items (spells_compact j) (spells_compactMoreItems rest))

theorem spells_compactMoreFields (fields : List (String × Json)) :
    Spells (.moreFields fields) (compactMoreFields fields) := by
  cases fields with
  | nil => exact .lastField areBlank_nil
  | cons field rest =>
    obtain ⟨k, v⟩ := field
    have spelled := spells_fields (k := k) areBlank_nil (spells_compact v)
      (spells_compactMoreFields rest)
    rw [compactMoreFields, List.append_assoc]
    exact .nextField_tight spelled

end

mutual

theorem spells_pretty (depth : Nat) (j : Json) : Spells (.value j) (prettyChars depth j) := by
  cases j with
  | arr items =>
    cases items with
    | nil => exact .noItems areBlank_nil
    | cons j rest =>
      have spelled := SpellsBy.items (spells_pretty (depth + 1) j)
        (spells_prettyItems (depth + 1) (areBlank_newLine depth) rest)
      rw [prettyChars]
      simpa using SpellsBy.arr (areBlank_newLine (depth + 1)) spelled
  | obj fields =>
    cases fields with
    | nil => exact .noFields areBlank_nil
    | cons field rest =>
      obtain ⟨k, v⟩ := field
      have spelled := spells_fields (k := k) areBlank_space (spells_pretty (depth + 1) v)
        (spells_prettyFields (depth + 1) (areBlank_newLine depth) rest)
      rw [prettyChars]
      simpa using SpellsBy.obj (areBlank_newLine (depth + 1)) spelled
  | null | bool | int | float | str => exact spells_atom nofun nofun

theorem spells_prettyItems (depth : Nat) {bs : List Char} (blank : AreBlank bs)
    (items : List Json) : Spells (.moreItems items) (prettyItems depth items ++ (bs ++ [']'])) := by
  cases items with
  | nil => exact .lastItem blank
  | cons j rest =>
    have spelled := SpellsBy.items (spells_pretty depth j) (spells_prettyItems depth blank rest)
    rw [prettyItems]
    simpa using SpellsBy.nextItem areBlank_nil (areBlank_newLine depth) spelled

theorem spells_prettyFields (depth : Nat) {bs : List Char} (blank : AreBlank bs)
    (fields : List (String × Json)) :
    Spells (.moreFields fields) (prettyFields depth fields ++ (bs ++ ['\x7d'])) := by
  cases fields with
  | nil => exact .lastField blank
  | cons field rest =>
    obtain ⟨k, v⟩ := field
    have spelled := spells_fields (k := k) areBlank_space (spells_pretty depth v)
      (spells_prettyFields depth blank rest)
    rw [prettyFields]
    simpa using SpellsBy.nextField areBlank_nil (areBlank_newLine depth) spelled

end

def AreVisible (cs : List Char) : Prop := ∀ c ∈ cs, 0x20 ≤ c.toNat

instance (cs : List Char) : Decidable (AreVisible cs) :=
  List.decidableBAll (fun c : Char => 0x20 ≤ c.toNat) cs

theorem AreVisible.append {cs ds : List Char} (first : AreVisible cs) (second : AreVisible ds) :
    AreVisible (cs ++ ds) := fun c mem => (List.mem_append.1 mem).elim (first c) (second c)

theorem AreVisible.cons {c : Char} {cs : List Char} (more : AreVisible cs) (first : 0x20 ≤ c.toNat) :
    AreVisible (c :: cs) := List.forall_mem_cons.2 ⟨first, more⟩

theorem visible_hexDigit : ∀ n < 16, 0x20 ≤ (hexDigit n).toNat := by decide

theorem visible_escapeChar (c : Char) : AreVisible (escapeChar c) := by
  unfold escapeChar
  split
  · decide
  split
  · decide
  split
  · decide
  split
  · decide
  split
  · decide
  split
  · decide
  split
  · decide
  split
  · next control =>
    have high := visible_hexDigit (c.toNat / 16) (by omega)
    have low := visible_hexDigit (c.toNat % 16) (by omega)
    simpa [AreVisible] using ⟨high, low⟩
  · next visible => simpa [AreVisible] using visible

theorem visible_literal (s : String) : AreVisible (literal s) := by
  have inner : AreVisible (s.toList.flatMap escapeChar) := by
    intro d mem
    obtain ⟨c, -, mem⟩ := List.mem_flatMap.1 mem
    exact visible_escapeChar c d mem
  exact (inner.append (by decide)).cons (by decide)

theorem visible_number {cs : List Char} (number : ∀ c ∈ cs, IsNumberChar c) :
    AreVisible cs := by
  intro c mem
  rcases number c mem with digit | other
  · exact Nat.le_trans (by decide) (Char.isDigit_iff_toNat.1 digit).1
  · exact (by decide : AreVisible ['+', '-', '.', 'e']) c other

theorem visible_atom (j : Json) : AreVisible (atomText j) := by
  cases j with
  | bool b => cases b <;> decide
  | int n => exact visible_number (number_intText n)
  | float x => exact visible_number (number_text .json x)
  | str s => exact visible_literal s
  | null => decide
  | arr | obj => exact List.forall_mem_nil _

mutual

theorem visible_compact (j : Json) : AreVisible (compactChars j) := by
  cases j with
  | arr items =>
    cases items with
    | nil => decide
    | cons j rest =>
      exact ((visible_compact j).append (visible_compactMoreItems rest)).cons (by decide)
  | obj fields =>
    cases fields with
    | nil => decide
    | cons field rest =>
      obtain ⟨k, v⟩ := field
      have value := (visible_compact v).cons (show 0x20 ≤ ':'.toNat by decide)
      exact (((visible_literal k).append value).append (visible_compactMoreFields rest)).cons
        (by decide)
  | null => exact visible_atom .null
  | bool b => exact visible_atom (.bool b)
  | int n => exact visible_atom (.int n)
  | float x => exact visible_atom (.float x)
  | str s => exact visible_atom (.str s)

theorem visible_compactMoreItems (items : List Json) : AreVisible (compactMoreItems items) := by
  cases items with
  | nil => decide
  | cons j rest =>
    exact ((visible_compact j).cons (by decide)).append (visible_compactMoreItems rest)

theorem visible_compactMoreFields (fields : List (String × Json)) :
    AreVisible (compactMoreFields fields) := by
  cases fields with
  | nil => decide
  | cons field rest =>
    obtain ⟨k, v⟩ := field
    have value := (visible_compact v).cons (show 0x20 ≤ ':'.toNat by decide)
    exact (((visible_literal k).append value).cons (by decide)).append
      (visible_compactMoreFields rest)

end

end Json

end Playground
