import Playground.Proofs.Json.Spelling
import Playground.Proofs.Pairs

/-! Texts of numbers and the values they are read as (`HoldsNumber`). -/

namespace Playground.Json

open NumberLayout (IsDigits IsWhole IsFraction IsExponent IsUnsigned IsNumber)

def shifted? (negative : Bool) (significand : Nat) (power : Int) (down : Bool)
    (digits : List Char) : Option Binary64 :=
  let value := digits.foldl (fun n d => n * 10 + (d.toNat - 48)) 0
  if value < exponentLimit then
    doubleOf? negative significand (power + if down then -(value : Int) else value)
  else if significand ≠ 0 ∧ (!down) = true then none
  else some { Binary64.zero with negative := negative }

def scientific? (negative : Bool) (significand : Nat) (power : Int) :
    List Char → Option Binary64
  | [] => doubleOf? negative significand power
  | _ :: '+' :: digits => shifted? negative significand power false digits
  | _ :: '-' :: digits => shifted? negative significand power true digits
  | _ :: digits => shifted? negative significand power false digits

/-- The value of digits alone: those below 2^64 and those that were left out. -/
def plain? (negative : Bool) (value : Nat) (left : List Char) : Option Json :=
  match left, wholeNumber? negative value with
  | [], some n => some (.int n)
  | _, _ => (doubleOf? negative value left.length).map .float

/-- The value of a number in its parts, unless it is beyond the doubles. Digits that do not fit below
2^64 count only towards the power of ten. -/
def numberOf? (negative : Bool) (whole fraction exponent : List Char) : Option Json :=
  let (value, left) := takeDigits 0 whole
  if fraction.isEmpty && exponent.isEmpty then plain? negative value left
  else
    let (value, dropped) := takeDigits value (fraction.drop 1)
    let used := (fraction.drop 1).length - dropped.length
    (scientific? negative value (left.length - used : Int) exponent).map .float

def signed (negative : Bool) (cs : List Char) : List Char := if negative then '-' :: cs else cs

inductive HoldsNumber : Json → List Char → Prop
  | parts {negative : Bool} {whole fraction exponent : List Char} {j : Json}
    (isWhole : IsWhole whole) (isFraction : IsFraction fraction) (isExponent : IsExponent exponent)
    (value : numberOf? negative whole fraction exponent = some j) :
    HoldsNumber j (signed negative (whole ++ (fraction ++ exponent)))

def Gives {α : Type} (answer : Except Fault (α × Cursor)) (a : α) (rest : List Char) : Prop :=
  ∃ pos, answer = .ok (a, ⟨rest, pos⟩)

theorem Gives.map {α β : Type} {answer : Except Fault (α × Cursor)} {a : α} {rest : List Char}
    (gives : Gives answer a rest) (f : α → β) :
    Gives (answer.map fun (a, c) => (f a, c)) (f a) rest := by
  obtain ⟨pos, rfl⟩ := gives
  exact ⟨pos, rfl⟩

theorem advance_one (d : Char) (cs : List Char) (pos : Nat) :
    (Cursor.mk (d :: cs) pos).advance 1 = ⟨cs, pos + Text.size [d]⟩ := rfl

theorem advance_append (cs rest : List Char) (pos : Nat) :
    (Cursor.mk (cs ++ rest) pos).advance cs.length = ⟨rest, pos + Text.size cs⟩ := by
  simp [Cursor.advance]

theorem whole_head {ds : List Char} (whole : IsWhole ds) :
    ∃ d more, ds = d :: more ∧ d.isDigit = true := by
  obtain ⟨d, more, rfl⟩ := List.exists_cons_of_ne_nil whole.some_
  exact ⟨d, more, rfl, whole.digits d List.mem_cons_self⟩

theorem digit_ne {d x : Char} (digit : d.isDigit = true) (other : x.isDigit = false) : d ≠ x := by
  rintro rfl
  exact Bool.false_ne_true (other.symm.trans digit)

theorem visible_digit {d : Char} (digit : d.isDigit = true) : isJsonBlank d = false := by
  have other := fun x => digit_ne (x := x) digit
  simp [isJsonBlank, other ' ' rfl, other '\n' rfl, other '\t' rfl, other '\r' rfl]

def Stops (rest : List Char) : Prop :=
  ∀ c more, rest = c :: more → isJsonBlank c = true ∨ c ∈ [',', ']', '\x7d']

theorem stops_nil : Stops [] := nofun

theorem Stops.not_number {c : Char} {more : List Char} (stops : Stops (c :: more)) :
    isAsciiDigit c = false ∧ c ≠ '.' ∧ c ≠ 'e' ∧ c ≠ 'E' := by
  rcases stops c more rfl with blank | mem
  · simp only [isJsonBlank, Bool.or_eq_true, beq_iff_eq] at blank
    rcases blank with ((rfl | rfl) | rfl) | rfl <;> decide
  · simp only [List.mem_cons, List.not_mem_nil, or_false] at mem
    rcases mem with rfl | rfl | rfl <;> decide

def EndsDigits (rest : List Char) : Prop := ∀ c more, rest = c :: more → isAsciiDigit c = false

theorem Stops.endsDigits {rest : List Char} (stops : Stops rest) : EndsDigits rest := by
  rintro c more rfl
  exact stops.not_number.1

theorem digitsAhead_digits {ds rest : List Char} (digits : IsDigits ds) (ends : EndsDigits rest)
    (pos : Nat) : digitsAhead ⟨ds ++ rest, pos⟩ = ds := by
  have ahead : ∀ c ∈ ds, isAsciiDigit c = true := digits
  rw [digitsAhead, List.takeWhile_append_of_pos ahead]
  cases rest with
  | nil => simp
  | cons c more =>
    rw [List.takeWhile_cons_of_neg (Bool.eq_false_iff.1 (ends c more rfl)), List.append_nil]

theorem finishDouble_eq_ok_iff {negative : Bool} {significand : Nat} {power : Int} {c d : Cursor}
    {j : Json} : finishDouble negative significand power c = .ok (j, d) ↔
      d = c ∧ ∃ x, doubleOf? negative significand power = some x ∧ j = .float x := by
  unfold finishDouble
  cases doubleOf? negative significand power with
  | none => simp [Cursor.fault]
  | some x => simp [eq_comm, and_comm]

theorem readPlain_eq_ok_iff {negative : Bool} {value : Nat} {left : List Char} {c d : Cursor}
    {j : Json} : readNumber.plain negative value left c = .ok (j, d) ↔
      d = c ∧ plain? negative value left = some j := by
  have double : (finishDouble negative value left.length c = .ok (j, d)) ↔
      d = c ∧ (doubleOf? negative value left.length).map .float = some j := by
    rw [finishDouble_eq_ok_iff, Option.map_eq_some_iff]
    simp only [eq_comm]
  unfold readNumber.plain plain?
  cases left with
  | cons e more => exact double
  | nil =>
    cases wholeNumber? negative value with
    | none => exact double
    | some n => simp [eq_comm, and_comm]

section Complete

variable {negative down : Bool} {significand : Nat} {power : Int}
variable {digits fraction exponent rest : List Char} {x : Binary64}

theorem finishDouble_spelled (value : doubleOf? negative significand power = some x) (pos : Nat) :
    Gives (finishDouble negative significand power ⟨rest, pos⟩) (.float x) rest :=
  ⟨pos, finishDouble_eq_ok_iff.2 ⟨rfl, x, value, rfl⟩⟩

theorem readExponentDigits_spelled (plain : IsDigits digits) (some_ : digits ≠ [])
    (ends : EndsDigits rest) (value : shifted? negative significand power down digits = some x)
    (pos : Nat) : Gives (readExponentDigits negative significand power down ⟨digits ++ rest, pos⟩)
      (.float x) rest := by
  have ahead := digitsAhead_digits plain ends pos
  have after := advance_append digits rest pos
  obtain ⟨d, more, rfl⟩ := List.exists_cons_of_ne_nil some_
  have digit : isAsciiDigit d = true := plain d List.mem_cons_self
  unfold readExponentDigits
  unfold shifted? at value
  dsimp only at value ⊢
  rw [List.cons_append] at ahead after ⊢
  simp only [digit, Bool.not_true, Bool.false_eq_true, if_false, ahead, after]
  split at value
  · next small =>
    rw [if_pos small]
    exact finishDouble_spelled value _
  · next large =>
    rw [if_neg large]
    split at value
    · cases value
    · next fits =>
      rw [if_neg fits]
      cases value
      exact ⟨_, rfl⟩

theorem readExponent_spelled {letter : Char} {sign : List Char} (signs : sign ∈ [[], ['+'], ['-']])
    (plain : IsDigits digits) (some_ : digits ≠ []) (ends : EndsDigits rest)
    (value : scientific? negative significand power (letter :: (sign ++ digits)) = some x)
    (pos : Nat) : Gives (readExponent negative significand power
      ⟨letter :: (sign ++ (digits ++ rest)), pos⟩) (.float x) rest := by
  unfold readExponent
  rw [advance_one]
  simp only [List.mem_cons, List.not_mem_nil, or_false] at signs
  rcases signs with rfl | rfl | rfl
  · obtain ⟨d, more, rfl⟩ := List.exists_cons_of_ne_nil some_
    have digit : d.isDigit = true := plain d List.mem_cons_self
    have plus := digit_ne digit (x := '+') rfl
    have minus := digit_ne digit (x := '-') rfl
    have unsigned : shifted? negative significand power false (d :: more) = some x := by
      simpa [scientific?, plus, minus] using value
    have read := readExponentDigits_spelled plain some_ ends unsigned (pos + Text.size [letter])
    simpa [plus, minus] using read
  · exact readExponentDigits_spelled plain some_ ends value _
  · exact readExponentDigits_spelled plain some_ ends value _

theorem readTail_spelled (isExponent : IsExponent exponent) (stops : Stops rest)
    (value : scientific? negative significand power exponent = some x) (pos : Nat) :
    Gives (readTail negative significand power ⟨exponent ++ rest, pos⟩) (.float x) rest := by
  unfold readTail
  rcases isExponent with rfl | ⟨letter, mem, sign, signs, digits, plain, some_, rfl⟩
  · have here : Gives (finishDouble negative significand power ⟨rest, pos⟩) (.float x) rest :=
      finishDouble_spelled value pos
    rw [List.nil_append]
    cases rest with
    | nil => exact here
    | cons c more =>
      obtain ⟨-, -, lower, upper⟩ := stops.not_number
      split
      · next same => exact absurd (List.cons.inj same).1 lower
      · next same => exact absurd (List.cons.inj same).1 upper
      · exact here
  · have read := readExponent_spelled signs plain some_ stops.endsDigits value pos
    simp only [List.mem_cons, List.not_mem_nil, or_false] at mem
    rw [List.cons_append, List.append_assoc]
    rcases mem with rfl | rfl <;> exact read

theorem endsDigits_exponent (isExponent : IsExponent exponent) (stops : Stops rest) :
    EndsDigits (exponent ++ rest) := by
  rcases isExponent with rfl | ⟨letter, mem, sign, -, digits, -, -, rfl⟩
  · exact stops.endsDigits
  · rintro c more same
    obtain ⟨rfl, -⟩ := List.cons.inj same
    simp only [List.mem_cons, List.not_mem_nil, or_false] at mem
    rcases mem with rfl | rfl <;> decide

theorem readFraction_spelled (plain : IsDigits digits) (some_ : digits ≠ [])
    (isExponent : IsExponent exponent) (stops : Stops rest)
    (value : scientific? negative (takeDigits significand digits).1
      (power - ((digits.length - (takeDigits significand digits).2.length : Nat) : Int)) exponent = some x)
    (pos : Nat) : Gives (readFraction negative significand power
      ⟨'.' :: (digits ++ (exponent ++ rest)), pos⟩) (.float x) rest := by
  unfold readFraction
  rw [advance_one]
  dsimp only
  rw [digitsAhead_digits plain (endsDigits_exponent isExponent stops), advance_append,
    if_neg (by simpa using some_)]
  exact readTail_spelled isExponent stops value _

/-- What is read of a number behind its whole part. -/
def afterWhole (negative : Bool) (first : Char) (value : Nat) (left : List Char) (end_ : Cursor) :
    Except Fault (Json × Cursor) :=
  match end_.rest with
  | '.' :: _ => readFraction negative value left.length end_
  | 'e' :: _ | 'E' :: _ => readExponent negative value left.length end_
  | e :: _ =>
    if first = '0' && isAsciiDigit e then end_.faultAhead .invalidNumber
    else readNumber.plain negative value left end_
  | [] => readNumber.plain negative value left end_

theorem readNumber_digit {c : Cursor} {d : Char} {more : List Char} (begins : c.rest = d :: more)
    (digit : isAsciiDigit d = true) :
    let whole := if d = '0' then ['0'] else digitsAhead c
    readNumber negative c = afterWhole negative d (takeDigits 0 whole).1 (takeDigits 0 whole).2
      (c.advance whole.length) := by
  unfold readNumber
  simp only [begins]
  exact if_neg (by rw [digit]; decide)

theorem plain_spelled {first : Char} {value : Nat} {left : List Char} {j : Json}
    (held : plain? negative value left = some j) (stops : Stops rest) (pos : Nat) :
    Gives (afterWhole negative first value left ⟨rest, pos⟩) j rest := by
  have read : Gives (readNumber.plain negative value left ⟨rest, pos⟩) j rest :=
    ⟨pos, readPlain_eq_ok_iff.2 ⟨rfl, held⟩⟩
  unfold afterWhole
  cases rest with
  | nil => exact read
  | cons c more =>
    obtain ⟨digit, point, lower, upper⟩ := stops.not_number
    dsimp only
    split
    · next same => exact absurd (List.cons.inj same).1 point
    · next same => exact absurd (List.cons.inj same).1 lower
    · next same => exact absurd (List.cons.inj same).1 upper
    · next e _ _ _ _ same =>
      obtain ⟨rfl, -⟩ := List.cons.inj same
      rwa [digit, Bool.and_false, if_neg (by decide)]
    · exact read

theorem afterWhole_spelled {first : Char} {whole : List Char} {j : Json}
    (isFraction : IsFraction fraction) (isExponent : IsExponent exponent)
    (value : numberOf? negative whole fraction exponent = some j) (stops : Stops rest) (pos : Nat) :
    Gives (afterWhole negative first (takeDigits 0 whole).1 (takeDigits 0 whole).2
      ⟨fraction ++ (exponent ++ rest), pos⟩) j rest := by
  unfold numberOf? at value
  dsimp only at value
  generalize takeDigits 0 whole = taken at value ⊢
  obtain ⟨significand, left⟩ := taken
  rcases isFraction with rfl | ⟨places, plain, some_, rfl⟩
  · rcases isExponent with rfl | ⟨letter, mem, sign, signs, digits, plain, some_, rfl⟩
    · exact plain_spelled value stops pos
    · obtain ⟨x, double, rfl⟩ := Option.map_eq_some_iff.1 value
      have value : scientific? negative significand left.length (letter :: (sign ++ digits)) =
          some x := by simpa [takeDigits] using double
      have read := readExponent_spelled signs plain some_ stops.endsDigits value pos
      simp only [List.mem_cons, List.not_mem_nil, or_false] at mem
      rw [List.nil_append, List.cons_append, List.append_assoc]
      rcases mem with rfl | rfl <;> exact read
  · obtain ⟨x, double, rfl⟩ := Option.map_eq_some_iff.1 value
    exact readFraction_spelled plain some_ isExponent stops double pos

theorem readNumber_spelled {whole : List Char} {j : Json}
    (isWhole : IsWhole whole) (isFraction : IsFraction fraction) (isExponent : IsExponent exponent)
    (value : numberOf? negative whole fraction exponent = some j) (stops : Stops rest) (pos : Nat) :
    Gives (readNumber negative ⟨whole ++ (fraction ++ (exponent ++ rest)), pos⟩) j rest := by
  have tail : EndsDigits (fraction ++ (exponent ++ rest)) := by
    rcases isFraction with rfl | ⟨digits, -, -, rfl⟩
    · simpa using endsDigits_exponent isExponent stops
    · rintro c more same
      rw [← (List.cons.inj same).1]
      rfl
  have ahead := digitsAhead_digits isWhole.digits tail pos
  obtain ⟨d, more, rfl, digit⟩ := whole_head isWhole
  have all : (if d = '0' then ['0'] else
      digitsAhead ⟨d :: more ++ (fraction ++ (exponent ++ rest)), pos⟩) = d :: more := by
    split
    · next zero => exact (isWhole.leading (congrArg some zero)).symm
    · exact ahead
  rw [readNumber_digit rfl digit, all, advance_append]
  exact afterWhole_spelled isFraction isExponent value stops _

end Complete

section Sound

variable {negative down : Bool} {significand : Nat} {power : Int} {c d : Cursor} {j : Json}

theorem rest_takeWhile (c : Cursor) (p : Char → Bool) :
    c.rest = c.rest.takeWhile p ++ (c.advance (c.rest.takeWhile p).length).rest := by
  have taken : (c.rest.takeWhile p ++ c.rest.dropWhile p).take (c.rest.takeWhile p).length =
      c.rest.takeWhile p := List.take_left
  rw [List.takeWhile_append_dropWhile] at taken
  conv_lhs => rw [← List.take_append_drop (c.rest.takeWhile p).length c.rest, taken]
  rfl

theorem rest_digitsAhead (c : Cursor) :
    c.rest = digitsAhead c ++ (c.advance (digitsAhead c).length).rest :=
  rest_takeWhile c isAsciiDigit

theorem isDigits_digitsAhead (c : Cursor) : IsDigits (digitsAhead c) := fun _ mem =>
  List.mem_takeWhile_imp mem

theorem digitsAhead_ne_nil {e : Char} {more : List Char} (rest : c.rest = e :: more)
    (digit : isAsciiDigit e = true) : digitsAhead c ≠ [] := by
  rw [digitsAhead, rest, List.takeWhile_cons_of_pos digit]
  exact List.cons_ne_nil _ _

theorem readExponentDigits_sound
    (read : readExponentDigits negative significand power down c = .ok (j, d)) :
    ∃ digits x, IsDigits digits ∧ digits ≠ [] ∧ c.rest = digits ++ d.rest ∧
      shifted? negative significand power down digits = some x ∧ j = .float x := by
  have shape := rest_digitsAhead c
  unfold readExponentDigits at read
  dsimp only at read
  split at read
  · cases read
  · next e more rest =>
    split at read
    · cases read
    · next digit =>
      have some_ := digitsAhead_ne_nil rest (by simpa using digit)
      refine ⟨digitsAhead c, ?_⟩
      unfold shifted?
      dsimp only
      split at read
      · next small =>
        obtain ⟨rfl, x, value, rfl⟩ := finishDouble_eq_ok_iff.1 read
        exact ⟨x, isDigits_digitsAhead c, some_, shape, by rwa [if_pos small], rfl⟩
      · next large =>
        split at read
        · cases read
        · next fits =>
          cases read
          exact ⟨_, isDigits_digitsAhead c, some_, shape, by rw [if_neg large, if_neg fits], rfl⟩

theorem readExponent_sound {letter : Char} {more : List Char} (begins : c.rest = letter :: more)
    (read : readExponent negative significand power c = .ok (j, d)) :
    ∃ sign ∈ [[], ['+'], ['-']], ∃ digits x, IsDigits digits ∧ digits ≠ [] ∧
      c.rest = letter :: (sign ++ (digits ++ d.rest)) ∧
        scientific? negative significand power (letter :: (sign ++ digits)) = some x ∧
          j = .float x := by
  have after : (c.advance 1).rest = more := by rw [Cursor.advance, begins]; rfl
  unfold readExponent at read
  dsimp only at read
  rw [after] at read
  split at read
  · next ahead =>
    obtain ⟨digits, x, plain, some_, shape, value, rfl⟩ := readExponentDigits_sound read
    have inner : ((c.advance 1).advance 1).rest = ahead := by rw [Cursor.advance, after]; rfl
    exact ⟨['+'], by simp, digits, x, plain, some_, by rw [begins, ← shape, inner]; rfl, value, rfl⟩
  · next ahead =>
    obtain ⟨digits, x, plain, some_, shape, value, rfl⟩ := readExponentDigits_sound read
    have inner : ((c.advance 1).advance 1).rest = ahead := by rw [Cursor.advance, after]; rfl
    exact ⟨['-'], by simp, digits, x, plain, some_, by rw [begins, ← shape, inner]; rfl, value, rfl⟩
  · obtain ⟨digits, x, plain, some_, shape, value, rfl⟩ := readExponentDigits_sound read
    refine ⟨[], by simp, digits, x, plain, some_, by rw [begins, ← after, shape]; rfl, ?_, rfl⟩
    obtain ⟨e, ahead, rfl⟩ := List.exists_cons_of_ne_nil some_
    have digit : e.isDigit = true := plain e List.mem_cons_self
    simpa [scientific?, digit_ne digit (x := '+') rfl, digit_ne digit (x := '-') rfl] using value

theorem isExponent_letter {letter : Char} {sign digits : List Char}
    (known : letter ∈ ['e', 'E']) (signs : sign ∈ [[], ['+'], ['-']]) (plain : IsDigits digits)
    (some_ : digits ≠ []) : IsExponent (letter :: (sign ++ digits)) :=
  .inr ⟨letter, known, sign, signs, digits, plain, some_, rfl⟩

theorem readTail_sound (read : readTail negative significand power c = .ok (j, d)) :
    ∃ exponent x, IsExponent exponent ∧ c.rest = exponent ++ d.rest ∧
      scientific? negative significand power exponent = some x ∧ j = .float x := by
  have letter : ∀ {letter more}, c.rest = letter :: more → letter ∈ ['e', 'E'] →
      readExponent negative significand power c = .ok (j, d) → ∃ exponent x, IsExponent exponent ∧
        c.rest = exponent ++ d.rest ∧ scientific? negative significand power exponent = some x ∧
          j = .float x := by
    intro letter more begins known read
    obtain ⟨sign, signs, digits, x, plain, some_, shape, value, rfl⟩ :=
      readExponent_sound begins read
    exact ⟨_, x, isExponent_letter known signs plain some_, by simpa using shape, value, rfl⟩
  unfold readTail at read
  split at read
  · next begins => exact letter begins (by simp) read
  · next begins => exact letter begins (by simp) read
  · obtain ⟨rfl, x, value, rfl⟩ := finishDouble_eq_ok_iff.1 read
    exact ⟨[], x, .inl rfl, rfl, value, rfl⟩

theorem readFraction_sound {more : List Char} (begins : c.rest = '.' :: more)
    (read : readFraction negative significand power c = .ok (j, d)) :
    ∃ digits exponent x, IsDigits digits ∧ digits ≠ [] ∧ IsExponent exponent ∧
      c.rest = '.' :: (digits ++ (exponent ++ d.rest)) ∧
        scientific? negative (takeDigits significand digits).1
          (power - ((digits.length - (takeDigits significand digits).2.length : Nat) : Int))
          exponent = some x ∧ j = .float x := by
  have after : (c.advance 1).rest = more := by rw [Cursor.advance, begins]; rfl
  have places := rest_digitsAhead (c.advance 1)
  unfold readFraction at read
  dsimp only at read
  split at read
  · split at read <;> cases read
  · next some_ =>
    obtain ⟨exponent, x, isExponent, shape, value, rfl⟩ := readTail_sound read
    refine ⟨_, exponent, x, isDigits_digitsAhead _, by simpa using some_, isExponent, ?_, value, rfl⟩
    rw [begins, ← shape, ← places, after]

theorem isWhole_ahead {e : Char} {more : List Char} (begins : c.rest = e :: more)
    (digit : isAsciiDigit e = true) :
    IsWhole (if e = '0' then ['0'] else digitsAhead c) ∧
      c.rest = (if e = '0' then ['0'] else digitsAhead c) ++
        (c.advance (if e = '0' then ['0'] else digitsAhead c).length).rest := by
  split
  · next zero =>
    refine ⟨NumberLayout.isWhole_digit rfl, ?_⟩
    rw [Cursor.advance, begins, zero]
    rfl
  · next other =>
    refine ⟨⟨isDigits_digitsAhead c, digitsAhead_ne_nil begins digit, fun head => ?_⟩,
      rest_digitsAhead c⟩
    rw [digitsAhead, begins, List.takeWhile_cons_of_pos digit] at head
    exact absurd (Option.some.inj head) other

theorem afterWhole_sound {first : Char} {whole : List Char}
    (read : afterWhole negative first (takeDigits 0 whole).1 (takeDigits 0 whole).2 c = .ok (j, d)) :
    ∃ fraction exponent, IsFraction fraction ∧ IsExponent exponent ∧
      c.rest = fraction ++ (exponent ++ d.rest) ∧
        numberOf? negative whole fraction exponent = some j := by
  rcases taken : takeDigits 0 whole with ⟨value, left⟩
  rw [taken] at read
  have letter : ∀ {letter later}, c.rest = letter :: later → letter ∈ ['e', 'E'] →
      readExponent negative value left.length c = .ok (j, d) →
      ∃ exponent, IsExponent exponent ∧ c.rest = exponent ++ d.rest ∧
        numberOf? negative whole [] exponent = some j := by
    intro letter later begins known read
    obtain ⟨sign, signs, digits, x, plain, some_, rest, double, rfl⟩ := readExponent_sound begins read
    exact ⟨_, isExponent_letter known signs plain some_, by rw [rest]; simp,
      by simp [numberOf?, taken, takeDigits, double]⟩
  have alone : readNumber.plain negative value left c = .ok (j, d) →
      c.rest = d.rest ∧ numberOf? negative whole [] [] = some j := by
    intro read
    obtain ⟨rfl, held⟩ := readPlain_eq_ok_iff.1 read
    exact ⟨rfl, by simp [numberOf?, taken, held]⟩
  unfold afterWhole at read
  split at read
  · next point =>
    obtain ⟨digits, exponent, x, plain, some_, isExponent, rest, double, rfl⟩ :=
      readFraction_sound point read
    exact ⟨_, exponent, .inr ⟨digits, plain, some_, rfl⟩, isExponent, by rw [rest]; simp,
      by simp [numberOf?, taken, double]⟩
  · next begins =>
    obtain ⟨exponent, isExponent, rest, value⟩ := letter begins (by simp) read
    exact ⟨[], exponent, .inl rfl, isExponent, rest, value⟩
  · next begins =>
    obtain ⟨exponent, isExponent, rest, value⟩ := letter begins (by simp) read
    exact ⟨[], exponent, .inl rfl, isExponent, rest, value⟩
  · split at read
    · cases read
    · exact ⟨[], [], .inl rfl, .inl rfl, alone read⟩
  · exact ⟨[], [], .inl rfl, .inl rfl, alone read⟩

theorem readNumber_sound (read : readNumber negative c = .ok (j, d)) :
    ∃ whole fraction exponent, IsWhole whole ∧ IsFraction fraction ∧ IsExponent exponent ∧
      c.rest = whole ++ (fraction ++ (exponent ++ d.rest)) ∧
        numberOf? negative whole fraction exponent = some j := by
  rcases begins : c.rest with - | ⟨e, more⟩
  · simp [readNumber, begins, Cursor.fault] at read
  · cases digit : isAsciiDigit e with
    | false => simp [readNumber, begins, digit] at read
    | true =>
      obtain ⟨isWhole, shape⟩ := isWhole_ahead begins digit
      rw [readNumber_digit begins digit] at read
      obtain ⟨fraction, exponent, isFraction, isExponent, rest, value⟩ := afterWhole_sound read
      exact ⟨_, fraction, exponent, isWhole, isFraction, isExponent,
        by rw [← begins, shape, rest], value⟩

end Sound

theorem takeDigits_small {ds : List Char} {value : Nat}
    (small : Nat.ofDigitChars 10 ds value < wordLimit) :
    takeDigits value ds = (Nat.ofDigitChars 10 ds value, []) := by
  induction ds generalizing value with
  | nil => rfl
  | cons d ds ih =>
    have next : 10 * value + (d.toNat - '0'.toNat) = value * 10 + (d.toNat - 48) := by
      rw [Nat.mul_comm]
      rfl
    rw [Nat.ofDigitChars_cons, next] at small ⊢
    have grows : value * 10 + (d.toNat - 48) ≤
        Nat.ofDigitChars 10 ds (value * 10 + (d.toNat - 48)) := by
      rw [Nat.ofDigitChars_eq_ofDigitChars_zero]
      exact Nat.le_add_right_of_le (Nat.le_mul_of_pos_left _ (Nat.pow_pos (by norm_num)))
    rw [takeDigits, if_pos (Nat.lt_of_le_of_lt grows small), ih small]

theorem numberOf?_toDigits {negative : Bool} {n : Nat} {i : Int} (small : n < 2 ^ 64)
    (held : wholeNumber? negative n = some i) :
    numberOf? negative (Nat.toDigits 10 n) [] [] = some (.int i) := by
  have value := Nat.ofDigitChars_ten_toDigits (n := n)
  rw [numberOf?, takeDigits_small (by rw [value]; exact small), value]
  simp [plain?, held]

theorem wholeNumber?_minus {n : Nat} (small : n < 2 ^ 63) :
    wholeNumber? true (n + 1) = some (.negSucc n) := by
  have least : ¬ (n + 1 = 0 ∨ Nat.pow 2 63 < n + 1) := by
    have power : Nat.pow 2 63 = 2 ^ 63 := rfl
    omega
  rw [wholeNumber?, Bool.not_true, if_neg (by decide), if_neg least]
  rfl

theorem readNatural_spelled {n : Nat} (small : n < 2 ^ 64) {rest : List Char} (stops : Stops rest)
    (pos : Nat) : Gives (readNumber false ⟨Nat.toDigits 10 n ++ rest, pos⟩) (.int n) rest :=
  readNumber_spelled (NumberLayout.isWhole_toDigits n) (.inl rfl) (.inl rfl)
    (numberOf?_toDigits small rfl) stops pos

theorem HoldsNumber.natural {n : Nat} (small : n < 2 ^ 64) :
    HoldsNumber (.int n) (Nat.toDigits 10 n) := by
  have parts : HoldsNumber (.int n) (signed false (Nat.toDigits 10 n ++ ([] ++ []))) :=
    .parts (NumberLayout.isWhole_toDigits n) (.inl rfl) (.inl rfl) (numberOf?_toDigits small rfl)
  simpa [signed] using parts

theorem HoldsNumber.negative {n : Nat} (small : n < 2 ^ 63) :
    HoldsNumber (.int (.negSucc n)) ('-' :: Nat.toDigits 10 (n + 1)) := by
  have parts := HoldsNumber.parts (NumberLayout.isWhole_toDigits (n + 1)) (.inl rfl)
    (.inl rfl) (numberOf?_toDigits (by omega) (wholeNumber?_minus small))
  simpa [signed] using parts

end Playground.Json
