import Playground.Proofs.Json.Reading

/-! What is read is a text of the grammar, so that reading and spelling agree
(`parseTree_eq_ok_iff`). -/

namespace Playground.Json

open NumberLayout (IsDigits IsNumber)

theorem ok_of_bind {α β ε : Type} {x : Except ε α} {f : α → Except ε β} {b : β}
    (done : (x >>= f) = .ok b) : ∃ a, x = .ok a ∧ f a = .ok b := by
  cases x with
  | error e => cases done
  | ok a => exact ⟨a, rfl, done⟩

theorem ok_of_map {α β ε : Type} {x : Except ε α} {f : α → β} {b : β}
    (done : x.map f = .ok b) : ∃ a, x = .ok a ∧ f a = b := by
  cases x with
  | error e => cases done
  | ok a =>
    cases done
    exact ⟨a, rfl, rfl⟩

section Strings

variable {c d : Cursor}

theorem rest_advance_one {x : Char} {more : List Char} (begins : c.rest = x :: more) :
    (c.advance 1).rest = more := by
  rw [Cursor.advance, begins]
  rfl

theorem skipBlanks_sound (c : Cursor) : ∃ bs, AreBlank bs ∧ c.rest = bs ++ (skipBlanks c).rest :=
  ⟨c.rest.takeWhile isJsonBlank, fun _ mem => List.mem_takeWhile_imp mem,
    rest_takeWhile c isJsonBlank⟩

theorem readWord_sound {word : List Char} (read : readWord c word = .ok d) :
    c.rest = word ++ d.rest := by
  induction word generalizing c with
  | nil =>
    cases read
    rfl
  | cons x word ih =>
    rw [readWord] at read
    split at read
    · cases read
    · next y more begins =>
      split at read
      · next same =>
        rw [begins, same, List.cons_append, ← ih read, rest_advance_one begins]
      · cases read

theorem readUnit_sound {n : Nat} (read : readUnit c = .ok (n, d)) :
    ∃ digits, hexUnit? digits = some n ∧ c.rest = digits ++ d.rest := by
  unfold readUnit at read
  split at read
  · next unit =>
    cases read
    exact ⟨_, unit, (List.take_append_drop 4 c.rest).symm⟩
  · split at read <;> cases read

theorem hexValue_lt (x : Char) : hexValue x < 16 := by
  unfold hexValue
  split
  · next digit =>
    simp only [isAsciiDigit, Bool.and_eq_true, decide_eq_true_eq, Char.le_def, UInt32.le_iff_toNat_le] at digit
    have top : ('9' : Char).val.toNat = 57 := rfl
    have same : x.toNat = x.val.toNat := rfl
    omega
  · split
    · next letter =>
      simp only [Bool.and_eq_true, decide_eq_true_eq, Char.le_def, UInt32.le_iff_toNat_le] at letter
      have top : ('f' : Char).val.toNat = 102 := rfl
      have same : x.toNat = x.val.toNat := rfl
      omega
    · split
      · next letter =>
        simp only [Bool.and_eq_true, decide_eq_true_eq, Char.le_def, UInt32.le_iff_toNat_le] at letter
        have top : ('F' : Char).val.toNat = 70 := rfl
        have same : x.toNat = x.val.toNat := rfl
        omega
      · decide

theorem hexUnit_lt {digits : List Char} {n : Nat} (unit : hexUnit? digits = some n) : n < 0x10000 := by
  unfold hexUnit? at unit
  split at unit
  · next a b c d =>
    split at unit
    · cases unit
      have := hexValue_lt a
      have := hexValue_lt b
      have := hexValue_lt c
      have := hexValue_lt d
      omega
    · cases unit
  · cases unit

theorem toNat_unit {n : Nat} (small : n < 0x10000) (low : ¬ isLowSurrogate n = true)
    (high : ¬ isHighSurrogate n = true) : (Char.ofNat n).toNat = n := by
  simp only [isLowSurrogate, isHighSurrogate, Bool.and_eq_true, decide_eq_true_eq] at low high
  have valid : n.isValidChar := by
    unfold Nat.isValidChar
    omega
  rw [Char.toNat_ofNat, if_pos valid]

theorem readLowSurrogate_sound {first : List Char} {high : Nat} {x : Char}
    (upper : hexUnit? first = some high) (isHigh : isHighSurrogate high = true)
    (read : readLowSurrogate high c = .ok (x, d)) :
    ∃ front, c.rest = front ++ d.rest ∧ ∀ {cs text}, SpellsString cs text →
      SpellsString (x :: cs) ('\\' :: 'u' :: (first ++ (front ++ text))) := by
  unfold readLowSurrogate at read
  split at read
  · cases read
  · cases read
  · next more begins =>
    obtain ⟨⟨low, after⟩, unit, read⟩ := ok_of_bind read
    obtain ⟨second, lower, shape⟩ := readUnit_sound unit
    dsimp only at read
    split at read
    · next isLow =>
      obtain ⟨rfl, rfl⟩ := Prod.mk.inj (Except.ok.inj read)
      refine ⟨'\\' :: 'u' :: second, ?_, fun more => .pair upper lower isHigh isLow more⟩
      rw [begins, List.cons_append, List.cons_append, ← shape, Cursor.advance, begins]
      rfl
    · cases read
  · cases read
  · cases read

theorem readEscape_sound {x : Char} (read : readEscape c = .ok (x, d)) :
    ∃ front, c.rest = front ++ d.rest ∧ ∀ {cs text}, SpellsString cs text →
      SpellsString (x :: cs) ('\\' :: (front ++ text)) := by
  unfold readEscape at read
  split at read
  · cases read
  next y more begins =>
  have short : ∀ letter e, y = letter → (letter, e) ∈ shortEscapes →
      (Except.ok (e, c.advance 1) : Except Fault (Char × Cursor)) = .ok (x, d) →
      ∃ front, c.rest = front ++ d.rest ∧ ∀ {cs text}, SpellsString cs text →
        SpellsString (x :: cs) ('\\' :: (front ++ text)) := by
    rintro letter e rfl known same
    cases same
    exact ⟨[y], by rw [begins, rest_advance_one begins]; rfl, fun more => .short known more⟩
  dsimp only at read
  split at read
  · next itself =>
    simp only [Bool.or_eq_true, decide_eq_true_eq] at itself
    refine short y y rfl ?_ read
    rcases itself with (rfl | rfl) | rfl <;> simp [shortEscapes]
  split at read
  · next same => exact short 'b' _ same (by simp [shortEscapes]) read
  split at read
  · next same => exact short 'f' _ same (by simp [shortEscapes]) read
  split at read
  · next same => exact short 'n' _ same (by simp [shortEscapes]) read
  split at read
  · next same => exact short 'r' _ same (by simp [shortEscapes]) read
  split at read
  · next same => exact short 't' _ same (by simp [shortEscapes]) read
  split at read
  · next same =>
    obtain ⟨⟨n, later⟩, unit, read⟩ := ok_of_bind read
    obtain ⟨digits, upper, shape⟩ := readUnit_sound unit
    rw [rest_advance_one begins] at shape
    dsimp only at read
    split at read
    · cases read
    next low =>
    split at read
    · next isHigh =>
      obtain ⟨front, after, spells⟩ := readLowSurrogate_sound upper isHigh read
      refine ⟨'u' :: (digits ++ front), by rw [begins, same, shape, after]; simp, fun more => ?_⟩
      simpa using spells more
    · next high =>
      cases read
      refine ⟨'u' :: digits, by rw [begins, same, shape]; rfl, fun more => .unit ?_ more⟩
      rw [upper, toNat_unit (hexUnit_lt upper) low high]
  · cases read

theorem readString_sound {fuel : Nat} {cs : List Char} (read : readString fuel c = .ok (cs, d)) :
    ∃ text, SpellsString cs text ∧ c.rest = text ++ d.rest := by
  induction fuel generalizing c cs with
  | zero => cases read
  | succ fuel ih =>
    rw [readString] at read
    split at read
    · cases read
    next x more begins =>
    have after := rest_advance_one begins
    dsimp only at read
    split at read
    · next quote =>
      cases read
      exact ⟨['"'], .stop, by rw [begins, quote, after]; rfl⟩
    next quote =>
    split at read
    · next slash =>
      obtain ⟨⟨e, later⟩, escape, read⟩ := ok_of_bind read
      obtain ⟨⟨others, last⟩, string, read⟩ := ok_of_bind read
      cases read
      obtain ⟨front, shape, spells⟩ := readEscape_sound escape
      obtain ⟨text, spelled, shape'⟩ := ih string
      exact ⟨_, spells spelled, by rw [begins, slash, ← after, shape, shape']; simp⟩
    next slash =>
    split at read
    · cases read
    next visible =>
    obtain ⟨⟨others, last⟩, string, read⟩ := ok_of_bind read
    cases read
    obtain ⟨text, spelled, shape⟩ := ih string
    exact ⟨_, .plain ⟨Nat.le_of_not_lt visible, quote, slash⟩ spelled, by rw [begins, ← after, shape]; rfl⟩

theorem readLiteral_sound {s : String} {more : List Char} (begins : c.rest = '"' :: more)
    (read : readLiteral c = .ok (s, d)) :
    ∃ text, SpellsString s.toList text ∧ c.rest = '"' :: (text ++ d.rest) := by
  obtain ⟨⟨cs, last⟩, string, read⟩ := ok_of_bind read
  cases read
  obtain ⟨text, spelled, shape⟩ := readString_sound string
  rw [rest_advance_one begins] at shape
  exact ⟨text, by rwa [String.toList_ofList], by rw [begins, shape]⟩

end Strings

section Values

variable {c d : Cursor} {j : Json}

theorem plain?_nesting {negative : Bool} {value : Nat} {left : List Char}
    (held : plain? negative value left = some j) : j.nesting = 0 := by
  unfold plain? at held
  split at held
  · cases held
    rfl
  · obtain ⟨x, -, rfl⟩ := Option.map_eq_some_iff.1 held
    rfl

theorem HoldsNumber.nesting {cs : List Char} (held : HoldsNumber j cs) : j.nesting = 0 := by
  cases held with
  | parts _ _ _ value =>
    unfold numberOf? at value
    dsimp only at value
    split at value
    · exact plain?_nesting value
    · obtain ⟨x, -, rfl⟩ := Option.map_eq_some_iff.1 value
      rfl

theorem holds_number {negative : Bool} (read : readNumber negative c = .ok (j, d)) :
    ∃ cs, IsNumber (signed negative cs) ∧ HoldsNumber j (signed negative cs) ∧
      c.rest = cs ++ d.rest := by
  obtain ⟨whole, fraction, exponent, isWhole, isFraction, isExponent, shape, value⟩ :=
    readNumber_sound read
  have unsigned : NumberLayout.IsUnsigned (whole ++ (fraction ++ exponent)) :=
    ⟨whole, fraction, exponent, isWhole, isFraction, isExponent, rfl⟩
  refine ⟨whole ++ (fraction ++ exponent), ?_, .parts isWhole isFraction isExponent value, by simp [shape]⟩
  cases negative with
  | false => exact .inl unsigned
  | true => exact .inr ⟨_, unsigned, rfl⟩

theorem readAtom_sound {x : Char} {more : List Char} (begins : c.rest = x :: more)
    (read : readAtom x c = .ok (j, d)) :
    ∃ cs, Holds (.value j) cs ∧ c.rest = cs ++ d.rest ∧ j.nesting = 0 := by
  have after := rest_advance_one begins
  have word : ∀ {letters e}, readWord (c.advance 1) letters = .ok e →
      c.rest = (x :: letters) ++ e.rest := fun read => by
    rw [begins, List.cons_append, ← readWord_sound read, after]
  unfold readAtom at read
  dsimp only at read
  split at read
  · next same =>
    obtain ⟨e, letters, made⟩ := ok_of_map read
    cases made
    exact ⟨_, .null, by rw [word letters, same]; rfl, rfl⟩
  split at read
  · next same =>
    obtain ⟨e, letters, made⟩ := ok_of_map read
    cases made
    exact ⟨_, .yes, by rw [word letters, same]; rfl, rfl⟩
  split at read
  · next same =>
    obtain ⟨e, letters, made⟩ := ok_of_map read
    cases made
    exact ⟨_, .no, by rw [word letters, same]; rfl, rfl⟩
  split at read
  · next same =>
    obtain ⟨cs, number, held, shape⟩ := holds_number read
    exact ⟨_, .number number held, by rw [begins, same, ← after, shape]; rfl, held.nesting⟩
  split at read
  · obtain ⟨cs, number, held, shape⟩ := holds_number read
    exact ⟨_, .number number held, shape, held.nesting⟩
  split at read
  · next same =>
    obtain ⟨⟨s, e⟩, literal, made⟩ := ok_of_map read
    cases made
    rw [same] at begins
    obtain ⟨text, spelled, shape⟩ := readLiteral_sound begins literal
    exact ⟨_, .str s spelled, shape, rfl⟩
  · cases read

def EndsItem (c : Cursor) : After → Prop
  | .stop d => ∃ bs, AreBlank bs ∧ c.rest = bs ++ ']' :: d.rest
  | .more d => ∃ bs bs', AreBlank bs ∧ AreBlank bs' ∧ c.rest = bs ++ ',' :: (bs' ++ d.rest)

theorem afterItem_sound {a : After} (read : afterItem c = .ok a) : EndsItem c a := by
  obtain ⟨bs, blank, shape⟩ := skipBlanks_sound c
  unfold afterItem at read
  dsimp only at read
  split at read
  · cases read
  · next begins =>
    cases read
    exact ⟨bs, blank, by rw [shape, begins, rest_advance_one begins]⟩
  · next begins =>
    obtain ⟨bs', blank', shape'⟩ := skipBlanks_sound ((skipBlanks c).advance 1)
    rw [rest_advance_one begins] at shape'
    split at read
    · cases read
    · cases read
    · cases read
      exact ⟨bs, bs', blank, blank', by rw [shape, begins, shape']⟩
  · cases read

def BeginsItem (c : Cursor) : After → Prop
  | .stop d => ∃ bs, AreBlank bs ∧ c.rest = bs ++ ']' :: d.rest
  | .more d => ∃ bs, AreBlank bs ∧ c.rest = bs ++ d.rest

theorem beforeItem_sound {a : After} (read : beforeItem c = .ok a) : BeginsItem c a := by
  obtain ⟨bs, blank, shape⟩ := skipBlanks_sound c
  unfold beforeItem at read
  dsimp only at read
  split at read
  · cases read
  · next begins =>
    cases read
    exact ⟨bs, blank, by rw [shape, begins, rest_advance_one begins]⟩
  · cases read
    exact ⟨bs, blank, shape⟩

def EndsField (c : Cursor) : After → Prop
  | .stop d => ∃ bs, AreBlank bs ∧ c.rest = bs ++ '\x7d' :: d.rest
  | .more d => (∃ key, d.rest = '"' :: key) ∧
    ∃ bs bs', AreBlank bs ∧ AreBlank bs' ∧ c.rest = bs ++ ',' :: (bs' ++ d.rest)

theorem afterField_sound {a : After} (read : afterField c = .ok a) : EndsField c a := by
  obtain ⟨bs, blank, shape⟩ := skipBlanks_sound c
  unfold afterField at read
  dsimp only at read
  split at read
  · cases read
  · next begins =>
    cases read
    exact ⟨bs, blank, by rw [shape, begins, rest_advance_one begins]⟩
  · next begins =>
    obtain ⟨bs', blank', shape'⟩ := skipBlanks_sound ((skipBlanks c).advance 1)
    rw [rest_advance_one begins] at shape'
    split at read
    · cases read
    · cases read
    · next key =>
      cases read
      exact ⟨⟨_, key⟩, bs, bs', blank, blank', by rw [shape, begins, shape']⟩
    · cases read
  · cases read

def BeginsField (c : Cursor) : After → Prop
  | .stop d => ∃ bs, AreBlank bs ∧ c.rest = bs ++ '\x7d' :: d.rest
  | .more d => (∃ key, d.rest = '"' :: key) ∧ ∃ bs, AreBlank bs ∧ c.rest = bs ++ d.rest

theorem beforeField_sound {a : After} (read : beforeField c = .ok a) : BeginsField c a := by
  obtain ⟨bs, blank, shape⟩ := skipBlanks_sound c
  unfold beforeField at read
  dsimp only at read
  split at read
  · cases read
  · next begins =>
    cases read
    exact ⟨bs, blank, by rw [shape, begins, rest_advance_one begins]⟩
  · next key =>
    cases read
    exact ⟨⟨_, key⟩, bs, blank, shape⟩
  · cases read

theorem readColon_sound (read : readColon c = .ok d) :
    ∃ bs, AreBlank bs ∧ c.rest = bs ++ ':' :: d.rest := by
  obtain ⟨bs, blank, shape⟩ := skipBlanks_sound c
  unfold readColon at read
  dsimp only at read
  split at read
  · cases read
  · next begins =>
    cases read
    exact ⟨bs, blank, by rw [shape, begins, rest_advance_one begins]⟩
  · cases read

theorem AreBlank.append {bs bs' : List Char} (blank : AreBlank bs) (blank' : AreBlank bs') :
    AreBlank (bs ++ bs') := List.forall_mem_append.2 ⟨blank, blank'⟩

/-- What the readers have passed over when they stop at `d`. -/
structure Sound (fuel : Nat) : Prop where
  value : ∀ {depth c d j}, readValue fuel depth c = .ok (j, d) → ∃ bs cs, AreBlank bs ∧
    Holds (.value j) cs ∧ c.rest = bs ++ (cs ++ d.rest) ∧ j.nesting ≤ depth - 1
  items : ∀ {depth c d js}, readItems fuel depth c = .ok (js, d) → ∃ bs cs, AreBlank bs ∧
    Holds (.items js) cs ∧ c.rest = bs ++ (cs ++ d.rest) ∧ nestingItems js ≤ depth - 1
  fields : ∀ {depth c d fs more}, c.rest = '"' :: more → readFields fuel depth c = .ok (fs, d) →
    ∃ cs, Holds (.fields fs) cs ∧ c.rest = cs ++ d.rest ∧ nestingFields fs ≤ depth - 1

theorem readList_sound {fuel depth : Nat} (inner : Sound fuel) {more : List Char} (room : 1 < depth)
    (begins : c.rest = '[' :: more)
    (read : (match beforeItem (c.advance 1) with
      | .error fault => .error fault
      | .ok (.stop after) => .ok (.arr [], after)
      | .ok (.more after) =>
        (readItems fuel (depth - 1) after).map fun (items, c) => (.arr items, c) :
      Except Fault (Json × Cursor)) = .ok (j, d)) :
    ∃ cs, Holds (.value j) cs ∧ c.rest = cs ++ d.rest ∧ j.nesting ≤ depth - 1 := by
  have after := rest_advance_one begins
  split at read
  · cases read
  · next first =>
    cases read
    obtain ⟨bs, blank, shape⟩ := beforeItem_sound first
    refine ⟨_, .noItems blank, by rw [begins, ← after, shape]; simp, ?_⟩
    rw [nesting, nestingItems]
    omega
  · next first =>
    obtain ⟨⟨js, e⟩, items, made⟩ := ok_of_map read
    cases made
    obtain ⟨bs, blank, shape⟩ := beforeItem_sound first
    obtain ⟨bs', cs, blank', held, shape', deep⟩ := inner.items items
    refine ⟨_, .arr (blank.append blank') held, by rw [begins, ← after, shape, shape']; simp, ?_⟩
    rw [nesting]
    omega

theorem readObject_sound {fuel depth : Nat} (inner : Sound fuel) {more : List Char}
    (room : 1 < depth) (begins : c.rest = '\x7b' :: more)
    (read : (match beforeField (c.advance 1) with
      | .error fault => .error fault
      | .ok (.stop after) => .ok (.obj [], after)
      | .ok (.more after) =>
        (readFields fuel (depth - 1) after).map fun (fields, c) => (.obj fields, c) :
      Except Fault (Json × Cursor)) = .ok (j, d)) :
    ∃ cs, Holds (.value j) cs ∧ c.rest = cs ++ d.rest ∧ j.nesting ≤ depth - 1 := by
  have after := rest_advance_one begins
  split at read
  · cases read
  · next first =>
    cases read
    obtain ⟨bs, blank, shape⟩ := beforeField_sound first
    refine ⟨_, .noFields blank, by rw [begins, ← after, shape]; simp, ?_⟩
    rw [nesting, nestingFields]
    omega
  · next first =>
    obtain ⟨⟨fs, e⟩, fields, made⟩ := ok_of_map read
    cases made
    obtain ⟨⟨key, quote⟩, bs, blank, shape⟩ := beforeField_sound first
    obtain ⟨cs, held, shape', deep⟩ := inner.fields quote fields
    refine ⟨_, .obj blank held, by rw [begins, ← after, shape, shape']; simp, ?_⟩
    rw [nesting]
    omega

theorem readValue_sound {fuel depth : Nat} (inner : Sound fuel)
    (read : readValue (fuel + 1) depth c = .ok (j, d)) : ∃ bs cs, AreBlank bs ∧
      Holds (.value j) cs ∧ c.rest = bs ++ (cs ++ d.rest) ∧ j.nesting ≤ depth - 1 := by
  obtain ⟨bs, blank, shape⟩ := skipBlanks_sound c
  rw [readValue] at read
  dsimp only at read
  refine ⟨bs, ?_⟩
  suffices ∃ cs, Holds (.value j) cs ∧ (skipBlanks c).rest = cs ++ d.rest ∧ j.nesting ≤ depth - 1 by
    obtain ⟨cs, held, rest, deep⟩ := this
    exact ⟨cs, blank, held, by rw [shape, rest], deep⟩
  split at read
  · cases read
  next x more begins =>
  split at read
  · next bracket =>
    split at read
    · cases read
    · next room => exact readList_sound inner (by omega) (bracket ▸ begins) read
  split at read
  · next bracket =>
    split at read
    · cases read
    · next room => exact readObject_sound inner (by omega) (bracket ▸ begins) read
  · obtain ⟨cs, held, rest, flat⟩ := readAtom_sound begins read
    exact ⟨cs, held, rest, by omega⟩

theorem readItems_sound {fuel depth : Nat} (inner : Sound fuel) {js : List Json}
    (read : readItems (fuel + 1) depth c = .ok (js, d)) : ∃ bs cs, AreBlank bs ∧
      Holds (.items js) cs ∧ c.rest = bs ++ (cs ++ d.rest) ∧ nestingItems js ≤ depth - 1 := by
  rw [readItems] at read
  split at read
  · cases read
  next item after value =>
  obtain ⟨bs, cs, blank, first, shape, deep⟩ := inner.value value
  refine ⟨bs, ?_⟩
  split at read
  · cases read
  · next ends =>
    cases read
    obtain ⟨bs', blank', shape'⟩ := afterItem_sound ends
    refine ⟨_, blank, .items first (.lastItem blank'), by rw [shape, shape']; simp, ?_⟩
    simpa [nestingItems] using deep
  · next later next =>
    obtain ⟨⟨items, e⟩, read, made⟩ := ok_of_map read
    cases made
    obtain ⟨as, as', blank', blank'', shape'⟩ := afterItem_sound next
    obtain ⟨bs', ds, blank_, rest, shape'', deep'⟩ := inner.items read
    refine ⟨_, blank, .items first (.nextItem blank' (blank''.append blank_) rest),
      by rw [shape, shape', shape'']; simp, ?_⟩
    rw [nestingItems]
    omega

theorem readFields_sound {fuel depth : Nat} (inner : Sound fuel) {fs : List (String × Json)}
    {more : List Char} (begins : c.rest = '"' :: more)
    (read : readFields (fuel + 1) depth c = .ok (fs, d)) :
    ∃ cs, Holds (.fields fs) cs ∧ c.rest = cs ++ d.rest ∧ nestingFields fs ≤ depth - 1 := by
  rw [readFields] at read
  split at read
  · cases read
  next key after literal =>
  obtain ⟨ks, spelled, shape⟩ := readLiteral_sound begins literal
  split at read
  · cases read
  next start colon =>
  obtain ⟨bs, blank, shape'⟩ := readColon_sound colon
  split at read
  · cases read
  next value rest valued =>
  obtain ⟨bs', vs, blank', held, shape'', deep⟩ := inner.value valued
  split at read
  · cases read
  · next ends =>
    cases read
    obtain ⟨as, ends, last⟩ := afterField_sound ends
    refine ⟨_, .fields spelled blank blank' held (.lastField ends),
      by rw [shape, shape', shape'', last]; simp, ?_⟩
    simpa [nestingFields] using deep
  · next later next =>
    obtain ⟨⟨fields, e⟩, read, made⟩ := ok_of_map read
    cases made
    obtain ⟨⟨_, quote⟩, as, as', ends, ends', last⟩ := afterField_sound next
    obtain ⟨cs, others, shape_, deep'⟩ := inner.fields quote read
    refine ⟨_, .fields spelled blank blank' held (.nextField ends ends' others),
      by rw [shape, shape', shape'', last, shape_]; simp, ?_⟩
    rw [nestingFields]
    omega

theorem sound (fuel : Nat) : Sound fuel := by
  induction fuel with
  | zero =>
    constructor
    · intro depth c d j read
      cases read
    · intro depth c d js read
      cases read
    · intro depth c d fs more _ read
      cases read
  | succ fuel ih => exact ⟨readValue_sound ih, readItems_sound ih, readFields_sound ih⟩

/-- The text is one of the value, blanks around it aside, and does not nest too deep. -/
def IsTextOf (text : List Char) (j : Json) : Prop :=
  ∃ before cs after, text = before ++ (cs ++ after) ∧ AreBlank before ∧ AreBlank after ∧
    Holds (.value j) cs ∧ j.nesting < depthLimit

theorem readEnd_eq_ok_iff : readEnd c = .ok () ↔ AreBlank c.rest := by
  obtain ⟨bs, blank, shape⟩ := skipBlanks_sound c
  unfold readEnd
  dsimp only
  split
  · next empty =>
    rw [List.isEmpty_iff.1 empty, List.append_nil] at shape
    exact iff_of_true rfl (shape ▸ blank)
  · next some_ =>
    refine iff_of_false nofun fun blank => some_ ?_
    have all : c.rest.takeWhile isJsonBlank = c.rest := List.takeWhile_eq_self_iff.2 blank
    rw [skipBlanks, all, Cursor.advance, List.drop_length]
    rfl

theorem parseTree_eq_ok_iff {text : String} : parseTree text = .ok j ↔ IsTextOf text.toList j := by
  constructor
  · intro read
    obtain ⟨⟨value, after⟩, valued, last⟩ := ok_of_bind read
    obtain ⟨⟨⟩, ended, same⟩ := ok_of_bind last
    cases same
    obtain ⟨bs, cs, blank, held, shape, deep⟩ := (sound _).value valued
    have room : depthLimit = 128 := rfl
    exact ⟨bs, cs, after.rest, shape, blank, readEnd_eq_ok_iff.1 ended, held, by omega⟩
  · rintro ⟨before, cs, after, shape, blank, blank', held, room⟩
    have stops : Stops after := fun c more same => .inl (blank' c (by simp [same]))
    have steps : 2 * cs.length ≤ stepsFor (.ofText text) := by
      rw [stepsFor, Cursor.ofText, shape]
      simp only [List.length_append]
      omega
    obtain ⟨p, read⟩ := held.isRead _ _ steps room blank stops 0
    have here : readValue (stepsFor (.ofText text)) depthLimit (.ofText text) =
        .ok (j, ⟨after, p⟩) := by
      rw [← read, ← shape]
      rfl
    rw [parseTree]
    dsimp only
    rw [here]
    have ended : readEnd ⟨after, p⟩ = .ok () := readEnd_eq_ok_iff.2 blank'
    simp only [bind, Except.bind, ended, pure, Except.pure]

end Values

end Playground.Json
