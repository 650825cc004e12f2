import Playground.Proofs.Json.Soundness

/-! Where the strings of a JSON text stand: `Quoting` follows a text from quote to quote and
refuses what no value holds outside its strings. -/

namespace Playground.Json

inductive Quoting
  | outside
  | inside
  | escaped
  deriving DecidableEq, Repr

/-- What stands outside strings: blanks, brackets, numbers and the words of JSON. -/
def isBareChar (c : Char) : Bool :=
  isJsonBlank c || isAsciiDigit c || "\x7b\x7d[],:+-.eEnultrfas".toList.contains c

def isEscapeChar (c : Char) : Bool := "\"\\/bfnrtu".toList.contains c

namespace Quoting

def step : Quoting → Char → Option Quoting
  | outside, c => if c = '"' then some inside else if isBareChar c then some outside else none
  | inside, c => if c = '"' then some outside else if c = '\\' then some escaped else some inside
  | escaped, c => if isEscapeChar c then some inside else none

def run (q : Quoting) : List Char → Option Quoting
  | [] => some q
  | c :: cs => (q.step c).bind fun r => r.run cs

theorem run_append (q : Quoting) (a b : List Char) :
    q.run (a ++ b) = (q.run a).bind fun r => r.run b := by
  induction a generalizing q with
  | nil => rfl
  | cons c a ih =>
    rw [List.cons_append, run, run]
    cases q.step c with
    | none => rfl
    | some r => exact ih r

theorem run_bare {cs : List Char} (bare : ∀ c ∈ cs, isBareChar c = true) :
    outside.run cs = some outside := by
  induction cs with
  | nil => rfl
  | cons c cs ih =>
    have here := bare c List.mem_cons_self
    have quote : c ≠ '"' := by
      rintro rfl
      exact absurd here (by decide)
    rw [run, step, if_neg quote, if_pos here]
    exact ih fun d mem => bare d (List.mem_cons_of_mem c mem)

theorem run_inside {cs : List Char} (plain : ∀ c ∈ cs, c ≠ '"' ∧ c ≠ '\\') :
    inside.run cs = some inside := by
  induction cs with
  | nil => rfl
  | cons c cs ih =>
    obtain ⟨quote, slash⟩ := plain c List.mem_cons_self
    rw [run, step, if_neg quote, if_neg slash]
    exact ih fun d mem => plain d (List.mem_cons_of_mem c mem)

/-- Started on either side of a quote, a text that is followed to its end both ways ends on either
side of one. -/
theorem run_opposite {cs : List Char} {q r : Quoting} (out : outside.run cs = some q)
    (in_ : inside.run cs = some r) :
    q = outside ∧ r = inside ∨ q = inside ∧ r = outside := by
  induction cs generalizing q r with
  | nil =>
    cases out
    cases in_
    exact .inl ⟨rfl, rfl⟩
  | cons c cs ih =>
    simp only [run, step] at out in_
    by_cases quote : c = '"'
    · rw [if_pos quote] at out in_
      rcases ih in_ out with ⟨h, h'⟩ | ⟨h, h'⟩
      · exact .inr ⟨h', h⟩
      · exact .inl ⟨h', h⟩
    · rw [if_neg quote] at out in_
      by_cases bare : isBareChar c = true
      · have slash : c ≠ '\\' := by
          rintro rfl
          exact absurd bare (by decide)
        rw [if_pos bare] at out
        rw [if_neg slash] at in_
        exact ih out in_
      · rw [if_neg bare] at out
        cases out

end Quoting

theorem Quoting.run_bare_append {bs : List Char} (bare : ∀ c ∈ bs, isBareChar c = true)
    (cs : List Char) : outside.run (bs ++ cs) = outside.run cs := by
  rw [run_append, run_bare bare, Option.bind_some]

theorem hexDigit_plain {x : Char} (hex : isHexDigit x = true) : x ≠ '"' ∧ x ≠ '\\' := by
  constructor
  · rintro rfl
    exact absurd hex (by decide)
  · rintro rfl
    exact absurd hex (by decide)

theorem run_unit {digits : List Char} {n : Nat} (unit : hexUnit? digits = some n) (cs : List Char) :
    Quoting.inside.run ('\\' :: 'u' :: (digits ++ cs)) = Quoting.inside.run cs := by
  have plain : ∀ x ∈ digits, x ≠ '"' ∧ x ≠ '\\' := by
    unfold hexUnit? at unit
    split at unit
    · split at unit
      · next hex =>
        simp only [Bool.and_eq_true] at hex
        obtain ⟨⟨⟨first, second⟩, third⟩, fourth⟩ := hex
        simp only [List.forall_mem_cons]
        exact ⟨hexDigit_plain first, hexDigit_plain second, hexDigit_plain third,
          hexDigit_plain fourth, List.forall_mem_nil _⟩
      · cases unit
    · cases unit
  change Quoting.inside.run (digits ++ cs) = _
  rw [Quoting.run_append, Quoting.run_inside plain, Option.bind_some]

theorem SpellsString.quoting {cs text : List Char} (spelled : SpellsString cs text) :
    Quoting.inside.run text = some .outside := by
  induction spelled with
  | stop => rfl
  | plain plain _ ih =>
    rw [Quoting.run, Quoting.step, if_neg plain.2.1, if_neg plain.2.2]
    exact ih
  | short known _ ih =>
    have escape : ∀ pair ∈ shortEscapes, isEscapeChar pair.1 = true :=
      List.all_eq_true.1 (by decide : shortEscapes.all (fun pair => isEscapeChar pair.1) = true)
    rw [Quoting.run, show Quoting.inside.step '\\' = some .escaped from rfl, Option.bind_some,
      Quoting.run, Quoting.step, if_pos (escape _ known)]
    exact ih
  | unit unit _ ih => rwa [run_unit unit]
  | pair upper lower _ _ _ ih => rwa [run_unit upper, run_unit lower]

theorem bare_blank {bs : List Char} (blank : AreBlank bs) : ∀ c ∈ bs, isBareChar c = true :=
  fun c mem => by simp [isBareChar, blank c mem]

theorem bare_digits {ds : List Char} (digits : NumberLayout.IsDigits ds) :
    ∀ c ∈ ds, isBareChar c = true := fun c mem => by
  simp [isBareChar, show isAsciiDigit c = true from digits c mem]

theorem bare_unsigned {cs : List Char} (number : NumberLayout.IsUnsigned cs) :
    ∀ c ∈ cs, isBareChar c = true := by
  obtain ⟨whole, fraction, exponent, isWhole, isFraction, isExponent, rfl⟩ := number
  refine List.forall_mem_append.2 ⟨bare_digits isWhole.digits, List.forall_mem_append.2 ⟨?_, ?_⟩⟩
  · rcases isFraction with rfl | ⟨digits, plain, -, rfl⟩
    · exact List.forall_mem_nil _
    · exact List.forall_mem_cons.2 ⟨by decide, bare_digits plain⟩
  · rcases isExponent with rfl | ⟨letter, known, sign, signs, digits, plain, -, rfl⟩
    · exact List.forall_mem_nil _
    · refine List.forall_mem_cons.2 ⟨?_, List.forall_mem_append.2 ⟨?_, bare_digits plain⟩⟩
      · exact List.all_eq_true.1 (by decide : ['e', 'E'].all isBareChar = true) letter known
      · simp only [List.mem_cons, List.not_mem_nil, or_false] at signs
        rcases signs with rfl | rfl | rfl <;> exact List.all_eq_true.1 (by decide)

theorem bare_number {cs : List Char} (number : NumberLayout.IsNumber cs) :
    ∀ c ∈ cs, isBareChar c = true := by
  rcases number with unsigned | ⟨magnitude, unsigned, rfl⟩
  · exact bare_unsigned unsigned
  · exact List.forall_mem_cons.2 ⟨by decide, bare_unsigned unsigned⟩

theorem SpellsBy.quoting {numbers : Json → List Char → Prop} {p : Part} {cs : List Char}
    (spelled : SpellsBy numbers p cs) : Quoting.outside.run cs = some .outside := by
  have mark : ∀ {c : Char} (cs : List Char), isBareChar c = true →
      Quoting.outside.run (c :: cs) = Quoting.outside.run cs := fun cs bare =>
    Quoting.run_bare_append (List.forall_mem_singleton.2 bare) cs
  have text : ∀ {cs ks : List Char} (rest : List Char), SpellsString cs ks →
      Quoting.outside.run ('"' :: (ks ++ rest)) = Quoting.outside.run rest := by
    intro cs ks rest spelled
    change Quoting.inside.run (ks ++ rest) = _
    rw [Quoting.run_append, spelled.quoting, Option.bind_some]
  induction spelled with
  | null | yes | no => decide
  | number number => exact Quoting.run_bare (bare_number number)
  | str s spelled => rw [Quoting.run, show Quoting.outside.step '"' = some .inside from rfl,
      Option.bind_some, spelled.quoting]
  | noItems blank | noFields blank =>
    rw [mark _ (by decide), Quoting.run_bare_append (bare_blank blank)]
    decide
  | arr blank _ ih | obj blank _ ih =>
    rwa [mark _ (by decide), Quoting.run_bare_append (bare_blank blank)]
  | items _ _ ih ih' => rwa [Quoting.run_append, ih, Option.bind_some]
  | lastItem blank | lastField blank =>
    rw [Quoting.run_bare_append (bare_blank blank)]
    decide
  | nextItem blank blank' _ ih | nextField blank blank' _ ih =>
    rwa [Quoting.run_bare_append (bare_blank blank), mark _ (by decide),
      Quoting.run_bare_append (bare_blank blank')]
  | fields key blank blank' _ _ ih ih' =>
    rwa [text _ key, Quoting.run_bare_append (bare_blank blank), mark _ (by decide),
      Quoting.run_bare_append (bare_blank blank'), Quoting.run_append, ih, Option.bind_some]

theorem parse_quoting {text : String} {j : Json} (read : parse text = .ok j) :
    Quoting.outside.run text.toList = some .outside := by
  obtain ⟨tree, parsed, -⟩ := ok_of_map read
  obtain ⟨before, cs, after, shape, blank, blank', held, -⟩ := parseTree_eq_ok_iff.1 parsed
  rw [shape, Quoting.run_bare_append (bare_blank blank), Quoting.run_append, held.quoting,
    Option.bind_some, Quoting.run_bare (bare_blank blank')]

end Playground.Json
