import Playground.Proofs.Json.Records
import Playground.Text.Replace

/-! Objects of strings in which no `<` stands for itself, and how they are read back. -/

namespace Playground.Text

theorem replaceAll_single (x : Char) (by_ cs : List Char) :
    replaceAll x [] by_ cs = cs.flatMap fun c => if c = x then by_ else [c] := by
  induction cs with
  | nil => rw [replaceAll, List.flatMap_nil]
  | cons c cs ih =>
    rw [replaceAll, List.flatMap_cons]
    by_cases same : c = x
    · subst same
      rw [if_pos rfl, ← ih]
      split
      · next found =>
        simp only [dropLead?, if_true, Option.some.injEq] at found
        dsimp only
        rw [found]
      · next missing => simp [dropLead?] at missing
    · rw [if_neg same, ← ih]
      split
      · next found => simp [dropLead?, Ne.symm same] at found
      · rfl

end Playground.Text

namespace Playground.Json

def safeChar (c : Char) : List Char := if c = '<' then "\\u003c".toList else escapeChar c

def safeLiteral (s : String) : List Char := '"' :: (s.toList.flatMap safeChar ++ ['"'])

def moreStrings : List (String × String) → List Char
  | [] => ['}']
  | (k, v) :: rest => ',' :: (safeLiteral k ++ ':' :: (safeLiteral v ++ moreStrings rest))

def stringFields : List (String × String) → List Char
  | [] => ['}']
  | (k, v) :: rest => safeLiteral k ++ ':' :: (safeLiteral v ++ moreStrings rest)

def strings (pairs : List (String × String)) : List (String × Json) :=
  pairs.map fun (k, v) => (k, .str v)

def escapeAngle (cs : List Char) : List Char :=
  cs.flatMap fun c => if c = '<' then "\\u003c".toList else [c]

theorem escapeAngle_cons (c : Char) (cs : List Char) :
    escapeAngle (c :: cs) = (if c = '<' then "\\u003c".toList else [c]) ++ escapeAngle cs := rfl

theorem escapeAngle_append (a b : List Char) :
    escapeAngle (a ++ b) = escapeAngle a ++ escapeAngle b := List.flatMap_append

theorem escapeAngle_clean {cs : List Char} (clean : '<' ∉ cs) : escapeAngle cs = cs := by
  induction cs with
  | nil => rfl
  | cons c cs ih =>
    simp only [List.mem_cons, not_or] at clean
    rw [escapeAngle_cons, if_neg (Ne.symm clean.1), ih clean.2]
    rfl

theorem hexDigit_clean : ∀ n < 16, hexDigit n ≠ '<' := by decide

theorem escapeAngle_escapeChar (c : Char) : escapeAngle (escapeChar c) = safeChar c := by
  by_cases angle : c = '<'
  · subst angle
    rfl
  · rw [safeChar, if_neg angle]
    apply escapeAngle_clean
    have high := hexDigit_clean (c.toNat / 16)
    have low := hexDigit_clean (c.toNat % 16)
    unfold escapeChar
    split
    · decide
    split
    · decide
    split
    · decide
    split
    · decide
    split
    · decide
    split
    · decide
    split
    · decide
    split
    · next control =>
      simp only [List.mem_cons, List.not_mem_nil, or_false, not_or]
      exact ⟨by decide, by decide, by decide, by decide, Ne.symm (high (by omega)),
        Ne.symm (low (by omega))⟩
    · simp [Ne.symm angle]

theorem escapeAngle_literal (s : String) : escapeAngle (literal s) = safeLiteral s := by
  have inner : ∀ cs : List Char, escapeAngle (cs.flatMap escapeChar) = cs.flatMap safeChar := by
    intro cs
    induction cs with
    | nil => rfl
    | cons c cs ih =>
      rw [List.flatMap_cons, List.flatMap_cons, escapeAngle_append, escapeAngle_escapeChar, ih]
  rw [literal, List.cons_append, escapeAngle_cons, escapeAngle_append, inner]
  rfl

theorem escapeAngle_moreStrings (pairs : List (String × String)) :
    escapeAngle (compactMoreFields (strings pairs)) = moreStrings pairs := by
  induction pairs with
  | nil => rfl
  | cons pair pairs ih =>
    obtain ⟨k, v⟩ := pair
    rw [moreStrings, ← ih, ← escapeAngle_literal k, ← escapeAngle_literal v]
    simp [strings, compactMoreFields, compactChars, atomText, escapeAngle_append, escapeAngle_cons]

theorem escapeAngle_compact (pairs : List (String × String)) :
    escapeAngle (compactChars (.obj (strings pairs))) = '{' :: stringFields pairs := by
  cases pairs with
  | nil => rfl
  | cons pair pairs =>
    obtain ⟨k, v⟩ := pair
    rw [stringFields, ← escapeAngle_moreStrings, ← escapeAngle_literal k, ← escapeAngle_literal v]
    simp [strings, compactFields, compactChars, atomText, escapeAngle_append, escapeAngle_cons]

theorem exists_safeLiteral (s : String) :
    ∃ text, safeLiteral s = '"' :: text ∧ SpellsString s.toList text := by
  refine ⟨s.toList.flatMap safeChar ++ ['"'], rfl, ?_⟩
  induction s.toList with
  | nil => exact .stop
  | cons c cs ih =>
    rw [List.flatMap_cons, List.append_assoc, safeChar]
    split
    · next angle =>
      rw [angle]
      exact .unit (by decide : hexUnit? ['0', '0', '3', 'c'] = some '<'.toNat) ih
    · exact spells_escapeChar c ih

theorem spells_safeField (k v : String) {fs : List (String × Json)} {ms : List Char}
    (more : Spells (.moreFields fs) ms) :
    Spells (.fields ((k, .str v) :: fs)) (safeLiteral k ++ ':' :: (safeLiteral v ++ ms)) := by
  obtain ⟨ks, key, spelled⟩ := exists_safeLiteral k
  obtain ⟨vs, value, spelled'⟩ := exists_safeLiteral v
  rw [key, value]
  exact .fields spelled areBlank_nil areBlank_nil (.str v spelled') more

theorem spells_moreStrings (pairs : List (String × String)) :
    Spells (.moreFields (strings pairs)) (moreStrings pairs) := by
  induction pairs with
  | nil => exact .lastField areBlank_nil
  | cons pair pairs ih =>
    exact .nextField_tight (spells_safeField pair.1 pair.2 ih)

theorem spells_strings (pairs : List (String × String)) :
    Spells (.value (.obj (strings pairs))) ('\x7b' :: stringFields pairs) := by
  cases pairs with
  | nil => exact .noFields areBlank_nil
  | cons pair pairs =>
    exact .obj_tight (spells_safeField pair.1 pair.2 (spells_moreStrings pairs))

theorem haveExact_strings (pairs : List (String × String)) :
    HaveExact (strings pairs) ∧ nestingFields (strings pairs) = 0 := by
  induction pairs with
  | nil => exact ⟨trivial, rfl⟩
  | cons pair pairs ih => exact ⟨⟨trivial, ih.1⟩, (Nat.zero_max _).trans ih.2⟩

theorem parse_strings {pairs : List (String × String)} (distinct : (pairs.map Prod.fst).Nodup) :
    parse (String.ofList ('\x7b' :: stringFields pairs)) = .ok (.obj (strings pairs)) := by
  have keys : (strings pairs).map Prod.fst = pairs.map Prod.fst := by
    rw [strings, List.map_map]
    rfl
  have exact_ : (obj (strings pairs)).IsExact := by
    rw [IsExact, keys]
    exact ⟨distinct, (haveExact_strings pairs).1⟩
  refine parse_spelled exact_ ?_ ?_
  · rw [nesting, (haveExact_strings pairs).2]
    decide
  · rw [String.toList_ofList]
    exact spells_strings pairs

end Playground.Json
