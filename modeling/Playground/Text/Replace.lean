/-! Replacing every occurrence of a pattern, from the left and without rescanning what was put in.
-/

namespace Playground.Text

def dropLead? : List Char → List Char → Option (List Char)
  | [], cs => some cs
  | _ :: _, [] => none
  | p :: ps, c :: cs => if p = c then dropLead? ps cs else none

theorem eq_append_of_dropLead? {pattern cs rest : List Char}
    (dropped : dropLead? pattern cs = some rest) : cs = pattern ++ rest := by
  induction pattern generalizing cs with
  | nil => simp [dropLead?] at dropped; simp [dropped]
  | cons p ps ih =>
    cases cs with
    | nil => simp [dropLead?] at dropped
    | cons c cs =>
      simp only [dropLead?] at dropped
      split at dropped
      · next same => simp [same, ih dropped]
      · simp at dropped

theorem dropLead?_append (pattern rest : List Char) :
    dropLead? pattern (pattern ++ rest) = some rest := by
  induction pattern with
  | nil => simp [dropLead?]
  | cons p ps ih => simp [dropLead?, ih]

theorem length_of_dropLead? {first c : Char} {others rest after : List Char}
    (found : dropLead? (first :: others) (c :: rest) = some after) :
    after.length < rest.length + 1 := by
  have lengths := congrArg List.length (eq_append_of_dropLead? found)
  rw [List.length_cons, List.length_append, List.length_cons] at lengths
  omega

/-- Every occurrence of a non-empty pattern, the leftmost first, becomes `by_`. -/
def replaceAll (first : Char) (others by_ : List Char) (cs : List Char) : List Char :=
  match cs with
  | [] => []
  | c :: rest =>
    match found : dropLead? (first :: others) (c :: rest) with
    | some after =>
      have _shorter := length_of_dropLead? found
      by_ ++ replaceAll first others by_ after
    | none => c :: replaceAll first others by_ rest
termination_by cs.length

def occurs (pattern : List Char) : List Char → Bool
  | [] => pattern.isEmpty
  | c :: rest => (dropLead? pattern (c :: rest)).isSome || occurs pattern rest

end Playground.Text

namespace Playground

def replaceText (s pattern by_ : String) : String :=
  match pattern.toList with
  | [] => s
  | first :: others => String.ofList (Text.replaceAll first others by_.toList s.toList)

end Playground
