import Playground.Text.Offset

/-! Byte offsets that stand between characters, and the slices between them. -/

namespace Playground.Text

theorem utf8ByteSize_ofList (cs : List Char) : (String.ofList cs).utf8ByteSize = size cs := by
  induction cs with
  | nil => rfl
  | cons c cs ih =>
    rw [String.ofList_cons, String.utf8ByteSize_append, ih, String.utf8ByteSize_singleton, size_cons]

theorem size_toList (s : String) : size s.toList = s.utf8ByteSize := by
  rw [← utf8ByteSize_ofList, String.ofList_toList]

/-- Whether a byte offset stands between characters of the text, or at an end of it. -/
def Boundary (cs : List Char) (pos : Nat) : Prop := ∃ a b, cs = a ++ b ∧ pos = size a

theorem boundary_zero (cs : List Char) : Boundary cs 0 := ⟨[], cs, rfl, rfl⟩

theorem boundary_size (cs : List Char) : Boundary cs (size cs) := ⟨cs, [], by simp, rfl⟩

theorem Boundary.le {cs : List Char} {pos : Nat} (at_ : Boundary cs pos) : pos ≤ size cs := by
  obtain ⟨a, b, rfl, rfl⟩ := at_
  rw [size_append]
  omega

theorem sliceFrom?_size (a b : List Char) : sliceFrom? (a ++ b) (size a) = some b := by
  rw [sliceFrom?, splitBytes?_append]
  rfl

theorem splitBytes?_boundary {cs a b : List Char} {pos : Nat} (whole : cs = a ++ b)
    (later : Boundary cs pos) (after : size a ≤ pos) :
    ∃ m c, b = m ++ c ∧ pos = size a + size m := by
  obtain ⟨x, y, rfl, rfl⟩ := later
  rcases List.append_eq_append_iff.1 whole with ⟨m, rfl, rfl⟩ | ⟨m, rfl, rfl⟩
  · rw [size_append] at after
    cases m with
    | nil => exact ⟨[], _, rfl, by simp⟩
    | cons c m =>
      have positive := Char.utf8Size_pos c
      rw [size_cons] at after
      omega
  · exact ⟨m, y, rfl, size_append a m⟩

theorem slice?_append (a b c : List Char) :
    slice? (a ++ (b ++ c)) (size a) (size a + size b) = some b := by
  rw [slice?, if_pos (Nat.le_add_right _ _), splitBytes?_append]
  simp [splitBytes?_append]

theorem slice?_boundary {cs : List Char} {start stop : Nat} (first : Boundary cs start)
    (last : Boundary cs stop) (order : start ≤ stop) :
    ∃ a m c, cs = a ++ (m ++ c) ∧ start = size a ∧ stop = size a + size m ∧
      slice? cs start stop = some m := by
  obtain ⟨a, b, rfl, rfl⟩ := first
  obtain ⟨m, c, rfl, rfl⟩ := splitBytes?_boundary rfl last order
  exact ⟨a, m, c, rfl, rfl, rfl, slice?_append a m c⟩

theorem slice?_iff {cs m : List Char} {start stop : Nat} :
    slice? cs start stop = some m ↔
      ∃ a c, cs = a ++ (m ++ c) ∧ start = size a ∧ stop = size a + size m := by
  constructor
  · intro cut
    unfold slice? at cut
    split at cut
    · next order =>
      obtain ⟨⟨a, rest⟩, first, cut⟩ := Option.bind_eq_some_iff.1 cut
      obtain ⟨⟨inside, c⟩, last, same⟩ := Option.bind_eq_some_iff.1 cut
      cases same
      obtain ⟨rfl, rfl⟩ := append_of_splitBytes? first
      obtain ⟨rfl, sized⟩ := append_of_splitBytes? last
      exact ⟨a, c, rfl, rfl, by omega⟩
    · cases cut
  · rintro ⟨a, c, rfl, rfl, rfl⟩
    exact slice?_append a m c

theorem append_cut {a b x y : List Char} (same : a ++ b = x ++ y) (sized : size a = size x) :
    a = x ∧ b = y := by
  have first := splitBytes?_append a b
  rw [same, sized, splitBytes?_append] at first
  cases first
  exact ⟨rfl, rfl⟩

end Playground.Text
