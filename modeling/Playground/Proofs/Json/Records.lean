import Playground.Json.Fields
import Playground.Proofs.Json.Reading

/-! Readers that expect a kind of value, and the texts they take. -/

namespace Playground.Json

def Takes {α : Type} (read : Cursor → Except Fault (α × Cursor)) (j : Json) (a : α) : Prop :=
  ∀ ⦃bs cs rest : List Char⦄, AreBlank bs → Spells (.value j) cs → Stops rest → ∀ pos,
    Gives (read ⟨bs ++ (cs ++ rest), pos⟩) a rest

theorem Takes.map {α β : Type} {read : Cursor → Except Fault (α × Cursor)} {j : Json} {a : α}
    (takes : Takes read j a) (f : α → β) :
    Takes (fun c => (read c).map fun (a, after) => (f a, after)) j (f a) :=
  fun _ _ _ blank spelled stops pos => (takes blank spelled stops pos).map f

theorem takes_value {j : Json} (exact_ : j.IsExact) {depth : Nat} (room : j.nesting < depth) :
    Takes (fun c => readValue (stepsFor c) depth c) j j := by
  intro bs cs rest blank spelled stops pos
  refine (spelled.holds exact_).isRead _ _ ?_ room blank stops pos
  simp only [stepsFor, List.length_append]
  omega

theorem takes_collapsed {j : Json} (exact_ : j.IsExact) {depth : Nat} (room : j.nesting < depth) :
    Takes (fun c => (readValue (stepsFor c) depth c).map fun (j, after) => (j.collapse, after)) j j := by
  have taken := (takes_value exact_ room).map collapse
  rwa [exact_.collapse] at taken

theorem takes_string (s : String) : Takes readStringValue (.str s) s := by
  intro bs _ rest blank spelled _ pos
  cases spelled with
  | number _ read => cases read
  | str _ spelled =>
    obtain ⟨p, skip⟩ := skipBlanks_blank blank (d := '"') rfl (_ ++ rest) pos
    rw [List.cons_append, readStringValue, skip]
    exact readLiteral_spelled spelled rest p

theorem takes_bool (b : Bool) : Takes readBoolValue (.bool b) b := by
  intro bs _ rest blank spelled _ pos
  cases spelled with
  | number _ read => cases read
  | yes =>
    obtain ⟨p, skip⟩ := skipBlanks_blank blank (d := 't') rfl (['r', 'u', 'e'] ++ rest) pos
    obtain ⟨q, read⟩ := readWord_spelled ['r', 'u', 'e'] rest (p + Text.size ['t'])
    rw [List.cons_append, readBoolValue, skip]
    exact ⟨q, congrArg (Except.map _) read⟩
  | no =>
    obtain ⟨p, skip⟩ := skipBlanks_blank blank (d := 'f') rfl (['a', 'l', 's', 'e'] ++ rest) pos
    obtain ⟨q, read⟩ := readWord_spelled ['a', 'l', 's', 'e'] rest (p + Text.size ['f'])
    rw [List.cons_append, readBoolValue, skip]
    exact ⟨q, congrArg (Except.map _) read⟩

theorem takes_natural {n : Nat} (small : n < 2 ^ 64) : Takes readNaturalValue (.int n) n := by
  intro bs _ rest blank spelled stops pos
  cases spelled with
  | number _ read =>
    cases read
    obtain ⟨d, more, shape, digit⟩ := whole_head (NumberLayout.isWhole_toDigits n)
    obtain ⟨p, skip⟩ := skipBlanks_blank blank (visible_digit digit) (more ++ rest) pos
    obtain ⟨q, read⟩ := readNatural_spelled small stops p
    rw [shape, List.cons_append] at read
    have goes : (decide (d = '-') || isAsciiDigit d) = true := by
      rw [show isAsciiDigit d = true from digit, Bool.or_true]
    rw [shape, List.cons_append, readNaturalValue, skip]
    dsimp only
    rw [goes, if_pos rfl, if_neg (digit_ne digit rfl), read]
    exact ⟨q, rfl⟩

theorem readWhole_spelled {α : Type} {read : Cursor → Except Fault (α × Cursor)} {j : Json} {a : α}
    (takes : Takes read j a) {text : String} (spelled : Spells (.value j) text.toList) :
    readWhole read text = .ok a := by
  obtain ⟨p, here⟩ := takes areBlank_nil spelled stops_nil 0
  rw [List.nil_append, List.append_nil] at here
  rw [readWhole, Cursor.ofText, here]
  rfl

theorem parse_spelled {j : Json} (exact_ : j.IsExact) (room : j.nesting < depthLimit)
    {text : String} (spelled : Spells (.value j) text.toList) : parse text = .ok j := by
  have tree : readWhole (fun c => readValue (stepsFor c) depthLimit c) text = .ok j :=
    readWhole_spelled (takes_value exact_ room) spelled
  rw [parse, show parseTree text = .ok j from tree, Except.map, exact_.collapse]

theorem afterField_spelled {fs : List (String × Json)} {ms : List Char}
    (more : Spells (.moreFields fs) ms) (rest : List Char) (pos : Nat) :
    (fs = [] ∧ ∃ pos', afterField ⟨ms ++ rest, pos⟩ = .ok (.stop ⟨rest, pos'⟩)) ∨
      ∃ cs pos', Spells (.fields fs) cs ∧ cs.length < ms.length ∧
        afterField ⟨ms ++ rest, pos⟩ = .ok (.more ⟨cs ++ rest, pos'⟩) := by
  cases more with
  | lastField blank =>
    rw [List.append_assoc]
    exact .inl ⟨rfl, afterField_stop blank rest pos⟩
  | nextField blank blank' fields =>
    obtain ⟨more, rfl⟩ := fields.fields_head
    obtain ⟨p, next⟩ := afterField_more blank blank' (more ++ rest) pos
    refine .inr ⟨_, p, fields, by simp; omega, ?_⟩
    simpa using next

theorem beforeField_spelled {fs : List (String × Json)} {cs : List Char}
    (spelled : Spells (.value (.obj fs)) cs) (rest : List Char) :
    ∃ inner, cs = '\x7b' :: inner ∧ ∀ pos,
      (fs = [] ∧ ∃ pos', beforeField ⟨inner ++ rest, pos⟩ = .ok (.stop ⟨rest, pos'⟩)) ∨
        ∃ ds pos', Spells (.fields fs) ds ∧
          beforeField ⟨inner ++ rest, pos⟩ = .ok (.more ⟨ds ++ rest, pos'⟩) := by
  cases spelled with
  | number _ read => cases read
  | noFields blank =>
    refine ⟨_, rfl, fun pos => .inl ⟨rfl, ?_⟩⟩
    rw [List.append_assoc]
    exact beforeField_stop blank rest pos
  | obj blank fields =>
    refine ⟨_, rfl, fun pos => ?_⟩
    obtain ⟨more, rfl⟩ := fields.fields_head
    obtain ⟨p, first⟩ := beforeField_more blank (more ++ rest) pos
    refine .inr ⟨_, p, fields, ?_⟩
    simpa using first

theorem readKey_spelled {k : String} {v : Json} {fs : List (String × Json)} {cs : List Char}
    (spelled : Spells (.fields ((k, v) :: fs)) cs) (rest : List Char) (pos : Nat) :
    ∃ after bs vs ms pos', AreBlank bs ∧ Spells (.value v) vs ∧ Spells (.moreFields fs) ms ∧
      ms.length < cs.length ∧ readLiteral ⟨cs ++ rest, pos⟩ = .ok (k, after) ∧
        readColon after = .ok ⟨bs ++ (vs ++ (ms ++ rest)), pos'⟩ := by
  cases spelled with
  | fields key blank blank' value more =>
    rename_i ks bs bs' vs ms
    obtain ⟨p, literal⟩ := readLiteral_spelled key (bs ++ ':' :: (bs' ++ (vs ++ (ms ++ rest)))) pos
    obtain ⟨q, colon⟩ := readColon_blank blank (bs' ++ (vs ++ (ms ++ rest))) p
    refine ⟨_, bs', vs, ms, q, blank', value, more, by simp; omega, ?_, colon⟩
    simpa using literal

inductive Fills {σ : Type} (names : List String) (read : FieldReader σ) :
    List (String × Json) → σ → σ → Prop
  | done {s : σ} : Fills names read [] s s
  | field {name : String} {v : Json} {fs : List (String × Json)} {s t u : σ} (known : name ∈ names)
    (takes : Takes (read name s) v t) (more : Fills names read fs t u) :
    Fills names read ((name, v) :: fs) s u

section Tables

variable {fs : List (String × Json)}

theorem readNamed_spelled {σ : Type} {names : List String} {read : FieldReader σ} {s t : σ}
    (fills : Fills names read fs s t) (distinct : (fs.map Prod.fst).Nodup) {given : List String}
    (new : ∀ name ∈ fs.map Prod.fst, name ∉ given) {cs : List Char}
    (spelled : Spells (.fields fs) cs) {fuel : Nat} (enough : cs.length ≤ fuel) (rest : List Char)
    (pos : Nat) : ∃ given' pos',
      readNamed names read fuel given s ⟨cs ++ rest, pos⟩ = .ok (t, given', ⟨rest, pos'⟩) := by
  induction fills generalizing given cs fuel pos with
  | done => cases spelled
  | @field name v fs s t u known takes more ih =>
    rw [List.map_cons, List.nodup_cons] at distinct
    rw [List.map_cons, List.forall_mem_cons] at new
    obtain ⟨after, bs, vs, ms, p, blank, value, others, shorter, literal, colon⟩ :=
      readKey_spelled spelled rest pos
    obtain ⟨fuel, rfl⟩ := Nat.exists_eq_add_one_of_ne_zero (n := fuel) (by omega)
    obtain ⟨q, taken⟩ := takes blank value (others.stops_moreFields rest) p
    rw [readNamed]
    simp only [bind, Except.bind, literal, if_neg new.1, if_pos known, colon, taken, pure,
      Except.pure]
    rcases afterField_spelled others rest q with ⟨rfl, r, ends⟩ | ⟨cs', r, spelled', less, next⟩
    · cases more
      rw [ends]
      exact ⟨_, r, rfl⟩
    · rw [next]
      refine ih distinct.2 ?_ spelled' (by omega) r
      intro other mem
      rw [List.mem_cons, not_or]
      exact ⟨fun same => distinct.1 (same ▸ mem), new.2 other mem⟩

theorem readRecord_object {σ : Type} {bs : List Char} (blank : AreBlank bs) {depth : Nat}
    (room : 1 < depth) (expected : String) (names : List String) (read : FieldReader σ) (start : σ)
    (cs : List Char) (pos : Nat) : ∃ pos',
    readRecord expected depth names read start ⟨bs ++ '\x7b' :: cs, pos⟩ =
      match beforeField ⟨cs, pos'⟩ with
      | .error fault => .error fault
      | .ok (.stop after) => .ok (start, [], after)
      | .ok (.more after) => readNamed names read after.rest.length [] start after := by
  obtain ⟨p, skip⟩ := skipBlanks_blank blank (d := '\x7b') rfl cs pos
  refine ⟨p + Text.size ['\x7b'], ?_⟩
  rw [readRecord, skip]
  exact if_neg (Nat.not_le.2 room)

theorem takes_record {σ : Type} {names : List String} {read : FieldReader σ} {start t : σ}
    (fills : Fills names read fs start t) (distinct : (fs.map Prod.fst).Nodup) {depth : Nat}
    (room : 1 < depth) (expected : String) :
    Takes (fun c => (readRecord expected depth names read start c).map
      fun (s, _, after) => (s, after)) (.obj fs) t := by
  intro bs cs rest blank spelled _ pos
  obtain ⟨inner, rfl, fields⟩ := beforeField_spelled spelled rest
  obtain ⟨p, opens⟩ := readRecord_object blank room expected names read start (inner ++ rest) pos
  dsimp only
  rw [List.cons_append, opens]
  rcases fields p with ⟨rfl, q, ends⟩ | ⟨ds, q, spelled', first⟩
  · cases fills
    rw [ends]
    exact ⟨q, rfl⟩
  · have fresh : ∀ name ∈ fs.map Prod.fst, name ∉ ([] : List String) := fun _ _ => List.not_mem_nil
    have enough : ds.length ≤ (ds ++ rest).length := by simp
    obtain ⟨given, r, named⟩ := readNamed_spelled fills distinct fresh spelled' enough rest q
    rw [first]
    dsimp only
    rw [named]
    exact ⟨r, rfl⟩

theorem readPairs_loop_spelled {read : Cursor → Except Fault (Json × Cursor)}
    (each : ∀ field ∈ fs, Takes read field.2 field.2) {cs : List Char}
    (spelled : Spells (.fields fs) cs) {fuel : Nat} (enough : cs.length ≤ fuel) (rest : List Char)
    (pos : Nat) : Gives (readPairs.loop read fuel ⟨cs ++ rest, pos⟩) fs rest := by
  induction fs generalizing cs fuel pos with
  | nil => cases spelled
  | cons field fs ih =>
    obtain ⟨k, v⟩ := field
    rw [List.forall_mem_cons] at each
    obtain ⟨after, bs, vs, ms, p, blank, value, others, shorter, literal, colon⟩ :=
      readKey_spelled spelled rest pos
    obtain ⟨fuel, rfl⟩ := Nat.exists_eq_add_one_of_ne_zero (n := fuel) (by omega)
    obtain ⟨q, taken⟩ := each.1 blank value (others.stops_moreFields rest) p
    rw [readPairs.loop]
    simp only [bind, Except.bind, literal, colon, taken, pure, Except.pure]
    rcases afterField_spelled others rest q with ⟨rfl, r, ends⟩ | ⟨cs', r, spelled', less, next⟩
    · rw [ends]
      exact ⟨r, rfl⟩
    · have left : cs'.length ≤ fuel := by omega
      obtain ⟨s, pairs⟩ := ih each.2 spelled' left r
      rw [next]
      dsimp only
      rw [pairs]
      exact ⟨s, rfl⟩

theorem takes_pairs {read : Cursor → Except Fault (Json × Cursor)}
    (each : ∀ field ∈ fs, Takes read field.2 field.2) {depth : Nat} (room : 1 < depth)
    (expected : String) : Takes (readPairs expected depth read) (.obj fs) fs := by
  intro bs cs rest blank spelled _ pos
  obtain ⟨inner, rfl, fields⟩ := beforeField_spelled spelled rest
  obtain ⟨p, skip⟩ := skipBlanks_blank blank (d := '\x7b') rfl (inner ++ rest) pos
  rw [List.cons_append, readPairs, skip]
  dsimp only
  rw [if_neg (Nat.not_le.2 room), advance_one]
  rcases fields (p + Text.size ['\x7b']) with ⟨rfl, q, ends⟩ | ⟨ds, q, spelled', first⟩
  · rw [ends]
    exact ⟨q, rfl⟩
  · rw [first]
    exact readPairs_loop_spelled each spelled' (by simp) rest q

end Tables

end Playground.Json
