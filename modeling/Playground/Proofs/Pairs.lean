import Mathlib.Data.List.Induction
import Playground.Pairs

/-! Tables whose keys are distinct or repeated, a key taken out of a table, and lists that change
at one place. -/

namespace Playground

theorem upsert_fresh {α : Type} {key : String} {value : α} {pairs : List (String × α)}
    (fresh : key ∉ pairs.map Prod.fst) : upsert key value pairs = pairs ++ [(key, value)] := by
  induction pairs with
  | nil => rfl
  | cons pair pairs ih =>
    obtain ⟨k, v⟩ := pair
    simp only [List.map_cons, List.mem_cons, not_or] at fresh
    rw [upsert, if_neg (Ne.symm fresh.1), ih fresh.2, List.cons_append]

theorem foldl_upsert_fresh {α : Type} {kept pairs : List (String × α)}
    (distinct : ((kept ++ pairs).map Prod.fst).Nodup) :
    pairs.foldl (fun kept (k, v) => upsert k v kept) kept = kept ++ pairs := by
  induction pairs generalizing kept with
  | nil => rw [List.foldl_nil, List.append_nil]
  | cons pair pairs ih =>
    obtain ⟨k, v⟩ := pair
    have fresh : k ∉ kept.map Prod.fst := by
      rw [List.map_append, List.nodup_append] at distinct
      intro mem
      exact distinct.2.2 k mem k (by simp) rfl
    have whole : kept ++ (k, v) :: pairs = (kept ++ [(k, v)]) ++ pairs := by simp
    rw [List.foldl_cons]
    dsimp only
    rw [upsert_fresh fresh, ih (by rwa [← whole]), whole]

theorem collapsePairs_distinct {α : Type} {pairs : List (String × α)}
    (distinct : (pairs.map Prod.fst).Nodup) : collapsePairs pairs = pairs :=
  foldl_upsert_fresh distinct

theorem lookup_filter_ne {κ α : Type} [BEq κ] [LawfulBEq κ] [DecidableEq κ] (key k : κ)
    (pairs : List (κ × α)) :
    (pairs.filter fun pair => pair.1 != key).lookup k =
      if k = key then none else pairs.lookup k := by
  induction pairs with
  | nil => simp
  | cons pair rest ih =>
    obtain ⟨own, value⟩ := pair
    by_cases same : own = key
    · rw [List.filter_cons_of_neg (by simp [same]), ih, lookup_cons_ite]
      by_cases h : k = key <;> simp [h, same]
    · rw [List.filter_cons_of_pos (by simp [same]), lookup_cons_ite, lookup_cons_ite, ih]
      by_cases h : k = key
      · subst h
        simp [Ne.symm same]
      · simp [h]

def lastValue? {α : Type} (key : String) (pairs : List (String × α)) : Option α :=
  pairs.reverse.lookup key

theorem lookup_foldl_put {α : Type} {put : String → α → List (String × α) → List (String × α)}
    (lookup_put : ∀ key k value pairs,
      (put key value pairs).lookup k = if k = key then some value else pairs.lookup k)
    (pairs kept : List (String × α)) (key : String) :
    (pairs.foldl (fun kept (k, v) => put k v kept) kept).lookup key =
      (lastValue? key pairs).or (kept.lookup key) := by
  induction pairs generalizing kept with
  | nil => rfl
  | cons pair pairs ih =>
    obtain ⟨k, v⟩ := pair
    rw [List.foldl_cons, ih, lookup_put, lastValue?, lastValue?, List.reverse_cons,
      List.lookup_append, lookup_cons_ite]
    cases pairs.reverse.lookup key with
    | some value => rfl
    | none => split <;> rfl

theorem lookup_foldl_upsert {α : Type} (pairs kept : List (String × α)) (key : String) :
    (pairs.foldl (fun kept (k, v) => upsert k v kept) kept).lookup key =
      (lastValue? key pairs).or (kept.lookup key) :=
  lookup_foldl_put lookup_upsert pairs kept key

theorem lookup_sortByKey {α : Type} (pairs : List (String × α)) (key : String) :
    (sortByKey pairs).lookup key = lastValue? key pairs :=
  (lookup_foldl_put lookup_insertByKey pairs [] key).trans Option.or_none

theorem lookup_collapsePairs {α : Type} (pairs : List (String × α)) (key : String) :
    (collapsePairs pairs).lookup key = lastValue? key pairs :=
  (lookup_foldl_upsert pairs [] key).trans Option.or_none

theorem collapsePairs_nodup {α : Type} (pairs : List (String × α)) :
    ((collapsePairs pairs).map Prod.fst).Nodup :=
  List.foldlRecOn (motive := fun kept : List (String × α) => (kept.map Prod.fst).Nodup) pairs _
    List.nodup_nil fun _ distinct pair _ => nodup_upsert pair.1 pair.2 distinct

theorem lastValue?_eq_getLast? {α : Type} (key : String) (pairs : List (String × α)) :
    lastValue? key pairs = ((pairs.filter fun pair => pair.1 == key).map Prod.snd).getLast? := by
  induction pairs with
  | nil => rfl
  | cons pair pairs ih =>
    obtain ⟨k, v⟩ := pair
    rw [lastValue?, List.reverse_cons, List.lookup_append, lookup_cons_ite, ← lastValue?, ih,
      List.filter_cons]
    by_cases same : key = k
    · subst same
      simp only [if_true, beq_self_eq_true, List.map_cons, List.getLast?_cons]
      cases ((pairs.filter fun pair => pair.1 == key).map Prod.snd).getLast? <;> rfl
    · simp [same, Ne.symm same]

theorem lastValue?_concat {α : Type} (key k : String) (value : α) (pairs : List (String × α)) :
    lastValue? key (pairs ++ [(k, value)]) =
      if key = k then some value else lastValue? key pairs := by
  rw [lastValue?, List.reverse_append, List.reverse_singleton, List.singleton_append,
    lookup_cons_ite, lastValue?]

theorem lastValue?_append {α : Type} (key : String) (pairs more : List (String × α)) :
    lastValue? key (pairs ++ more) = (lastValue? key more).or (lastValue? key pairs) := by
  rw [lastValue?, List.reverse_append, List.lookup_append, lastValue?, lastValue?]

theorem lastValue?_eq_none_iff {α : Type} {key : String} {pairs : List (String × α)} :
    lastValue? key pairs = none ↔ key ∉ pairs.map Prod.fst := by
  rw [lastValue?, List.lookup_eq_none_iff]
  simp only [List.mem_reverse, bne_iff_ne, List.mem_map, not_exists, not_and]
  exact forall₂_congr fun pair _ => ne_comm

theorem eraseDups_concat (keys : List String) (key : String) :
    (keys ++ [key]).eraseDups = if key ∈ keys then keys.eraseDups else keys.eraseDups ++ [key] := by
  rw [List.eraseDups_append]
  by_cases known : key ∈ keys <;> simp [List.removeAll, known, List.eraseDups_cons]

theorem eraseDups_append_eraseDups (keys more : List String) :
    (keys ++ more.eraseDups).eraseDups = (keys ++ more).eraseDups := by
  induction more using List.reverseRecOn with
  | nil => rw [List.eraseDups_nil]
  | append_singleton more key ih =>
    rw [eraseDups_concat, ← List.append_assoc, eraseDups_concat]
    split
    · next known => rw [ih, if_pos (List.mem_append_right keys known)]
    · rw [← List.append_assoc, eraseDups_concat, ih]
      simp only [List.mem_append, List.mem_eraseDups]

section Keys

variable {α : Type} {kept : List (String × α)} {keys : List String}

theorem keys_upsert_eraseDups (kept_keys : kept.map Prod.fst = keys.eraseDups) (key : String)
    (value : α) : (upsert key value kept).map Prod.fst = (keys ++ [key]).eraseDups := by
  rw [keys_upsert, eraseDups_concat, kept_keys]
  simp only [List.mem_eraseDups]

theorem keys_foldl_upsert (kept_keys : kept.map Prod.fst = keys.eraseDups)
    (pairs : List (String × α)) :
    (pairs.foldl (fun kept (k, v) => upsert k v kept) kept).map Prod.fst =
      (keys ++ pairs.map Prod.fst).eraseDups := by
  induction pairs generalizing kept keys with
  | nil => rw [List.foldl_nil, List.map_nil, List.append_nil, kept_keys]
  | cons pair pairs ih =>
    obtain ⟨k, v⟩ := pair
    rw [List.foldl_cons, ih (keys_upsert_eraseDups kept_keys k v), List.map_cons, List.append_assoc,
      List.singleton_append]

theorem keys_collapsePairs (pairs : List (String × α)) :
    (collapsePairs pairs).map Prod.fst = (pairs.map Prod.fst).eraseDups :=
  keys_foldl_upsert (show ([] : List (String × α)).map Prod.fst = ([] : List String).eraseDups from
    List.eraseDups_nil.symm) pairs

end Keys

theorem lookup_map_value {α β : Type} (f : α → β) (pairs : List (String × α)) (key : String) :
    (pairs.map fun pair => (pair.1, f pair.2)).lookup key = (pairs.lookup key).map f := by
  induction pairs with
  | nil => rfl
  | cons pair pairs ih =>
    obtain ⟨k, v⟩ := pair
    rw [List.map_cons, lookup_cons_ite, lookup_cons_ite, ih]
    split <;> rfl

theorem lastValue?_map {α β : Type} (f : α → β) (pairs : List (String × α)) (key : String) :
    lastValue? key (pairs.map fun pair => (pair.1, f pair.2)) = (lastValue? key pairs).map f := by
  rw [lastValue?, ← List.map_reverse, lookup_map_value, lastValue?]

theorem getElem?_snoc {α : Type} {items : List α} {item x : α} {i : Nat} :
    (items ++ [item])[i]? = some x ↔ items[i]? = some x ∨ i = items.length ∧ x = item := by
  rcases Nat.lt_trichotomy i items.length with before | here | after
  · rw [List.getElem?_append_left before]
    constructor
    · exact Or.inl
    · rintro (old | ⟨same, -⟩)
      · exact old
      · omega
  · subst here
    rw [List.getElem?_concat_length, List.getElem?_eq_none (Nat.le_refl _)]
    constructor
    · intro same
      exact Or.inr ⟨rfl, (Option.some.inj same).symm⟩
    · rintro (old | ⟨-, same⟩)
      · cases old
      · rw [same]
  · rw [List.getElem?_eq_none (by simp; omega), List.getElem?_eq_none (by omega)]
    constructor
    · intro none_
      cases none_
    · rintro (old | ⟨same, -⟩)
      · cases old
      · omega

theorem getElem?_snoc_ne {α : Type} {items : List α} {item : α} {i : Nat} (other : i ≠ items.length) :
    (items ++ [item])[i]? = items[i]? :=
  Option.ext fun x => by rw [getElem?_snoc, or_iff_left fun new => other new.1]

theorem getElem?_replaced {α : Type} {items : List α} {item old x : α} {id i : Nat}
    (at_ : items[id]? = some old) :
    (items.set id item)[i]? = some x ↔ i = id ∧ x = item ∨ i ≠ id ∧ items[i]? = some x := by
  have inside := (List.getElem?_eq_some_iff.1 at_).1
  by_cases same : i = id
  · subst same
    rw [List.getElem?_set_self inside]
    constructor
    · intro new
      exact Or.inl ⟨rfl, (Option.some.inj new).symm⟩
    · rintro (⟨-, new⟩ | ⟨differs, -⟩)
      · rw [new]
      · exact absurd rfl differs
  · rw [List.getElem?_set_ne (Ne.symm same)]
    constructor
    · intro kept
      exact Or.inr ⟨same, kept⟩
    · rintro (⟨here, -⟩ | ⟨-, kept⟩)
      · exact absurd here same
      · exact kept

theorem getElem?_of_initial {α : Type} {first whole : List α} (within : first <+: whole) {i : Nat}
    {x : α} (at_ : first[i]? = some x) : whole[i]? = some x := by
  obtain ⟨rest, rfl⟩ := within
  rwa [List.getElem?_append_left (List.getElem?_eq_some_iff.1 at_).1]

end Playground
