/-! Tables as lists of pairs: in the order of first insertion, or by key. -/

namespace Playground

/-- The pairs with the value under `key` replaced, or with a pair added at the end. -/
def upsert {α : Type} (key : String) (value : α) : List (String × α) → List (String × α)
  | [] => [(key, value)]
  | (k, v) :: rest => if k = key then (k, value) :: rest else (k, v) :: upsert key value rest

theorem lookup_cons_ite {κ α : Type} [BEq κ] [LawfulBEq κ] [DecidableEq κ] (k key : κ) (value : α)
    (pairs : List (κ × α)) :
    ((key, value) :: pairs).lookup k = if k = key then some value else pairs.lookup k := by
  by_cases h : k = key
  · subst h; simp
  · simp [List.lookup_cons, beq_false_of_ne h, h]

theorem lookup_upsert {α : Type} (key k : String) (value : α) (pairs : List (String × α)) :
    (upsert key value pairs).lookup k = if k = key then some value else pairs.lookup k := by
  induction pairs with
  | nil => simp [upsert, lookup_cons_ite]
  | cons pair rest ih =>
    obtain ⟨head, v⟩ := pair
    simp only [upsert]
    split
    · next same => subst same; by_cases h : k = head <;> simp [lookup_cons_ite, h]
    · next same =>
      by_cases h : k = head
      · subst h; simp [same]
      · simp [lookup_cons_ite, h, ih]

theorem keys_upsert {α : Type} (key : String) (value : α) (pairs : List (String × α)) :
    (upsert key value pairs).map Prod.fst =
      if key ∈ pairs.map Prod.fst then pairs.map Prod.fst else pairs.map Prod.fst ++ [key] := by
  induction pairs with
  | nil => simp [upsert]
  | cons pair rest ih =>
    obtain ⟨head, v⟩ := pair
    simp only [upsert]
    by_cases same : head = key
    · simp [same]
    · rw [if_neg same, List.map_cons, ih, List.map_cons]
      by_cases known : key ∈ rest.map Prod.fst <;> simp [known, Ne.symm same]

theorem nodup_upsert {α : Type} (key : String) (value : α) {pairs : List (String × α)}
    (distinct : (pairs.map Prod.fst).Nodup) : ((upsert key value pairs).map Prod.fst).Nodup := by
  rw [keys_upsert]
  split
  · exact distinct
  · next fresh => exact List.nodup_append.2 ⟨distinct, by simp, by grind⟩

def collapsePairs {α : Type} (pairs : List (String × α)) : List (String × α) :=
  pairs.foldl (fun kept (k, v) => upsert k v kept) []

/-- Puts a pair in its place by key; a later value of the same key replaces an earlier one. -/
def insertByKey {α : Type} (key : String) (value : α) : List (String × α) → List (String × α)
  | [] => [(key, value)]
  | (k, v) :: rest =>
    if key < k then (key, value) :: (k, v) :: rest
    else if key = k then (key, value) :: rest
    else (k, v) :: insertByKey key value rest

def sortByKey {α : Type} (pairs : List (String × α)) : List (String × α) :=
  pairs.foldl (fun sorted (key, value) => insertByKey key value sorted) []

theorem lookup_insertByKey {α : Type} (key k : String) (value : α) (pairs : List (String × α)) :
    (insertByKey key value pairs).lookup k = if k = key then some value else pairs.lookup k := by
  induction pairs with
  | nil => simp [insertByKey, lookup_cons_ite]
  | cons pair rest ih =>
    obtain ⟨head, v⟩ := pair
    simp only [insertByKey]
    split
    · simp [lookup_cons_ite]
    · split
      · next same => subst same; by_cases h : k = key <;> simp [lookup_cons_ite, h]
      · next differs =>
        by_cases h : k = head
        · subst h; simp [Ne.symm differs]
        · simp [lookup_cons_ite, h, ih]

end Playground
