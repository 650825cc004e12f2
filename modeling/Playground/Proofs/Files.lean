import Playground.Files

/-! Paths, and the places they lead to. -/

namespace Playground

namespace Path

/-- A name that leads one step down. -/
def IsOrdinary (name : String) : Prop := name ≠ "" ∧ name ≠ "." ∧ name ≠ ".." ∧ '/' ∉ name.toList

/-- Whether a name is empty, starts with a slash or the part `.`, or has the part `..`. -/
def LeadsOut (name : String) : Prop :=
  name = "" ∨ name.toList.head? = some '/' ∨ (name.toList.splitOn '/').head? = some ['.'] ∨
    ['.', '.'] ∈ name.toList.splitOn '/'

instance (name : String) : Decidable (LeadsOut name) :=
  inferInstanceAs (Decidable (_ ∨ _ ∨ _ ∨ _))

def IsBelow (folder path : String) : Prop :=
  ∃ names, names ≠ [] ∧ (∀ name ∈ names, IsOrdinary name) ∧
    components path = components folder ++ names.map .name

theorem segments_eq_splitOn (cs : List Char) : segments cs = cs.splitOn '/' := by
  induction cs with
  | nil => rfl
  | cons c cs ih =>
    rw [segments, ih, List.splitOn_cons_eq_if_modifyHead]
    by_cases slash : c = '/'
    · simp [slash]
    · cases cut : cs.splitOn '/' with
      | nil => exact absurd cut (List.splitOn_ne_nil '/' cs)
      | cons first more => simp [slash]

theorem segments_slash (a b : List Char) : segments (a ++ '/' :: b) = segments a ++ segments b := by
  rw [segments_eq_splitOn, segments_eq_splitOn, segments_eq_splitOn]
  exact List.splitOn_append_cons_self a b

theorem segments_ne_nil (cs : List Char) : segments cs ≠ [] := by
  rw [segments_eq_splitOn]
  exact List.splitOn_ne_nil '/' cs

theorem segments_head?_nil {c : Char} {cs : List Char} :
    (segments (c :: cs)).head? = some [] ↔ c = '/' := by
  rw [segments]
  by_cases slash : c = '/'
  · simp [slash]
  · cases cut : segments cs with
    | nil => simp [slash]
    | cons first more => simp [slash]

theorem slash_not_mem {cs : List Char} : ∀ part ∈ segments cs, '/' ∉ part := by
  induction cs with
  | nil => simp [segments]
  | cons c cs ih =>
    rw [segments]
    split
    · simpa using ih
    · next slash =>
      cases cut : segments cs with
      | nil => exact absurd cut (segments_ne_nil cs)
      | cons first more =>
        rw [cut, List.forall_mem_cons] at ih
        rw [List.forall_mem_cons]
        exact ⟨by simp [ih.1, Ne.symm slash], ih.2⟩

theorem component?_ordinary {part : List Char} {c : PathComponent} (clean : '/' ∉ part)
    (inside : part ≠ ['.', '.']) (means : component? part = some c) :
    ∃ name, IsOrdinary name ∧ c = .name name := by
  rw [component?, if_neg inside] at means
  split at means
  · cases means
  · next counts =>
    rw [not_or] at counts
    cases means
    refine ⟨String.ofList part, ⟨?_, ?_, ?_, ?_⟩, rfl⟩
    · exact mt String.ofList_eq_empty_iff.1 counts.1
    · exact fun dot => counts.2 (String.ofList_inj.1 dot)
    · exact fun dots => inside (String.ofList_inj.1 dots)
    · rwa [String.toList_ofList]

theorem filterMap_component? {parts : List (List Char)} (clean : ∀ part ∈ parts, '/' ∉ part)
    (inside : ['.', '.'] ∉ parts) :
    ∃ names : List String, (∀ name ∈ names, IsOrdinary name) ∧
      parts.filterMap component? = names.map .name := by
  induction parts with
  | nil => exact ⟨[], nofun, rfl⟩
  | cons part parts ih =>
    rw [List.forall_mem_cons] at clean
    rw [List.mem_cons, not_or] at inside
    obtain ⟨names, ordinary, same⟩ := ih clean.2 inside.2
    cases means : component? part with
    | none => exact ⟨names, ordinary, by rw [List.filterMap_cons_none means, same]⟩
    | some c =>
      obtain ⟨name, here, rfl⟩ := component?_ordinary clean.1 (Ne.symm inside.1) means
      refine ⟨name :: names, List.forall_mem_cons.2 ⟨here, ordinary⟩, ?_⟩
      rw [List.filterMap_cons_some means, same, List.map_cons]

def leading (first : List Char) : List PathComponent :=
  if first = [] then [.root]
  else if first = ['.'] then [.current]
  else (component? first).toList

section

variable {path : String} {first : List Char} {more : List (List Char)}

theorem components_cons (some_ : path ≠ "") (cut : segments path.toList = first :: more) :
    components path = leading first ++ more.filterMap component? := by
  have given : path.isEmpty = false := by simpa using some_
  rw [components, cut, given]
  rfl

theorem leadsOut_iff (some_ : path ≠ "") (cut : segments path.toList = first :: more) :
    LeadsOut path ↔ first = [] ∨ first = ['.'] ∨ ['.', '.'] ∈ first :: more := by
  cases spelt : path.toList with
  | nil => exact absurd (String.toList_eq_nil_iff.1 spelt) some_
  | cons c cs =>
    have start : first = [] ↔ c = '/' := by
      have head := @segments_head?_nil c cs
      rwa [← spelt, cut, List.head?_cons, Option.some_inj] at head
    rw [LeadsOut, ← segments_eq_splitOn, cut, spelt, start]
    simp [some_]

/-- A name that does not lead out has the components of its parts, wherever it stands in a path. -/
theorem components_inner (inside : ¬ LeadsOut path) :
    components path = (segments path.toList).filterMap component? := by
  have some_ : path ≠ "" := fun empty => inside (.inl empty)
  obtain ⟨first, more, cut⟩ := List.exists_cons_of_ne_nil (segments_ne_nil path.toList)
  rw [leadsOut_iff some_ cut, not_or, not_or] at inside
  rw [components_cons some_ cut, cut, leading, if_neg inside.1, if_neg inside.2.1, List.filterMap_cons]
  cases component? first <;> rfl

theorem components_ordinary (inside : ¬ LeadsOut path) :
    ∃ names, names ≠ [] ∧ (∀ name ∈ names, IsOrdinary name) ∧
      components path = names.map .name := by
  have some_ : path ≠ "" := fun empty => inside (.inl empty)
  have same := components_inner inside
  obtain ⟨first, more, cut⟩ := List.exists_cons_of_ne_nil (segments_ne_nil path.toList)
  rw [leadsOut_iff some_ cut, not_or, not_or] at inside
  obtain ⟨counts, notDot, notParent⟩ := inside
  obtain ⟨names, ordinary, named⟩ := filterMap_component? (@slash_not_mem path.toList)
    (cut ▸ notParent)
  refine ⟨names, ?_, ordinary, same.trans named⟩
  rintro rfl
  rw [cut] at named
  have nothing := List.filterMap_eq_nil_iff.1 named first List.mem_cons_self
  have other : first ≠ ['.', '.'] := fun dots => notParent (dots ▸ List.mem_cons_self)
  simp [component?, counts, notDot, other] at nothing

theorem components_leadsOut (out : LeadsOut path) (some_ : path ≠ "") :
    ∃ c ∈ components path, ∀ name, c ≠ .name name := by
  obtain ⟨first, more, cut⟩ := List.exists_cons_of_ne_nil (segments_ne_nil path.toList)
  rw [components_cons some_ cut]
  rcases (leadsOut_iff some_ cut).1 out with rfl | rfl | mem
  · exact ⟨.root, List.mem_append_left _ List.mem_cons_self, nofun⟩
  · exact ⟨.current, List.mem_append_left _ List.mem_cons_self, nofun⟩
  · refine ⟨.parent, ?_, nofun⟩
    rcases List.mem_cons.1 mem with rfl | mem
    · exact List.mem_append_left _ List.mem_cons_self
    · exact List.mem_append_right _ (List.mem_filterMap.2 ⟨_, mem, rfl⟩)

end

theorem components_append_slash {a b first : List Char} {more : List (List Char)}
    (cut : segments a = first :: more) :
    components (String.ofList (a ++ '/' :: b)) =
      leading first ++ more.filterMap component? ++ (segments b).filterMap component? := by
  have whole : segments (String.ofList (a ++ '/' :: b)).toList = first :: (more ++ segments b) := by
    rw [String.toList_ofList, segments_slash, cut, List.cons_append]
  rw [components_cons (by simp) whole, List.filterMap_append, List.append_assoc]

theorem components_join (folder : String) {name : String} (inside : ¬ LeadsOut name) :
    components (join folder name) = components folder ++ components name := by
  have below : name.startsWith "/" = false := by
    rw [String.startsWith_string_eq_false_iff]
    rintro ⟨rest, whole⟩
    exact inside (.inr (.inl (by rw [← whole]; rfl)))
  rw [join, below, Bool.false_or, components_inner inside]
  split
  · next empty =>
    rw [String.isEmpty_iff] at empty
    rw [empty, ← components_inner inside]
    rfl
  · next given =>
    rw [String.isEmpty_iff] at given
    split
    · next slash =>
      rw [← String.endsWith_toSlice, String.Slice.endsWith_string_iff, String.copy_toSlice] at slash
      obtain ⟨a, whole⟩ := slash
      obtain ⟨first, more, cut⟩ := List.exists_cons_of_ne_nil (segments_ne_nil a)
      have folder_ : folder = String.ofList (a ++ '/' :: []) := by
        apply String.toList_inj.1
        simp [← whole]
      have joined : folder ++ name = String.ofList (a ++ '/' :: name.toList) := by
        apply String.toList_inj.1
        simp [← whole]
      rw [joined, components_append_slash cut, folder_, components_append_slash cut]
      simp [segments, component?]
    · obtain ⟨first, more, cut⟩ := List.exists_cons_of_ne_nil (segments_ne_nil folder.toList)
      have joined : folder ++ "/" ++ name = String.ofList (folder.toList ++ '/' :: name.toList) := by
        apply String.toList_inj.1
        simp
      rw [joined, components_append_slash cut, components_cons given cut]

def descend (p : Place) : PathComponent → Place
  | .root => []
  | .current => p
  | .parent => p.dropLast
  | .name text => p ++ [text]

def place (path : String) : Place := (components path).foldl descend []

theorem descend_names (p : Place) (names : List String) :
    (names.map PathComponent.name).foldl descend p = p ++ names := by
  induction names generalizing p with
  | nil => simp
  | cons name names ih => simp [descend, ih]

theorem IsBelow.place {folder path : String} (below : IsBelow folder path) :
    ∃ names, names ≠ [] ∧ (∀ name ∈ names, IsOrdinary name) ∧
      Path.place path = Path.place folder ++ names := by
  obtain ⟨names, some_, ordinary, same⟩ := below
  refine ⟨names, some_, ordinary, ?_⟩
  rw [Path.place, same, List.foldl_append, descend_names, Path.place]

theorem isBelow_join (folder : String) {name : String} (inside : ¬ LeadsOut name) :
    IsBelow folder (join folder name) := by
  obtain ⟨names, some_, ordinary, same⟩ := components_ordinary inside
  exact ⟨names, some_, ordinary, by rw [components_join folder inside, same]⟩

end Path

theorem bind_eq_ok {ε α β : Type} {x : Except ε α} {f : α → Except ε β} {b : β} :
    (x >>= f) = .ok b ↔ ∃ a, x = .ok a ∧ f a = .ok b := by
  cases x with
  | error e => exact ⟨nofun, nofun⟩
  | ok a => exact ⟨fun same => ⟨a, rfl, same⟩, fun ⟨_, same, left⟩ => by cases same; exact left⟩

namespace FileTree

variable {t : FileTree}

theorem step_descend {p q : Place} {c : PathComponent} (leads : step p c = .ok q) :
    q = Path.descend p c := by
  cases c with
  | root => cases leads; rfl
  | current => cases leads; rfl
  | parent => cases leads; rfl
  | name text =>
    rw [step] at leads
    split at leads <;> cases leads
    rfl

theorem locate_descend {p q : Place} {cs : List PathComponent} (leads : t.locate p cs = .ok q) :
    q = cs.foldl Path.descend p := by
  induction p, cs using locate.induct with
  | case1 p =>
    cases leads
    rfl
  | case2 p c => exact step_descend leads
  | case3 p c more _ ih =>
    rw [locate, bind_eq_ok] at leads
    · obtain ⟨next, first, leads⟩ := leads
      split at leads
      · rw [List.foldl_cons, ← step_descend first]
        exact ih next leads
      · cases leads
    · assumption

theorem resolve_place {path : String} {p : Place} (leads : t.resolve path = .ok p) :
    p = Path.place path := by
  rw [resolve] at leads
  split at leads
  · cases leads
  · split at leads
    · cases leads
    · exact locate_descend leads

theorem write_eq_ok {t' : FileTree} {path : String} {bytes : List UInt8} :
    t.write path bytes = .ok t' ↔ ∃ p, t.resolve path = .ok p ∧ t.isFolder p = false ∧
      Path.endsInDot path = false ∧ Path.namesFolder path = false ∧ t.put p bytes = t' := by
  rw [write, bind_eq_ok]
  refine exists_congr fun p => and_congr_right fun _ => ?_
  cases t.isFolder p <;> cases Path.endsInDot path <;> cases Path.namesFolder path <;>
    simp

theorem mem_write {t' : FileTree} {path : String} {bytes : List UInt8}
    (written : t.write path bytes = .ok t') :
    ∀ file ∈ t'.files, file ∈ t.files ∨ file = (Path.place path, bytes) := by
  obtain ⟨p, leads, -, -, -, rfl⟩ := write_eq_ok.1 written
  intro file mem
  rcases List.mem_cons.1 mem with rfl | mem
  · exact .inr (by rw [resolve_place leads])
  · exact .inl (List.mem_filter.1 mem).1

theorem locate_put {p q place : Place} {bytes : List UInt8} {cs : List PathComponent}
    (leads : t.locate p cs = .ok q) : (t.put place bytes).locate p cs = .ok q := by
  induction p, cs using locate.induct with
  | case1 p => exact leads
  | case2 p c => exact leads
  | case3 p c more _ ih =>
    rw [locate, bind_eq_ok] at leads ⊢
    · obtain ⟨next, first, leads⟩ := leads
      refine ⟨next, first, ?_⟩
      split at leads
      · next folder =>
        rw [if_pos (by exact folder)]
        exact ih next leads
      · cases leads
    · assumption
    · assumption

theorem resolve_put {path : String} {p place : Place} {bytes : List UInt8}
    (leads : t.resolve path = .ok p) : (t.put place bytes).resolve path = .ok p := by
  rw [resolve] at leads ⊢
  split at leads
  · cases leads
  · next given =>
    rw [if_neg given]
    split at leads
    · cases leads
    · next noNul =>
      rw [if_neg noNul]
      exact locate_put leads

theorem read_write {path : String} (writable : ∃ t₀, t.write path [] = .ok t₀) (bytes : List UInt8) :
    ∃ t', t.write path bytes = .ok t' ∧ t'.read path = .ok bytes := by
  obtain ⟨t₀, written⟩ := writable
  obtain ⟨p, leads, file, noDot, name, -⟩ := write_eq_ok.1 written
  refine ⟨t.put p bytes, write_eq_ok.2 ⟨p, leads, file, noDot, name, rfl⟩, ?_⟩
  have kept : (t.put p bytes).contents? p = some bytes := by
    rw [contents?, put, List.lookup_cons_self]
  have file' : (t.put p bytes).isFolder p = false := file
  rw [read, bind_eq_ok]
  exact ⟨p, resolve_put leads, by rw [file', kept, name]; rfl⟩

theorem addFolders_files {t' : FileTree} {p : Place} {cs : List PathComponent}
    (made : t.addFolders p cs = .ok t') : t'.files = t.files := by
  induction cs generalizing t p with
  | nil =>
    cases made
    rfl
  | cons c cs ih =>
    rw [addFolders, bind_eq_ok] at made
    obtain ⟨next, -, made⟩ := made
    split at made
    · exact ih made
    · split at made
      · cases made
      · have kept := ih made
        exact kept

end FileTree

end Playground
