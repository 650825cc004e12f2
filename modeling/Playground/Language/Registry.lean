import Playground.Error
import Playground.Language.Spec
import Playground.Pairs
import Playground.Path

/-! Registered languages, by name and by file extension; each belongs to one language. -/

namespace Playground

def bareExtension (extension : String) : String :=
  String.ofList (extension.toList.dropWhile (· == '.'))

def extensionKey (extension : String) : String := lowerAscii (bareExtension extension)

namespace LanguageSpec

def extensionKeys (l : LanguageSpec) : List String := l.extensions.map extensionKey

def Lists (l : LanguageSpec) (key : String) : Prop := key ∈ l.extensionKeys

def IsNamed (l : LanguageSpec) (name : String) : Prop := l.name = name

end LanguageSpec

def Places (specs : List LanguageSpec) (has : LanguageSpec → String → Prop)
    (table : List (String × Nat)) : Prop :=
  ∀ key i, table.lookup key = some i ↔ ∃ l, specs[i]? = some l ∧ has l key

def enterKeys (keys : List String) (place : Nat) (table : List (String × Nat)) :
    List (String × Nat) :=
  keys.foldl (fun table key => upsert key place table) table

theorem lookup_enterKeys (keys : List String) (place : Nat) (table : List (String × Nat))
    (key : String) :
    (enterKeys keys place table).lookup key = if key ∈ keys then some place else table.lookup key := by
  induction keys generalizing table with
  | nil => rfl
  | cons first rest ih =>
    rw [enterKeys, List.foldl_cons, ← enterKeys, ih, lookup_upsert]
    by_cases later : key ∈ rest <;> by_cases here : key = first <;> simp [later, here]

namespace Places

variable {specs : List LanguageSpec} {has : LanguageSpec → String → Prop}
variable {table : List (String × Nat)}

theorem empty (has : LanguageSpec → String → Prop) : Places [] has [] := by
  intro key i
  simp

/-- A language at the end of the list, entered under keys that nothing has yet. -/
theorem snoc (places : Places specs has table) {l : LanguageSpec} {keys : List String}
    (own : ∀ key, has l key ↔ key ∈ keys) (free : ∀ key ∈ keys, table.lookup key = none) :
    Places (specs ++ [l]) has (enterKeys keys specs.length table) := by
  intro key i
  rw [lookup_enterKeys]
  -- Places before the end are those of the old list, and the end is the new language's.
  have before : ∀ {m}, specs[i]? = some m → (specs ++ [l])[i]? = some m := fun at_ =>
    (List.getElem?_append_left (List.getElem?_eq_some_iff.1 at_).1).trans at_
  have after : ∀ {m}, (specs ++ [l])[i]? = some m →
      specs[i]? = some m ∨ specs.length = i ∧ l = m := by
    intro m at_
    rcases Nat.lt_or_ge i specs.length with inside | outside
    · exact .inl (List.getElem?_append_left inside ▸ at_)
    · rw [List.getElem?_append_right outside, List.getElem?_singleton] at at_
      split at at_
      · exact .inr ⟨by omega, Option.some.inj at_⟩
      · cases at_
  split
  · next mine =>
    constructor
    · intro here
      exact ⟨l, Option.some.inj here ▸ List.getElem?_concat_length, (own key).2 mine⟩
    · rintro ⟨m, at_, owns⟩
      rcases after at_ with old | ⟨here, -⟩
      · have taken := (places key i).2 ⟨m, old, owns⟩
        rw [free key mine] at taken
        cases taken
      · exact congrArg some here
  · next others =>
    rw [places key i]
    constructor
    · rintro ⟨m, at_, owns⟩
      exact ⟨m, before at_, owns⟩
    · rintro ⟨m, at_, owns⟩
      rcases after at_ with old | ⟨-, rfl⟩
      · exact ⟨m, old, owns⟩
      · exact absurd ((own key).1 owns) others

theorem get (places : Places specs has table) {key : String} {i : Nat}
    (at_ : table.lookup key = some i) : ∃ l, specs[i]? = some l ∧ has l key :=
  (places key i).1 at_

end Places

structure LanguageRegistry where
  specs : List LanguageSpec
  byName : List (String × Nat)
  byExtension : List (String × Nat)
  names : Places specs LanguageSpec.IsNamed byName
  extensions : Places specs LanguageSpec.Lists byExtension

namespace LanguageRegistry

def empty : LanguageRegistry := ⟨[], [], [], .empty _, .empty _⟩

def named? (r : LanguageRegistry) (name : String) : Option LanguageSpec :=
  (r.byName.lookup name).bind fun i => r.specs[i]?

def withExtension? (r : LanguageRegistry) (extension : String) : Option LanguageSpec :=
  (r.byExtension.lookup (extensionKey extension)).bind fun i => r.specs[i]?

def contains (r : LanguageRegistry) (name : String) : Bool := (r.byName.lookup name).isSome

def size (r : LanguageRegistry) : Nat := r.specs.length

def taken? (r : LanguageRegistry) (extensions : List String) : Option (String × LanguageSpec) :=
  extensions.findSome? fun e => (r.withExtension? e).map fun owner => (extensionKey e, owner)

theorem free_of_contains {r : LanguageRegistry} {l : LanguageSpec}
    (unknown : ¬ r.contains l.name = true) : ∀ key ∈ [l.name], r.byName.lookup key = none := by
  intro key named
  rw [List.mem_singleton.1 named]
  exact Option.not_isSome_iff_eq_none.1 unknown

theorem free_of_taken? {r : LanguageRegistry} {l : LanguageSpec}
    (free : r.taken? l.extensions = none) :
    ∀ key ∈ l.extensionKeys, r.byExtension.lookup key = none := by
  intro key listed
  obtain ⟨e, mem, rfl⟩ := List.mem_map.1 listed
  have untaken := List.findSome?_eq_none_iff.1 free e mem
  cases at_ : r.byExtension.lookup (extensionKey e) with
  | none => rfl
  | some i =>
    obtain ⟨owner, placed, -⟩ := r.extensions.get at_
    simp [withExtension?, at_, placed] at untaken

/-- Adds a language at the end, unless its name or one of its extensions is taken; the registry
comes back whether the language was added or refused. -/
def offer (r : LanguageRegistry) (l : LanguageSpec) : Except RegistryError Unit × LanguageRegistry :=
  if known : r.contains l.name then (.error (.duplicateName l.name), r)
  else
    match free : r.taken? l.extensions with
    | some (extension, owner) => (.error (.duplicateExtension extension owner.name l.name), r)
    | none => (.ok (),
        { specs := r.specs ++ [l]
          byName := enterKeys [l.name] r.specs.length r.byName
          byExtension := enterKeys l.extensionKeys r.specs.length r.byExtension
          names := r.names.snoc (fun _ => by simp [LanguageSpec.IsNamed, eq_comm])
            (free_of_contains known)
          extensions := r.extensions.snoc (fun _ => Iff.rfl) (free_of_taken? free) })

/-- The registry with one more language, for a caller who lets it go on an error. -/
def register (r : LanguageRegistry) (l : LanguageSpec) : Except RegistryError LanguageRegistry :=
  let (answer, after) := r.offer l
  answer.map fun _ => after

def ofList (languages : List LanguageSpec) : LanguageRegistry :=
  languages.foldl (fun r l => (r.offer l).2) empty

def resolve (r : LanguageRegistry) (name : String) : Except CompileError LanguageSpec :=
  match r.named? name with
  | some l => .ok l
  | none => .error (.unsupportedLanguage name)

def resolveExtension (r : LanguageRegistry) (extension : String) :
    Except CompileError LanguageSpec :=
  match r.withExtension? extension with
  | some l => .ok l
  | none => .error (.unsupportedLanguage ("." ++ bareExtension extension))

def resolvePath (r : LanguageRegistry) (path : String) : Except CompileError LanguageSpec :=
  match Path.extension? path with
  | some extension => r.resolveExtension extension
  | none => .error (.unsupportedLanguage path)

end LanguageRegistry

end Playground
