import Playground.Language.Registry
import Mathlib.Data.List.Basic

/-! Registries stay consistent. -/

namespace Playground

namespace Places

variable {specs : List LanguageSpec} {has : LanguageSpec → String → Prop}
variable {table : List (String × Nat)}

theorem found_iff (places : Places specs has table) {key : String} {l : LanguageSpec} :
    ((table.lookup key).bind fun i => specs[i]?) = some l ↔ l ∈ specs ∧ has l key := by
  rw [Option.bind_eq_some_iff]
  constructor
  · rintro ⟨i, at_, placed⟩
    obtain ⟨m, placed', owns⟩ := places.get at_
    rw [placed] at placed'
    cases placed'
    exact ⟨List.mem_of_getElem? placed, owns⟩
  · rintro ⟨mem, owns⟩
    obtain ⟨i, placed⟩ := List.getElem?_of_mem mem
    exact ⟨i, (places key i).2 ⟨l, placed, owns⟩, placed⟩

theorem pairwise (places : Places specs has table) :
    specs.Pairwise fun a b => ∀ key, has a key → ¬ has b key := by
  rw [List.pairwise_iff_getElem]
  intro i j before_end inside before key first second
  have here := (places key i).2 ⟨_, List.getElem?_eq_getElem before_end, first⟩
  have there := (places key j).2 ⟨_, List.getElem?_eq_getElem inside, second⟩
  rw [here] at there
  cases there
  exact absurd before (Nat.lt_irrefl i)

end Places

namespace LanguageRegistry

variable {r : LanguageRegistry} {l : LanguageSpec} {name extension : String}

theorem named?_eq_some_iff : r.named? name = some l ↔ l ∈ r.specs ∧ l.name = name :=
  r.names.found_iff

theorem withExtension?_eq_some_iff :
    r.withExtension? extension = some l ↔ l ∈ r.specs ∧ l.Lists (extensionKey extension) :=
  r.extensions.found_iff

theorem contains_iff : r.contains name = true ↔ ∃ l ∈ r.specs, l.name = name := by
  rw [contains, Option.isSome_iff_exists]
  constructor
  · rintro ⟨i, at_⟩
    obtain ⟨l, placed, named⟩ := r.names.get at_
    exact ⟨l, List.mem_of_getElem? placed, named⟩
  · rintro ⟨l, mem, named⟩
    obtain ⟨i, placed⟩ := List.getElem?_of_mem mem
    exact ⟨i, (r.names name i).2 ⟨l, placed, named⟩⟩

theorem mem_of_named? (found : r.named? name = some l) : l ∈ r.specs ∧ l.name = name :=
  named?_eq_some_iff.1 found

theorem resolve_eq_ok_iff : r.resolve name = .ok l ↔ l ∈ r.specs ∧ l.name = name := by
  rw [← named?_eq_some_iff, resolve]
  cases r.named? name <;> simp

theorem named_of_resolve (found : r.resolve name = .ok l) :
    r.named? name = some l ∧ l.name = name := by
  have known := resolve_eq_ok_iff.1 found
  exact ⟨named?_eq_some_iff.2 known, known.2⟩

theorem resolveExtension_eq_ok_iff :
    r.resolveExtension extension = .ok l ↔ l ∈ r.specs ∧ l.Lists (extensionKey extension) := by
  rw [← withExtension?_eq_some_iff, resolveExtension]
  cases r.withExtension? extension <;> simp

theorem taken?_eq_none_iff {extensions : List String} :
    r.taken? extensions = none ↔
      ∀ e ∈ extensions, ∀ m ∈ r.specs, ¬ m.Lists (extensionKey e) := by
  rw [taken?, List.findSome?_eq_none_iff]
  refine forall₂_congr fun e _ => ?_
  rw [Option.map_eq_none_iff, Option.eq_none_iff_forall_ne_some]
  simp only [ne_eq, withExtension?_eq_some_iff, not_and]

theorem offer_cases (r : LanguageRegistry) (l : LanguageSpec) :
    (¬ r.contains l.name = true ∧ r.taken? l.extensions = none ∧
      (r.offer l).1 = .ok () ∧ (r.offer l).2.specs = r.specs ++ [l]) ∨
    ((r.contains l.name = true ∨ r.taken? l.extensions ≠ none) ∧
      ∃ e, r.offer l = (.error e, r)) := by
  unfold offer
  split
  · next known => exact .inr ⟨.inl known, _, rfl⟩
  · next unknown =>
    split
    · next taken => exact .inr ⟨.inr (by simp [taken]), _, rfl⟩
    · next free => exact .inl ⟨unknown, free, rfl, rfl⟩

theorem offer_ok_iff :
    (r.offer l).1 = .ok () ↔
      ∀ m ∈ r.specs, m.name ≠ l.name ∧ ∀ e ∈ l.extensions, ¬ m.Lists (extensionKey e) := by
  have untaken : (∀ m ∈ r.specs, m.name ≠ l.name ∧ ∀ e ∈ l.extensions, ¬ m.Lists (extensionKey e)) ↔
      ¬ r.contains l.name = true ∧ r.taken? l.extensions = none := by
    rw [contains_iff, taken?_eq_none_iff]
    grind
  rw [untaken]
  rcases r.offer_cases l with ⟨unknown, free, added, -⟩ | ⟨taken, e, refused⟩
  · exact ⟨fun _ => ⟨unknown, free⟩, fun _ => added⟩
  · rw [refused]
    exact ⟨nofun, fun ⟨unknown, free⟩ => absurd taken (by simp [unknown, free])⟩

theorem offer_refused {e : RegistryError} (refused : (r.offer l).1 = .error e) :
    (r.offer l).2 = r := by
  rcases r.offer_cases l with ⟨-, -, added, -⟩ | ⟨-, _, kept⟩
  · rw [added] at refused
    cases refused
  · rw [kept]

/-- The languages of a list that are added when it is offered to a registry. -/
def accepted : List LanguageSpec → LanguageRegistry → List LanguageSpec
  | [], _ => []
  | l :: rest, r =>
    match r.offer l with
    | (.ok _, added) => l :: accepted rest added
    | (.error _, kept) => accepted rest kept

theorem specs_foldl_offer (languages : List LanguageSpec) (r : LanguageRegistry) :
    (languages.foldl (fun r l => (r.offer l).2) r).specs = r.specs ++ accepted languages r := by
  induction languages generalizing r with
  | nil => rw [List.foldl_nil, accepted, List.append_nil]
  | cons l rest ih =>
    rw [List.foldl_cons, ih, accepted]
    rcases r.offer_cases l with ⟨-, -, answer, added⟩ | ⟨-, e, refused⟩
    · split
      · next after offered =>
        rw [offered] at added ⊢
        rw [added, List.append_assoc, List.singleton_append]
      · next offered =>
        rw [offered] at answer
        cases answer
    · simp only [refused]

theorem mem_of_accepted (languages : List LanguageSpec) (r : LanguageRegistry) :
    ∀ l ∈ accepted languages r, l ∈ languages := by
  induction languages generalizing r with
  | nil => exact fun _ => id
  | cons first rest ih =>
    intro l mem
    rw [accepted] at mem
    split at mem
    · next added _ =>
      rcases List.mem_cons.1 mem with rfl | later
      · exact List.mem_cons_self
      · exact List.mem_cons_of_mem _ (ih added l later)
    · next kept _ => exact List.mem_cons_of_mem _ (ih kept l mem)

theorem specs_ofList (languages : List LanguageSpec) :
    (ofList languages).specs = accepted languages empty :=
  specs_foldl_offer languages empty

theorem mem_of_specs_ofList {languages : List LanguageSpec} (mem : l ∈ (ofList languages).specs) :
    l ∈ languages :=
  mem_of_accepted languages empty l (specs_ofList languages ▸ mem)

/-- Whatever languages are offered to a new registry, one after the other: it lists those that it
accepted, in order, and no two of them share a name or an extension. A name or an extension is resolved
to the accepted language that has it, and to none if there is none. The next one is accepted exactly
when it shares nothing with them, and one that is refused leaves the registry as it was, so that it
might as well not have been offered. -/
theorem registry_consistent (languages : List LanguageSpec) :
    let r := ofList languages
    let known := accepted languages empty
    r.specs = known ∧
    (known.map (·.name)).Nodup ∧
    (known.Pairwise fun a b => ∀ key, a.Lists key → ¬ b.Lists key) ∧
    (∀ name l, r.resolve name = .ok l ↔ l ∈ known ∧ l.name = name) ∧
    (∀ extension l, r.resolveExtension extension = .ok l ↔
      l ∈ known ∧ ∃ e ∈ l.extensions, extensionKey e = extensionKey extension) ∧
    (∀ l, (r.offer l).1 = .ok () ↔ ∀ m ∈ known, m.name ≠ l.name ∧
      ∀ e ∈ l.extensions, ∀ f ∈ m.extensions, extensionKey f ≠ extensionKey e) ∧
    (∀ l e, (r.offer l).1 = .error e → (r.offer l).2 = r ∧
      ∀ more, ofList (languages ++ l :: more) = ofList (languages ++ more)) := by
  intro r known
  have specs : r.specs = known := specs_ofList languages
  have lists : ∀ (l : LanguageSpec) key, l.Lists key ↔ ∃ e ∈ l.extensions, extensionKey e = key :=
    fun l key => List.mem_map
  rw [← specs]
  refine ⟨rfl, ?_, r.extensions.pairwise, fun name l => resolve_eq_ok_iff, ?_, ?_, ?_⟩
  · rw [List.Nodup, List.pairwise_map]
    exact r.names.pairwise.imp fun apart same => apart _ rfl same.symm
  · intro extension l
    rw [resolveExtension_eq_ok_iff, lists]
  · intro l
    rw [offer_ok_iff]
    simp only [lists, not_exists, not_and, ne_eq]
  · intro l e refused
    have kept := offer_refused refused
    refine ⟨kept, fun more => ?_⟩
    rw [ofList, ofList, List.foldl_append, List.foldl_append, List.foldl_cons]
    exact congrArg (more.foldl _) kept

end LanguageRegistry

end Playground
