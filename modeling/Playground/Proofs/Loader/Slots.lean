import Playground.Loader.Session
import Playground.Proofs.Pairs

/-! What the slots of a loader say of its loads: `EngineLoader.Orderly`, and that beginning,
holding back and finishing a load and binding a name all keep it. -/

namespace Playground

def Load.Failed (load : Load) : Prop := ∃ error, load.result = some (.error error)

namespace EngineLoader

variable (l : EngineLoader)

def outcome? (id : Nat) : Option LoadResult := (l.loads[id]?).bind Load.result

def loadsOf (url : String) : List Load := l.loads.filter fun load => load.url == url

def Holds (url : String) (handle : EngineHandle) : Prop := l.slot? url = some (.ready handle)

/-- Slots and loads agree: a pending slot holds the one unfinished load of its URL, a ready slot the
handle of the one that succeeded. -/
structure Orderly : Prop where
  pending : ∀ url id, l.slot? url = some (.pending id) →
    ∃ load : Load, l.loads[id]? = some load ∧ load.url = url ∧ load.result = none
  unfinished : ∀ (id : Nat) (load : Load), l.loads[id]? = some load → load.result = none →
    l.slot? load.url = some (.pending id)
  succeeded : ∀ (id : Nat) (load : Load) handle, l.loads[id]? = some load →
    load.result = some (.ok handle) →
    l.Holds load.url handle ∧ handle.url = load.url
  ready : ∀ url handle, l.Holds url handle →
    ∃ (id : Nat) (load : Load), l.loads[id]? = some load ∧ load.url = url ∧
      load.result = some (.ok handle)
  retried : ∀ (i j : Nat) (a b : Load), i < j → l.loads[i]? = some a → l.loads[j]? = some b → a.url = b.url →
    a.Failed
  bound : ∀ name handle, l.scope.lookup name = some handle → l.Holds handle.url handle

theorem slot?_begin (url u : String) :
    (l.begin_ url).2.slot? u = if u = url then some (.pending l.loads.length) else l.slot? u := by
  exact lookup_upsert url u _ l.slots

theorem loads_begin (url : String) :
    ∃ attempt, (l.begin_ url).2.loads = l.loads ++ [⟨url, attempt, 0, none⟩] := ⟨_, rfl⟩

def slotAfter : LoadResult → Option Slot
  | .ok handle => some (.ready handle)
  | .error _ => none

theorem slot?_settle {url : String} {id : Nat} (owned : l.slot? url = some (.pending id))
    (result : LoadResult) (u : String) :
    (l.settle url id result).slot? u = if u = url then slotAfter result else l.slot? u := by
  cases result with
  | ok handle =>
    simp only [settle, owned, if_true, slotAfter]
    exact lookup_upsert url u _ l.slots
  | error e =>
    simp only [settle, owned, if_true, slotAfter]
    exact lookup_filter_ne url u l.slots

theorem settle_other {url : String} {id : Nat} (other : l.slot? url ≠ some (.pending id))
    (result : LoadResult) : l.settle url id result = l := by
  unfold settle
  split
  · next owner at_ =>
    split
    · next same => exact absurd (same ▸ at_) other
    · rfl
  · rfl

@[simp] theorem settle_loads (url : String) (id : Nat) (result : LoadResult) :
    (l.settle url id result).loads = l.loads := by
  unfold settle
  split
  · split
    · split <;> rfl
    · rfl
  · rfl

@[simp] theorem settle_scope (url : String) (id : Nat) (result : LoadResult) :
    (l.settle url id result).scope = l.scope := by
  unfold settle
  split
  · split
    · split <;> rfl
    · rfl
  · rfl

@[simp] theorem settle_base (url : String) (id : Nat) (result : LoadResult) :
    (l.settle url id result).base = l.base := by
  unfold settle
  split
  · split
    · split <;> rfl
    · rfl
  · rfl

@[simp] theorem setLoad_slot? (id : Nat) (load : Load) (url : String) :
    (l.setLoad id load).slot? url = l.slot? url := rfl

@[simp] theorem setLoad_loads (id : Nat) (load : Load) :
    (l.setLoad id load).loads = l.loads.set id load := rfl

theorem ensureRegistered_frame (name : String) (handle : EngineHandle) :
    (l.ensureRegistered name handle).2.slots = l.slots ∧
      (l.ensureRegistered name handle).2.loads = l.loads ∧
      (l.ensureRegistered name handle).2.base = l.base := by
  unfold ensureRegistered
  split <;> exact ⟨rfl, rfl, rfl⟩

theorem scope_ensureRegistered (name other : String) (handle : EngineHandle) :
    (l.ensureRegistered name handle).2.scope.lookup other =
      (l.scope.lookup other).or (if other = name then some handle else none) := by
  unfold ensureRegistered
  split
  · next bound known =>
    by_cases h : other = name
    · subst h; simp [known]
    · simp [h]
  · next fresh => simp [List.lookup_append, lookup_cons_ite]

theorem ensureRegistered_bound (name : String) (handle : EngineHandle) :
    (l.ensureRegistered name handle).2.scope.lookup name =
      some (l.ensureRegistered name handle).1 := by
  unfold ensureRegistered
  split
  · next bound known => exact known
  · next fresh => simp [List.lookup_append, fresh]

end EngineLoader

namespace EngineLoader

variable {l : EngineLoader}

theorem Orderly.failed_of_vacant (h : l.Orderly) {url : String} (vacant : l.slot? url = none)
    {id : Nat} {load : Load} (at_ : l.loads[id]? = some load) (same : load.url = url) :
    load.Failed := by
  cases ended : load.result with
  | none =>
    have slot := h.unfinished id load at_ ended
    rw [same, vacant] at slot
    cases slot
  | some result =>
    cases result with
    | ok handle =>
      have slot := (h.succeeded id load handle at_ ended).1
      rw [Holds, same, vacant] at slot
      cases slot
    | error e => exact ⟨e, ended⟩

theorem Orderly.begin (h : l.Orderly) {url : String} (vacant : l.slot? url = none) :
    (l.begin_ url).2.Orderly := by
  obtain ⟨attempt, loads⟩ := l.loads_begin url
  have elsewhere : ∀ {u : String} {slot : Slot}, l.slot? u = some slot →
      (l.begin_ url).2.slot? u = some slot := by
    intro u slot at_
    rw [slot?_begin, if_neg, at_]
    rintro rfl
    rw [vacant] at at_
    cases at_
  constructor
  case pending =>
    intro u id slot
    rw [slot?_begin] at slot
    rw [loads]
    split at slot
    · next same =>
      cases slot
      exact ⟨_, getElem?_snoc.2 (Or.inr ⟨rfl, rfl⟩), same.symm, rfl⟩
    · obtain ⟨load, at_, rest⟩ := h.pending u id slot
      exact ⟨load, getElem?_snoc.2 (Or.inl at_), rest⟩
  case unfinished =>
    intro id load at_ unfinished
    rw [loads] at at_
    rcases getElem?_snoc.1 at_ with old | ⟨rfl, rfl⟩
    · exact elsewhere (h.unfinished id load old unfinished)
    · rw [slot?_begin, if_pos rfl]
  case succeeded =>
    intro id load handle at_ ended
    rw [loads] at at_
    rcases getElem?_snoc.1 at_ with old | ⟨rfl, rfl⟩
    · obtain ⟨holds, named⟩ := h.succeeded id load handle old ended
      exact ⟨elsewhere holds, named⟩
    · cases ended
  case ready =>
    intro u handle holds
    rw [Holds, slot?_begin] at holds
    rw [loads]
    split at holds
    · cases holds
    · obtain ⟨id, load, at_, rest⟩ := h.ready u handle holds
      exact ⟨id, load, getElem?_snoc.2 (Or.inl at_), rest⟩
  case retried =>
    intro i j a b before first second same
    rw [loads] at first second
    rcases getElem?_snoc.1 first with old | ⟨rfl, rfl⟩
    · rcases getElem?_snoc.1 second with older | ⟨rfl, rfl⟩
      · exact h.retried i j a b before old older same
      · exact h.failed_of_vacant vacant old same
    · have inside := (List.getElem?_eq_some_iff.1 second).1
      simp at inside
      omega
  case bound =>
    intro name handle known
    exact elsewhere (h.bound name handle known)

theorem Orderly.retried_setLoad (h : l.Orderly) {id : Nat} {load new : Load}
    (at_ : l.loads[id]? = some load) (unfinished : load.result = none) {i j : Nat} {a b : Load}
    (before : i < j) (first : (l.setLoad id new).loads[i]? = some a)
    (second : (l.setLoad id new).loads[j]? = some b) (url : new.url = load.url)
    (same : a.url = b.url) : a.Failed := by
  rw [setLoad_loads] at first second
  rcases (getElem?_replaced at_).1 first with ⟨rfl, rfl⟩ | ⟨-, old⟩
  · rcases (getElem?_replaced at_).1 second with ⟨rfl, rfl⟩ | ⟨-, older⟩
    · omega
    · exact absurd (h.retried i j load b before at_ older (url.symm.trans same))
        (by simp [Load.Failed, unfinished])
  · rcases (getElem?_replaced at_).1 second with ⟨rfl, rfl⟩ | ⟨-, older⟩
    · exact h.retried i j a load before old at_ (same.trans url)
    · exact h.retried i j a b before old older same

theorem Orderly.hold (h : l.Orderly) {id : Nat} {load : Load} (turns : Nat)
    (at_ : l.loads[id]? = some load) (unfinished : load.result = none) :
    (l.setLoad id { load with turns := turns }).Orderly := by
  constructor
  case pending =>
    intro u owner slot
    obtain ⟨other, place, named, open_⟩ := h.pending u owner slot
    by_cases same : owner = id
    · subst same
      rw [at_] at place
      cases place
      exact ⟨_, (getElem?_replaced at_).2 (Or.inl ⟨rfl, rfl⟩), named, open_⟩
    · exact ⟨other, (getElem?_replaced at_).2 (Or.inr ⟨same, place⟩), named, open_⟩
  case unfinished =>
    intro i a place open_
    rcases (getElem?_replaced at_).1 place with ⟨rfl, rfl⟩ | ⟨-, old⟩
    · exact h.unfinished i load at_ unfinished
    · exact h.unfinished i a old open_
  case succeeded =>
    intro i a handle place ended
    rcases (getElem?_replaced at_).1 place with ⟨rfl, rfl⟩ | ⟨-, old⟩
    · rw [unfinished] at ended
      cases ended
    · exact h.succeeded i a handle old ended
  case ready =>
    intro u handle holds
    obtain ⟨i, a, place, named, ended⟩ := h.ready u handle holds
    refine ⟨i, a, (getElem?_replaced at_).2 (Or.inr ⟨?_, place⟩), named, ended⟩
    rintro rfl
    rw [at_] at place
    cases place
    rw [unfinished] at ended
    cases ended
  case retried =>
    intro i j a b before first second same
    exact h.retried_setLoad at_ unfinished before first second rfl same
  case bound =>
    exact h.bound

theorem Orderly.finish (h : l.Orderly) {id : Nat} {load : Load} {result : LoadResult}
    (at_ : l.loads[id]? = some load) (unfinished : load.result = none)
    (named : ∀ handle, result = .ok handle → handle.url = load.url) :
    ((l.setLoad id { load with result := some result }).settle load.url id result).Orderly := by
  have owned := h.unfinished id load at_ unfinished
  have slots := slot?_settle (l.setLoad id { load with result := some result }) owned result
  simp only [setLoad_slot?] at slots
  have elsewhere : ∀ {u : String} {handle : EngineHandle}, l.Holds u handle →
      ((l.setLoad id { load with result := some result }).settle load.url id result).Holds
        u handle := by
    intro u handle holds
    rw [Holds, slots, if_neg]
    · exact holds
    · rintro rfl
      rw [Holds, owned] at holds
      cases holds
  constructor
  case pending =>
    intro u owner slot
    rw [slots] at slot
    rw [settle_loads, setLoad_loads]
    split at slot
    · cases result <;> cases slot
    · next differs =>
      obtain ⟨other, place, named', open_⟩ := h.pending u owner slot
      refine ⟨other, (getElem?_replaced at_).2 (Or.inr ⟨?_, place⟩), named', open_⟩
      rintro rfl
      rw [at_] at place
      cases place
      exact differs named'.symm
  case unfinished =>
    intro i a place open_
    rw [settle_loads, setLoad_loads] at place
    rcases (getElem?_replaced at_).1 place with ⟨rfl, rfl⟩ | ⟨differs, old⟩
    · cases open_
    · have slot := h.unfinished i a old open_
      rw [slots, if_neg]
      · exact slot
      · intro same
        rw [same, owned] at slot
        cases slot
        exact differs rfl
  case succeeded =>
    intro i a handle place ended
    rw [settle_loads, setLoad_loads] at place
    rcases (getElem?_replaced at_).1 place with ⟨rfl, rfl⟩ | ⟨-, old⟩
    · cases ended
      refine ⟨?_, named handle rfl⟩
      rw [Holds, slots, if_pos rfl]
      rfl
    · obtain ⟨holds, named'⟩ := h.succeeded i a handle old ended
      exact ⟨elsewhere holds, named'⟩
  case ready =>
    intro u handle holds
    rw [Holds, slots] at holds
    rw [settle_loads, setLoad_loads]
    split at holds
    · next same =>
      cases result with
      | error e => cases holds
      | ok made =>
        cases holds
        exact ⟨id, _, (getElem?_replaced at_).2 (Or.inl ⟨rfl, rfl⟩), same.symm, rfl⟩
    · obtain ⟨i, a, place, named', ended⟩ := h.ready u handle holds
      refine ⟨i, a, (getElem?_replaced at_).2 (Or.inr ⟨?_, place⟩), named', ended⟩
      rintro rfl
      rw [at_] at place
      cases place
      rw [unfinished] at ended
      cases ended
  case retried =>
    intro i j a b before first second same
    rw [settle_loads] at first second
    exact h.retried_setLoad at_ unfinished before first second rfl same
  case bound =>
    intro name handle known
    rw [settle_scope] at known
    exact elsewhere (h.bound name handle known)

theorem Orderly.bind (h : l.Orderly) (name : String) {handle : EngineHandle}
    (held : l.Holds handle.url handle) : (l.ensureRegistered name handle).2.Orderly := by
  obtain ⟨slots, loads, -⟩ := l.ensureRegistered_frame name handle
  have same : ∀ u, (l.ensureRegistered name handle).2.slot? u = l.slot? u := by
    intro u
    rw [slot?, slot?, slots]
  constructor
  case pending =>
    simpa only [same, loads] using h.pending
  case unfinished =>
    simpa only [same, loads] using h.unfinished
  case succeeded =>
    simpa only [Holds, same, loads] using h.succeeded
  case ready =>
    simpa only [Holds, same, loads] using h.ready
  case retried =>
    simpa only [loads] using h.retried
  case bound =>
    intro other known at_
    rw [scope_ensureRegistered] at at_
    rw [Holds, same]
    rcases Option.or_eq_some_iff.1 at_ with old | ⟨-, new⟩
    · exact h.bound other known old
    · split at new
      · cases new
        exact held
      · cases new

end EngineLoader

end Playground
