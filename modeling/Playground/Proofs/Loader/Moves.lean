import Playground.Proofs.Loader.Schedule
import Playground.Proofs.Loader.Slots
import Mathlib.Logic.Relation

/-! Polls as moves. -/

namespace Playground

namespace Session

/-- The ways a session's loader moves. The events of a finished load are fetches. -/
inductive Move : Session → Session → Prop
  | begin (s : Session) (url : String) (vacant : s.loader.slot? url = none) :
      Move s ((s.withLoader (s.loader.begin_ url).2).record [.load url])
  | hold (s : Session) (id : Nat) (load : Load) (turns : Nat) (at_ : s.loader.loads[id]? = some load)
      (unfinished : load.result = none) :
      Move s (s.withLoader (s.loader.setLoad id { load with turns := turns }))
  | finish (s : Session) (id : Nat) (load : Load) (result : LoadResult) (events : List Event)
      (at_ : s.loader.loads[id]? = some load) (unfinished : load.result = none)
      (named : ∀ handle, result = .ok handle → handle.url = load.url)
      (quiet : ∀ url, Event.load url ∉ events) :
      Move s ((s.withLoader ((s.loader.setLoad id { load with result := some result }).settle
        load.url id result)).record events)
  | bind (s : Session) (name : String) (handle : EngineHandle)
      (held : s.loader.Holds handle.url handle) :
      Move s (s.withLoader (s.loader.ensureRegistered name handle).2)

abbrev Moves : Session → Session → Prop := Relation.ReflTransGen Move

end Session

namespace EngineLoader

/-- What a loader that has moved on still has. -/
structure Later (l l' : EngineLoader) : Prop where
  base : l'.base = l.base
  begun : ∀ (id : Nat) (load : Load), l.loads[id]? = some load →
    ∃ load' : Load, l'.loads[id]? = some load' ∧ load'.url = load.url ∧
      ∀ result, load.result = some result → load'.result = some result
  held : ∀ url handle, l.Holds url handle → l'.Holds url handle ∧
    (l'.loadsOf url).length = (l.loadsOf url).length
  bound : ∀ name handle, l.scope.lookup name = some handle → l'.scope.lookup name = some handle

theorem Later.refl (l : EngineLoader) : l.Later l where
  base := rfl
  begun := fun _ load at_ => ⟨load, at_, rfl, fun _ ended => ended⟩
  held := fun _ _ holds => ⟨holds, rfl⟩
  bound := fun _ _ known => known

theorem Later.trans {a b c : EngineLoader} (first : a.Later b) (second : b.Later c) : a.Later c where
  base := second.base.trans first.base
  begun := by
    intro id load at_
    obtain ⟨mid, at_, named, ended⟩ := first.begun id load at_
    obtain ⟨last, at_, named', ended'⟩ := second.begun id mid at_
    exact ⟨last, at_, named'.trans named, fun result h => ended' result (ended result h)⟩
  held := by
    intro url handle holds
    obtain ⟨holds, count⟩ := first.held url handle holds
    obtain ⟨holds, count'⟩ := second.held url handle holds
    exact ⟨holds, count'.trans count⟩
  bound := fun name handle known => second.bound name handle (first.bound name handle known)

theorem Later.outcome? {l l' : EngineLoader} (later : l.Later l') {id : Nat} {result : LoadResult}
    (ended : l.outcome? id = some result) : l'.outcome? id = some result := by
  obtain ⟨load, at_, ended⟩ := Option.bind_eq_some_iff.1 ended
  obtain ⟨load', at', -, kept⟩ := later.begun id load at_
  exact Option.bind_eq_some_iff.2 ⟨load', at', kept result ended⟩

theorem loadsOf_length (l : EngineLoader) (url : String) :
    (l.loadsOf url).length = (l.loads.map Load.url).count url := by
  rw [loadsOf, List.count, List.countP_map, List.countP_eq_length_filter]
  rfl

theorem loadsOf_begin (l : EngineLoader) (url u : String) :
    ((l.begin_ url).2.loadsOf u).length = (l.loadsOf u).length + if u = url then 1 else 0 := by
  obtain ⟨attempt, loads⟩ := l.loads_begin url
  rw [loadsOf_length, loadsOf_length, loads, List.map_append, List.count_append]
  by_cases same : u = url
  · simp [same]
  · simp [same, Ne.symm same]

theorem urls_replaced {loads : List Load} {id : Nat} {old : Load} (at_ : loads[id]? = some old)
    (new : Load) (same : new.url = old.url) : (loads.set id new).map Load.url = loads.map Load.url := by
  rw [List.map_set, same]
  apply List.ext_getElem?
  intro i
  by_cases here : i = id
  · subst here
    have inside := (List.getElem?_eq_some_iff.1 at_).1
    rw [List.getElem?_set_self (by simpa using inside), List.getElem?_map, at_]
    rfl
  · rw [List.getElem?_set_ne (Ne.symm here)]

theorem Later.begin (l : EngineLoader) {url : String} (vacant : l.slot? url = none) :
    l.Later (l.begin_ url).2 where
  base := rfl
  begun := by
    intro id load at_
    obtain ⟨attempt, loads⟩ := l.loads_begin url
    exact ⟨load, by rw [loads]; exact getElem?_snoc.2 (Or.inl at_), rfl, fun _ ended => ended⟩
  held := by
    intro u handle holds
    have differs : u ≠ url := by
      rintro rfl
      rw [Holds, vacant] at holds
      cases holds
    constructor
    · rw [Holds, slot?_begin, if_neg differs]
      exact holds
    · rw [loadsOf_begin, if_neg differs, Nat.add_zero]
  bound := fun _ _ known => known

theorem Later.replace (l : EngineLoader) {id : Nat} {old : Load} (at_ : l.loads[id]? = some old)
    (new : Load) (same : new.url = old.url) (unfinished : old.result = none) : l.Later (l.setLoad id new) where
  base := rfl
  begun := by
    intro i load place
    by_cases here : i = id
    · subst here
      rw [at_] at place
      cases place
      refine ⟨new, (getElem?_replaced at_).2 (Or.inl ⟨rfl, rfl⟩), same, ?_⟩
      intro result ended
      rw [unfinished] at ended
      cases ended
    · exact ⟨load, (getElem?_replaced at_).2 (Or.inr ⟨here, place⟩), rfl, fun _ ended => ended⟩
  held := by
    intro url handle holds
    refine ⟨holds, ?_⟩
    rw [loadsOf_length, loadsOf_length, setLoad_loads, urls_replaced at_ new same]
  bound := fun _ _ known => known

theorem Later.settle (l : EngineLoader) (url : String) (id : Nat) (result : LoadResult) :
    l.Later (l.settle url id result) where
  base := l.settle_base url id result
  begun := by
    intro i load at_
    exact ⟨load, by rw [settle_loads]; exact at_, rfl, fun _ ended => ended⟩
  held := by
    intro u handle holds
    refine ⟨?_, by rw [loadsOf, loadsOf, settle_loads]⟩
    by_cases owned : l.slot? url = some (.pending id)
    · rw [Holds, slot?_settle l owned, if_neg]
      · exact holds
      · rintro rfl
        rw [Holds, owned] at holds
        cases holds
    · rw [settle_other l owned]
      exact holds
  bound := by
    intro name handle known
    rw [settle_scope]
    exact known

theorem Later.bind (l : EngineLoader) (name : String) (handle : EngineHandle) :
    l.Later (l.ensureRegistered name handle).2 := by
  obtain ⟨slots, loads, base⟩ := l.ensureRegistered_frame name handle
  constructor
  · exact base
  · intro id load at_
    exact ⟨load, by rw [loads]; exact at_, rfl, fun _ ended => ended⟩
  · intro url held holds
    refine ⟨?_, by rw [loadsOf, loadsOf, loads]⟩
    rw [Holds, slot?, slots]
    exact holds
  · intro other known at_
    rw [scope_ensureRegistered, at_]
    rfl

end EngineLoader

namespace Session

namespace Move

variable {s s' : Session}

theorem orderly (move : Move s s') (h : s.loader.Orderly) : s'.loader.Orderly := by
  cases move with
  | begin url vacant => exact h.begin vacant
  | hold id load turns at_ unfinished => exact h.hold turns at_ unfinished
  | finish id load result events at_ unfinished named quiet => exact h.finish at_ unfinished named
  | bind name handle held => exact h.bind name held

theorem later (move : Move s s') : s.loader.Later s'.loader := by
  cases move with
  | begin url vacant => exact .begin s.loader vacant
  | hold id load turns at_ unfinished => exact .replace s.loader at_ _ rfl unfinished
  | finish id load result events at_ unfinished named quiet =>
    exact (EngineLoader.Later.replace s.loader at_ { load with result := some result } rfl
      unfinished).trans (.settle _ load.url id result)
  | bind name handle held => exact .bind s.loader name handle

theorem counted (move : Move s s')
    (h : ∀ url, s.trace.count (.load url) = (s.loader.loadsOf url).length) (url : String) :
    s'.trace.count (.load url) = (s'.loader.loadsOf url).length := by
  cases move with
  | begin u vacant =>
    rw [Session.record_trace, Session.withLoader_trace, List.count_append, h, Session.record_loader,
      Session.withLoader_loader, EngineLoader.loadsOf_begin]
    by_cases same : url = u
    · simp [same]
    · simp [same, Ne.symm same]
  | hold id load turns at_ unfinished =>
    rw [Session.withLoader_trace, h, Session.withLoader_loader, EngineLoader.loadsOf_length,
      EngineLoader.loadsOf_length, EngineLoader.setLoad_loads,
      EngineLoader.urls_replaced at_ { load with turns := turns } rfl]
  | finish id load result events at_ unfinished named quiet =>
    rw [Session.record_trace, Session.withLoader_trace, List.count_append,
      List.count_eq_zero.2 (quiet url), h, Session.record_loader, Session.withLoader_loader,
      EngineLoader.loadsOf_length, EngineLoader.loadsOf_length, EngineLoader.settle_loads,
      EngineLoader.setLoad_loads,
      EngineLoader.urls_replaced at_ { load with result := some result } rfl, Nat.add_zero]
  | bind name handle held =>
    rw [Session.withLoader_trace, h, Session.withLoader_loader, EngineLoader.loadsOf,
      EngineLoader.loadsOf, (s.loader.ensureRegistered_frame name handle).2.1]

end Move

namespace Moves

variable {s s' : Session}

theorem orderly (moves : Moves s s') (h : s.loader.Orderly) : s'.loader.Orderly := by
  induction moves with
  | refl => exact h
  | tail _ move ih => exact move.orderly ih

theorem later (moves : Moves s s') : s.loader.Later s'.loader := by
  induction moves with
  | refl => exact .refl _
  | tail _ move ih => exact ih.trans move.later

theorem counted (moves : Moves s s')
    (h : ∀ url, s.trace.count (.load url) = (s.loader.loadsOf url).length) (url : String) :
    s'.trace.count (.load url) = (s'.loader.loadsOf url).length := by
  induction moves generalizing url with
  | refl => exact h url
  | tail _ move ih => exact move.counted ih url

end Moves

end Session

end Playground
