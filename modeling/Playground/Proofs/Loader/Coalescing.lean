import Playground.Proofs.Loader.Answers

/-! Loads coalesce. -/

namespace Playground

theorem Load.failed_iff (load : Load) :
    load.Failed ↔ (load.result.any fun result => !result.isOk) = true := by
  unfold Failed
  cases load.result with
  | none => simp
  | some result => cases result <;> simp [Except.isOk, Except.toBool]

instance (load : Load) : Decidable load.Failed := decidable_of_iff _ load.failed_iff.symm

namespace EngineLoader

theorem Orderly.pairwise (l : EngineLoader) (h : l.Orderly) (url : String) :
    (l.loadsOf url).Pairwise fun earlier _ => earlier.Failed := by
  have all : l.loads.Pairwise fun a b => a.url = b.url → a.Failed := by
    rw [List.pairwise_iff_getElem]
    intro i j before_end inside before same
    exact h.retried i j _ _ before (List.getElem?_eq_getElem before_end)
      (List.getElem?_eq_getElem inside) same
  apply (all.filter fun load => load.url == url).imp_of_mem
  intro a b first second failed
  have named_a := (List.mem_filter.1 first).2
  have named_b := (List.mem_filter.1 second).2
  exact failed ((eq_of_beq named_a).trans (eq_of_beq named_b).symm)

theorem length_le_of_pairwise {α : Type} {items : List α} (q : α → Bool)
    (all : items.Pairwise fun a _ => q a = true) : items.length ≤ 1 + items.countP q := by
  induction items with
  | nil => simp
  | cons a rest ih =>
    obtain ⟨first, later⟩ := List.pairwise_cons.1 all
    cases rest with
    | nil => simp
    | cons b more =>
      have counted := ih later
      rw [List.countP_cons_of_pos (first b (by simp)), List.length_cons]
      omega

theorem advance_urls (env : Surroundings) (wait : Bool) (id : Nat) (s : Session) :
    (s.advance env wait id).2.loader.loads.map Load.url = s.loader.loads.map Load.url := by
  unfold Session.advance
  cases at_ : s.loader.loads[id]? with
  | none => rfl
  | some load =>
    dsimp only
    cases ended : load.result with
    | some outcome => rfl
    | none =>
      dsimp only
      split
      · exact urls_replaced at_ _ rfl
      · exact urls_replaced at_ _ rfl

theorem pollLoad_loadsOf (env : Surroundings) (url : String) (id : Nat) (global : Option String)
    (s : Session) (u : String) :
    ((Session.poll.pollLoad env url id global s).2.loader.loadsOf u).length =
      (s.loader.loadsOf u).length := by
  have urls := advance_urls env false id s
  rw [loadsOf_length, loadsOf_length, ← urls]
  unfold Session.poll.pollLoad
  generalize s.advance env false id = out
  obtain ⟨answer, s'⟩ := out
  cases answer with
  | none => rfl
  | some outcome =>
    dsimp only [Session.conclude]
    rw [Session.withLoader_loader, (deliver_frame _ _ _).2, settle_loads]

theorem enter_loadsOf (call : LoadCall) (s : Session) (u : String) :
    ((s.enter call).2.loader.loadsOf u).length = (s.loader.loadsOf u).length ∨
      s.loader.slot? u = none ∧
        ((s.enter call).2.loader.loadsOf u).length = (s.loader.loadsOf u).length + 1 := by
  unfold Session.enter
  split
  · exact Or.inl rfl
  · dsimp only
    split
    · left
      rw [loadsOf, Session.withLoader_loader, (deliver_frame _ _ _).2]
      rfl
    · exact Or.inl rfl
    · next vacant =>
      rw [Session.record_loader, Session.withLoader_loader, loadsOf_begin]
      split
      · next same => exact Or.inr ⟨same ▸ vacant, rfl⟩
      · exact Or.inl rfl

theorem poll_loadsOf (env : Surroundings) (w : Waiter) (s : Session) (u : String) :
    ((s.poll env w).2.loader.loadsOf u).length = (s.loader.loadsOf u).length ∨
      s.loader.slot? u = none ∧
        ((s.poll env w).2.loader.loadsOf u).length = (s.loader.loadsOf u).length + 1 := by
  cases w with
  | waiting url id global => exact Or.inl (pollLoad_loadsOf env url id global s u)
  | unstarted call =>
    have entered := enter_loadsOf call s u
    simp only [Session.poll]
    generalize s.enter call = out at entered
    obtain ⟨place, s'⟩ := out
    cases place with
    | done result => exact entered
    | waiting url id =>
      dsimp only
      rw [pollLoad_loadsOf]
      exact entered

end EngineLoader

namespace LoadPool

open EngineLoader

theorem step_loadsOf (p : LoadPool) (act : LoadAct) (u : String) :
    ((p.step act).loader.loadsOf u).length = (p.loader.loadsOf u).length ∨
      p.loader.slot? u = none ∧
        ((p.step act).loader.loadsOf u).length = (p.loader.loadsOf u).length + 1 := by
  cases act with
  | start call => exact Or.inl rfl
  | poll env i =>
    simp only [step]
    split
    · exact poll_loadsOf env _ p.session u
    · exact Or.inl rfl
  | drop i =>
    simp only [step]
    split <;> exact Or.inl rfl
  | register name i =>
    simp only [step]
    split
    · next handle at_ =>
      left
      rw [loadsOf, loader, Session.withLoader_loader, (ensureRegistered_frame _ name _).2.1]
      rfl
    · exact Or.inl rfl

theorem failed_of_vacant {p : LoadPool} (h : p.Sound) {url : String}
    (vacant : p.loader.slot? url = none) (load : Load) (begun : load ∈ p.loader.loadsOf url) :
    load.Failed := by
  obtain ⟨member, named⟩ := List.mem_filter.1 begun
  obtain ⟨id, at_⟩ := List.getElem?_of_mem member
  exact h.orderly.failed_of_vacant vacant at_ (eq_of_beq named)

/-- In every state that calls, polls and drops lead to, for every URL: one load at most is
unfinished; all but the newest have failed; an act that begins another begins one, and after
failures only; after a success none begins; and the source was asked at most once more often than
loads have failed. -/
theorem loads_coalesce (base : String) (acts : List LoadAct) (url : String) :
    let p := (start base).run acts
    let loads := p.loader.loadsOf url
    (loads.filter fun load => load.result.isNone).length ≤ 1 ∧
      loads.Pairwise (fun earlier _ => earlier.Failed) ∧
      (∀ act, ((p.step act).loader.loadsOf url).length ≠ loads.length →
        ((p.step act).loader.loadsOf url).length = loads.length + 1 ∧
          ∀ load ∈ loads, load.Failed) ∧
      (∀ load ∈ loads, ∀ handle, load.result = some (.ok handle) →
        ∀ more, ((p.run more).loader.loadsOf url).length = loads.length) ∧
      p.session.trace.count (.load url) = loads.length ∧
      p.session.trace.count (.load url) ≤ 1 + loads.countP (·.Failed) := by
  intro p loads
  have h : p.Sound := run_sound base acts
  have failed : loads.Pairwise fun earlier _ => earlier.Failed := h.orderly.pairwise _ url
  have bounded : loads.length ≤ 1 + loads.countP (·.Failed) := by
    apply length_le_of_pairwise
    simpa using failed
  refine ⟨?_, failed, ?_, ?_, h.counted url, by rw [h.counted url]; exact bounded⟩
  · have split := List.length_eq_countP_add_countP (fun load : Load => decide load.Failed) (l := loads)
    have open_ : loads.countP (fun load => load.result.isNone) ≤
        loads.countP (fun load => decide ¬(decide load.Failed = true)) := by
      apply List.countP_mono_left
      intro load _ unfinished
      simp only [Option.isNone_iff_eq_none] at unfinished
      simp [Load.Failed, unfinished]
    rw [← List.countP_eq_length_filter]
    omega
  · intro act changed
    rcases step_loadsOf p act url with same | ⟨vacant, more⟩
    · exact absurd same changed
    · exact ⟨more, failed_of_vacant h vacant⟩
  · intro load begun handle ended more
    obtain ⟨member, named⟩ := List.mem_filter.1 begun
    obtain ⟨id, at_⟩ := List.getElem?_of_mem member
    have held := (h.orderly.succeeded id load handle at_ ended).1
    rw [eq_of_beq named] at held
    exact ((run_moves h more).later.held url handle held).2

end LoadPool

end Playground
