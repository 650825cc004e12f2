import Playground.Proofs.Compile.History

/-! What stands in for an output is the last good one. -/

namespace Playground

namespace Host

structure SameBook (h h' : Host) : Prop where
  registry : h'.registry = h.registry
  lastGood : h'.lastGood = h.lastGood

namespace SameBook

variable {h h' h'' : Host}

theorem refl (h : Host) : h.SameBook h := ⟨rfl, rfl⟩

theorem trans (first : h.SameBook h') (second : h'.SameBook h'') : h.SameBook h'' :=
  ⟨second.registry.trans first.registry, second.lastGood.trans first.lastGood⟩

theorem withSession (h : Host) (s : Session) : h.SameBook (h.withSession s) := ⟨rfl, rfl⟩

end SameBook

variable {ω : Type} (env : Surroundings) (worker : Option (IsolatedWorker ω))

theorem compilerFor_book (l : LanguageSpec) (h : Host) : h.SameBook (h.compilerFor env l).2 := by
  unfold compilerFor
  split
  · exact .refl h
  · split <;> exact ⟨rfl, rfl⟩

theorem runPrimary_book (l : LanguageSpec) (source : String) (config : Config) (h : Host) :
    h.SameBook (h.runPrimary env l source config).2 := by
  have made := compilerFor_book env l h
  unfold runPrimary
  generalize h.compilerFor env l = x at made
  obtain ⟨result, h'⟩ := x
  cases result with
  | error e => exact made
  | ok c => exact made.trans (.withSession h' _)

theorem dispatchPrimary_book (l : LanguageSpec) (source : String) (config : Config)
    (state : Host × ω) :
    state.1.SameBook (dispatchPrimary env worker l source config state).2.1 := by
  cases worker with
  | some worker => exact .refl state.1
  | none => exact runPrimary_book env l source config state.1

theorem compileNested_book (language source : String) (config : Config) (state : Host × ω) :
    state.1.SameBook (compileNested env worker language source config state).2.1 := by
  unfold compileNested
  split
  · exact .refl state.1
  · split
    · exact .refl state.1
    · exact dispatchPrimary_book env worker _ source config state

theorem runMdx_book (l : LanguageSpec) (code : String) (config : Config) (state : Host × ω) :
    state.1.SameBook (runMdx env worker l code config state).2.1 := by
  unfold runMdx
  split
  · exact .refl state.1
  · dsimp only
    split
    · exact .withSession state.1 _
    · next jsx s _ =>
      exact (SameBook.withSession state.1 s).trans
        (compileNested_book env worker "jsx" (Mdx.wrap jsx) config (state.1.withSession s, state.2))

theorem runSecondary_book (pass : SecondaryPass) (l : LanguageSpec) (code : String)
    (config : Config) (state : Host × ω) :
    state.1.SameBook (runSecondary env worker pass l code config state).2.1 := by
  cases pass with
  | mdx => exact runMdx_book env worker l code config state
  | nest language => exact compileNested_book env worker language code config state
  | graph handlers => exact .withSession state.1 _

theorem runPasses_book (l : LanguageSpec) (source : String) (config : Config) (state : Host × ω) :
    state.1.SameBook (runPasses env worker l source config state).2.1 := by
  have first := dispatchPrimary_book env worker l source config state
  unfold runPasses
  generalize dispatchPrimary env worker l source config state = x at first
  obtain ⟨result, state'⟩ := x
  cases result with
  | error e => exact first
  | ok primary =>
    dsimp only
    split
    · exact first
    · next pass _ =>
      have second := runSecondary_book env worker pass l primary.code config state'
      generalize runSecondary env worker pass l primary.code config state' = x at second
      obtain ⟨result, state''⟩ := x
      cases result <;> exact first.trans second

def remember (r : CompileRequest) (result : Except CompileError CompileOutput)
    (known : List (String × CompileOutput)) : List (String × CompileOutput) :=
  match result with
  | .ok output => if r.source.isEmpty then known else upsert r.language output known
  | .error _ => known

theorem compile_book (r : CompileRequest) (state : Host × ω) :
    (compile env worker r state).2.1.registry = state.1.registry ∧
      (compile env worker r state).2.1.lastGood =
        remember r (compile env worker r state).1 state.1.lastGood := by
  unfold compile
  split
  · exact ⟨rfl, rfl⟩
  · next l found =>
    obtain ⟨-, name⟩ := LanguageRegistry.named_of_resolve found
    split
    · next empty => exact ⟨rfl, by simp [remember, empty]⟩
    · next some_ =>
      have passes := runPasses_book env worker l r.source r.config state
      generalize runPasses env worker l r.source r.config state = x at passes
      obtain ⟨result, h, w⟩ := x
      cases result with
      | error e => exact ⟨passes.registry, passes.lastGood⟩
      | ok c =>
        refine ⟨passes.registry, ?_⟩
        rw [remember, if_neg some_, ← name, ← passes.lastGood]

theorem emptyOutput_of_registry {h h' : Host} (same : h'.registry = h.registry) (language : String) :
    h'.emptyOutput language = h.emptyOutput language := by
  rw [emptyOutput, emptyOutput, same]

end Host

/-- A call on a host, with the surroundings it is made in and the worker it is given. -/
structure HostTurn (ω : Type) where
  env : Surroundings
  worker : Option (IsolatedWorker ω)
  call : HostCall

structure HostRecord where
  request : CompileRequest
  result : Except CompileError CompileOutput

/-- The output of the latest success of a language over a source that is not empty; the latest record
stands first. -/
def latestOutput? (language : String) (records : List HostRecord) : Option CompileOutput :=
  records.findSome? fun r =>
    if r.request.language = language ∧ ¬ r.request.source.isEmpty = true then r.result.toOption
    else none

namespace Host

variable {ω : Type}

/-- The answer to a call, told apart by whether something else stood in for the output. -/
def answer (turn : HostTurn ω) (state : Host × ω) :
    Except CompileError CompileOutput × (Host × ω) :=
  match turn.call with
  | .compile request => compile turn.env turn.worker request state
  | .compileOrRecover request fallback =>
    let (recovered, state) := compileOrRecover turn.env turn.worker request fallback state
    match recovered.error with
    | none => (.ok recovered.output, state)
    | some e => (.error e, state)

theorem answer_eq (turn : HostTurn ω) (state : Host × ω) :
    answer turn state = compile turn.env turn.worker turn.call.request state := by
  unfold answer
  cases turn.call with
  | compile request => rfl
  | compileOrRecover request fallback =>
    dsimp only
    rw [compileOrRecover, HostCall.request]
    generalize compile turn.env turn.worker request state = x
    obtain ⟨_ | _, _⟩ := x <;> rfl

def attend (past : List HostRecord × (Host × ω)) (turn : HostTurn ω) :
    List HostRecord × (Host × ω) :=
  let (result, state) := answer turn past.2
  (⟨turn.call.request, result⟩ :: past.1, state)

/-- The records of some calls made one after the other, the latest first, and the state after them. -/
def attended (turns : List (HostTurn ω)) (state : Host × ω) : List HostRecord × (Host × ω) :=
  turns.foldl attend ([], state)

def Recalls (records : List HostRecord) (h : Host) : Prop :=
  ∀ language, h.lastGood.lookup language = latestOutput? language records

theorem recalls_attend {past : List HostRecord × (Host × ω)} (recalls : past.2.1.Recalls past.1)
    (turn : HostTurn ω) : (attend past turn).2.1.Recalls (attend past turn).1 := by
  intro language
  have kept := (compile_book turn.env turn.worker turn.call.request past.2).2
  unfold attend
  rw [answer_eq]
  dsimp only
  rw [kept, latestOutput?, List.findSome?_cons, ← latestOutput?, ← recalls language]
  cases (compile turn.env turn.worker turn.call.request past.2).1 with
  | error e =>
    rw [remember]
    split
    · next value told => split at told <;> cases told
    · rfl
  | ok output =>
    rw [remember]
    dsimp only
    by_cases empty : turn.call.request.source.isEmpty = true
    · rw [if_pos empty, if_neg (by simp [empty])]
    · rw [if_neg empty, lookup_upsert]
      by_cases same : language = turn.call.request.language
      · rw [if_pos same, if_pos ⟨same.symm, empty⟩]
        rfl
      · rw [if_neg same, if_neg fun both => same both.1.symm]

theorem registry_attend (past : List HostRecord × (Host × ω)) (turn : HostTurn ω) :
    (attend past turn).2.1.registry = past.2.1.registry := by
  rw [attend, answer_eq]
  exact (compile_book turn.env turn.worker turn.call.request past.2).1

theorem recalls_attended (turns : List (HostTurn ω)) {h : Host} (new : h.lastGood = []) (w : ω) :
    (attended turns (h, w)).2.1.Recalls (attended turns (h, w)).1 ∧
      (attended turns (h, w)).2.1.registry = h.registry := by
  refine List.foldlRecOn (motive := fun past : List HostRecord × (Host × ω) =>
    past.2.1.Recalls past.1 ∧ past.2.1.registry = h.registry) turns _ ⟨?_, rfl⟩ ?_
  · intro language
    rw [new]
    rfl
  · rintro past ⟨recalls, registry⟩ turn -
    exact ⟨recalls_attend recalls turn, (registry_attend past turn).trans registry⟩

end Host

/-- Whatever calls were made on a host that knew no good output, in whatever surroundings and with
whatever workers: a compile that fails and falls back on the last good output is answered with that of
the latest call that succeeded in the same language with a source that is not empty, or with an empty
output if there was none. A call that fails, has an empty source or is for another language does not
change what that is. -/
theorem recovery_exact {ω : Type} (registry : LanguageRegistry) (session : Session)
    (compilers : List (String × Compiler)) (w : ω) (turns : List (HostTurn ω)) :
    let new : Host := ⟨registry, session, compilers, []⟩
    let (records, state) := Host.attended turns (new, w)
    (∀ env worker (request : CompileRequest) e,
      (Host.compile env worker request state).1 = .error e →
        (Host.compileOrRecover env worker request .lastGood state).1 =
          ⟨(latestOutput? request.language records).getD (new.emptyOutput request.language),
            some e⟩) ∧
    (∀ (turn : HostTurn ω) language,
      (∀ output, (Host.answer turn state).1 = .ok output →
        turn.call.request.language = language → turn.call.request.source = "") →
      ∀ e, (Host.answer turn state).2.1.fallbackOutput language .lastGood e =
        state.1.fallbackOutput language .lastGood e) := by
  intro new
  obtain ⟨recalls, same⟩ := Host.recalls_attended turns (h := new) rfl w
  dsimp only
  generalize Host.attended turns (new, w) = past at recalls same
  obtain ⟨records, state⟩ := past
  dsimp only at recalls same ⊢
  constructor
  · intro env worker request e failed
    obtain ⟨registry, known⟩ := Host.compile_book env worker request state
    rw [Host.compileOrRecover]
    generalize Host.compile env worker request state = x at failed registry known
    obtain ⟨result, after⟩ := x
    cases failed
    dsimp only at registry known ⊢
    rw [Host.fallbackOutput, known, Host.remember, recalls,
      Host.emptyOutput_of_registry (registry.trans same)]
  · intro turn language spared e
    obtain ⟨registry, known⟩ := Host.compile_book turn.env turn.worker turn.call.request state
    rw [Host.answer_eq] at spared ⊢
    have looked : (Host.compile turn.env turn.worker turn.call.request state).2.1.lastGood.lookup
        language = state.1.lastGood.lookup language := by
      rw [known, Host.remember.eq_def]
      split
      · next output succeeded =>
        split
        · rfl
        · next some_ =>
          rw [lookup_upsert, if_neg]
          intro own
          exact some_ (by rw [spared output succeeded own.symm]; rfl)
      · rfl
    rw [Host.fallbackOutput, Host.fallbackOutput, looked, Host.emptyOutput_of_registry registry]

def goneWorker : IsolatedWorker Unit := ⟨fun _ _ _ w => (.error (.worker "gone"), w)⟩

/-- A style sheet, then an empty one, a page and a style sheet that was lost on the way to a worker. -/
def stylesheetTurns : List (HostTurn Unit) :=
  [⟨sharedSurroundings, none, .compile ⟨"css", "a", .standard⟩⟩,
    ⟨sharedSurroundings, none, .compileOrRecover ⟨"css", "", .standard⟩ .lastGood⟩,
    ⟨sharedSurroundings, none, .compile ⟨"html", "b", .standard⟩⟩,
    ⟨sharedSurroundings, some goneWorker, .compileOrRecover ⟨"css", "c", .standard⟩ .errorMarker⟩]

theorem stylesheet_recovered :
    let state := (Host.attended stylesheetTurns (⟨.builtin, .new "", [], []⟩, ())).2
    (Host.compileOrRecover sharedSurroundings (some goneWorker) ⟨"css", "d", .standard⟩ .lastGood
      state).1 = ⟨⟨"a", "css", [], [], []⟩, some (.worker "gone")⟩ := by
  have exact_ := (recovery_exact .builtin (.new "") [] () stylesheetTurns).1 sharedSurroundings
    (some goneWorker) ⟨"css", "d", .standard⟩ (.worker "gone") (by rfl)
  exact exact_.trans (by rfl)

end Playground
