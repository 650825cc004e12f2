import Playground.Proofs.Compile.Current

/-! Compiling does not depend on what was compiled before. -/

namespace Playground

open Html

/-- A worker that answers without regard to its own state. -/
def IsolatedWorker.IsSteady {ω : Type} (worker : IsolatedWorker ω) : Prop :=
  ∀ language source config, Steady (fun _ => True) (worker.compile language source config)

namespace Host

variable {env : Surroundings} {base : String} {r : LanguageRegistry} {l : LanguageSpec}
variable {right : LoadCall → EngineHandle → Prop} {ω ω' : Type}

/-- Two hosts that hold the right things, each beside a worker, the workers' states related. -/
structure Beside (env : Surroundings) (base : String) (r : LanguageRegistry)
    (right : LoadCall → EngineHandle → Prop) (V : ω → ω' → Prop) (state : Host × ω)
    (state' : Host × ω') : Prop where
  current : state.1.Current env base r right
  current' : state'.1.Current env base r right
  workers : V state.2 state'.2

variable {V : ω → ω' → Prop}

theorem beside_alike {α : Type} {f : Host → α × Host}
    (steady : Steady (Current env base r right) f) :
    Alike (Beside env base r right V) (fun state => ((f state.1).1, (f state.1).2, state.2))
      fun state => ((f state.1).1, (f state.1).2, state.2) :=
  steady.alike (fun _ _ both => both.current) (fun _ _ both => both.current')
    fun _ _ _ _ both current current' => ⟨current, current', both.workers⟩

/-- Beside either worker the primary pass of a language over a source, which is not empty, has the
same result. -/
def Routed (env : Surroundings) (base : String) (r : LanguageRegistry)
    (right : LoadCall → EngineHandle → Prop) (V : ω → ω' → Prop)
    (worker : Option (IsolatedWorker ω)) (worker' : Option (IsolatedWorker ω')) (config : Config)
    (language source : String) : Prop :=
  ¬ source.isEmpty = true → ∀ l, r.named? language = some l →
    Alike (Beside env base r right V) (dispatchPrimary env worker l source config)
      (dispatchPrimary env worker' l source config)

/-- The primary passes that the passes of a language over a source may call for: its own, and one
that its secondary pass brings. -/
inductive Asks (env : Surroundings) (base : String) (r : LanguageRegistry)
    (right : LoadCall → EngineHandle → Prop) (worker : Option (IsolatedWorker ω))
    (l : LanguageSpec) (source : String) (config : Config) : String → String → Prop
  | primary : Asks env base r right worker l source config l.name source
  | nested {state : Host × ω} {primary : Compiled} {language : String}
      (current : state.1.Current env base r right)
      (compiled : (dispatchPrimary env worker l source config state).1 = .ok primary)
      (own : l.secondary = some (.nest language)) :
      Asks env base r right worker l source config language primary.code
  | jsx {state : Host × ω} {primary : Compiled} {s : Session} {jsx : String}
      (current : state.1.Current env base r right)
      (compiled : (dispatchPrimary env worker l source config state).1 = .ok primary)
      (own : l.secondary = some .mdx) (holds : Session.Holds base r.calls right s)
      (made : (s.mdxToJsx env l.name primary.code config).1 = .ok jsx) :
      Asks env base r right worker l source config "jsx" (Mdx.wrap jsx)

variable {worker : Option (IsolatedWorker ω)} {worker' : Option (IsolatedWorker ω')}

theorem compileNested_alike {language source : String} {config : Config}
    (routed : Routed env base r right V worker worker' config language source) :
    Alike (Beside env base r right V) (compileNested env worker language source config)
      (compileNested env worker' language source config) := by
  intro s t both
  rw [compileNested, compileNested, both.current.registry, both.current'.registry]
  cases found : r.resolve language with
  | error e => exact ⟨_, _, _, rfl, rfl, both⟩
  | ok l =>
    dsimp only
    split
    · exact ⟨_, _, _, rfl, rfl, both⟩
    · next some_ => exact routed some_ l (LanguageRegistry.named_of_resolve found).1 s t both

variable (settles : Session.Settles env base r.calls right)
include settles

theorem runMdx_alike (mem : ⟨mdxUrl, none⟩ ∈ r.calls) {code : String} {config : Config}
    (routed : ∀ s jsx, Session.Holds base r.calls right s →
      (s.mdxToJsx env l.name code config).1 = .ok jsx →
        Routed env base r right V worker worker' config "jsx" (Mdx.wrap jsx)) :
    Alike (Beside env base r right V) (runMdx env worker l code config)
      (runMdx env worker' l code config) := by
  intro s t both
  unfold runMdx
  split
  · exact ⟨_, _, _, rfl, rfl, both⟩
  · have steady := Session.mdxToJsx_steady settles mem l.name code config
    have same := steady.same _ _ both.current.session both.current'.session
    have kept := both.current.withSession (steady.keeps _ both.current.session)
    have kept' := both.current'.withSession (steady.keeps _ both.current'.session)
    have asks := routed s.1.session
    dsimp only
    cases ran : s.1.session.mdxToJsx env l.name code config with
    | mk result session =>
      cases ran' : t.1.session.mdxToJsx env l.name code config with
      | mk result' session' =>
        rw [ran] at same kept asks
        rw [ran'] at same kept'
        cases same
        cases result with
        | error e => exact ⟨_, _, _, rfl, rfl, kept, kept', both.workers⟩
        | ok jsx =>
          obtain ⟨a, s', t', nested, nested', after⟩ :=
            compileNested_alike (asks jsx both.current.session rfl) (s.1.withSession session, s.2)
              (t.1.withSession session', t.2) ⟨kept, kept', both.workers⟩
          dsimp only
          rw [nested, nested']
          exact ⟨_, _, _, rfl, rfl, after⟩

theorem runSecondary_alike {pass : SecondaryPass} (known : r.named? l.name = some l)
    (own : l.secondary = some pass) {code : String} {config : Config}
    (nested : ∀ language, pass = .nest language →
      Routed env base r right V worker worker' config language code)
    (jsx : pass = .mdx → ∀ s jsx, Session.Holds base r.calls right s →
      (s.mdxToJsx env l.name code config).1 = .ok jsx →
        Routed env base r right V worker worker' config "jsx" (Mdx.wrap jsx)) :
    Alike (Beside env base r right V) (runSecondary env worker pass l code config)
      (runSecondary env worker' pass l code config) := by
  cases pass with
  | mdx =>
    refine runMdx_alike settles (calls_of_named known _ ?_) (jsx rfl)
    rw [LanguageSpec.calls, own]
    exact List.mem_append_right _ List.mem_cons_self
  | nest language => exact compileNested_alike (nested language rfl)
  | graph handlers =>
    have within : ∀ h ∈ handlers, h.call ∈ r.calls :=
      fun h mem => calls_of_named known _ (calls_of_secondary own h mem)
    exact beside_alike (lift_steady ((Session.runMain_steady settles within code).map
      (Session.compiledPass l.name)))

theorem runPasses_alike (known : r.named? l.name = some l) {source : String} {config : Config}
    (some_ : ¬ source.isEmpty = true)
    (routed : ∀ language source', Asks env base r right worker l source config language source' →
      Routed env base r right V worker worker' config language source') :
    Alike (Beside env base r right V) (runPasses env worker l source config)
      (runPasses env worker' l source config) := by
  intro s t both
  obtain ⟨result, s', t', ran, ran', kept⟩ := routed _ _ .primary some_ l known s t both
  have compiled := congrArg Prod.fst ran
  rw [runPasses, runPasses, ran, ran']
  cases result with
  | error e => exact ⟨_, _, _, rfl, rfl, kept⟩
  | ok primary =>
    dsimp only
    cases own : l.secondary with
    | none => exact ⟨_, _, _, rfl, rfl, kept⟩
    | some pass =>
      obtain ⟨result, s'', t'', passed, passed', after⟩ :=
        runSecondary_alike settles known own
          (fun language same => routed _ _ (.nested both.current compiled (same ▸ own)))
          (fun same s jsx holds made =>
            routed _ _ (.jsx both.current compiled (same ▸ own) holds made)) s' t' kept
      dsimp only
      rw [passed, passed']
      cases result <;> exact ⟨_, _, _, rfl, rfl, after⟩

theorem compile_alike {request : CompileRequest}
    (routed : ∀ l, r.named? request.language = some l → ∀ language source,
      Asks env base r right worker l request.source request.config language source →
        Routed env base r right V worker worker' request.config language source) :
    Alike (Beside env base r right V) (compile env worker request)
      (compile env worker' request) := by
  intro s t both
  rw [compile, compile, both.current.registry, both.current'.registry]
  cases found : r.resolve request.language with
  | error e => exact ⟨_, _, _, rfl, rfl, both⟩
  | ok l =>
    obtain ⟨known, name⟩ := LanguageRegistry.named_of_resolve found
    dsimp only
    split
    · exact ⟨_, _, _, rfl, rfl, both⟩
    · next some_ =>
      obtain ⟨result, ⟨h, w⟩, ⟨h', w'⟩, ran, ran', kept⟩ :=
        runPasses_alike settles (name ▸ known) some_ (routed l known) s t both
      rw [ran, ran']
      cases result with
      | error e => exact ⟨_, _, _, rfl, rfl, kept⟩
      | ok c =>
        obtain ⟨current, current', workers⟩ := kept
        exact ⟨_, _, _, rfl, rfl, ⟨current.registry, current.session, current.compilers⟩,
          ⟨current'.registry, current'.session, current'.compilers⟩, workers⟩

theorem routed_steady (steady : ∀ w ∈ worker, w.IsSteady) (config : Config)
    (language source : String) :
    Routed env base r right (fun _ _ => True) worker worker config language source := by
  intro _ l known
  have own : r.named? l.name = some l := (LanguageRegistry.mem_of_named? known).2 ▸ known
  cases worker with
  | none => exact beside_alike (runPrimary_steady settles own source config)
  | some worker =>
    intro s t both
    have answers := (steady worker rfl l.name source config).same s.2 t.2 trivial trivial
    exact ⟨_, (s.1, _), (t.1, _), rfl, Prod.ext answers.symm rfl, both.current, both.current',
      trivial⟩

end Host

inductive HostCall
  | compile (request : CompileRequest)
  | compileOrRecover (request : CompileRequest) (fallback : Fallback)

section History

variable {ω : Type} (env : Surroundings) (worker : Option (IsolatedWorker ω))

def Host.act (state : Host × ω) : HostCall → Host × ω
  | .compile request => (Host.compile env worker request state).2
  | .compileOrRecover request fallback =>
    (Host.compileOrRecover env worker request fallback state).2

/-- The host and its worker once calls have been made one after the other. -/
def Host.after (earlier : List HostCall) (state : Host × ω) : Host × ω :=
  earlier.foldl (Host.act env worker) state

def HostCall.request : HostCall → CompileRequest
  | .compile request | .compileOrRecover request _ => request

theorem Host.act_eq (state : Host × ω) (call : HostCall) :
    Host.act env worker state call = (Host.compile env worker call.request state).2 := by
  cases call with
  | compile request => rfl
  | compileOrRecover request fallback =>
    rw [act, compileOrRecover, HostCall.request]
    generalize compile env worker request state = x
    obtain ⟨_ | _, _⟩ := x <;> rfl

end History

variable {env : Surroundings} {base : String}

theorem Host.after_beside {ω ω' : Type} {worker : Option (IsolatedWorker ω)}
    {worker' : Option (IsolatedWorker ω')} {right : LoadCall → EngineHandle → Prop}
    {r : LanguageRegistry} {V : ω → ω' → Prop} {earlier : List HostCall}
    (alike : ∀ call ∈ earlier, Alike (Beside env base r right V)
      (Host.compile env worker call.request) (Host.compile env worker' call.request))
    {state : Host × ω} {state' : Host × ω'} (both : Beside env base r right V state state') :
    Beside env base r right V (Host.after env worker earlier state)
      (Host.after env worker' earlier state') := by
  induction earlier generalizing state state' with
  | nil => exact both
  | cons call earlier ih =>
    rw [List.forall_mem_cons] at alike
    obtain ⟨_, _, _, ran, ran', kept⟩ := alike.1 state state' both
    refine ih alike.2 ?_
    rw [act_eq, act_eq, ran, ran']
    exact kept

/-- While loads succeed, a host over the built-in languages compiles a request after any other
requests as a new one does, by itself or with a worker that keeps nothing that shows. -/
theorem compile_as_new {ω : Type} {worker : Option (IsolatedWorker ω)}
    (loads : ∀ c ∈ LanguageRegistry.builtin.calls, ∃ handle, c.Brings env base handle)
    (steady : ∀ w ∈ worker, w.IsSteady) (earlier : List HostCall) (request : CompileRequest)
    (w : ω) :
    (Host.compile env worker request
        (Host.after env worker earlier (Host.new .builtin base, w))).1 =
      (Host.compile env worker request (Host.new .builtin base, w)).1 := by
  have settles := Session.settles_of_loads loads builtin_names
  have alike : ∀ request : CompileRequest,
      Alike (Host.Beside env base .builtin (LoadCall.Brings env base) fun _ _ => True)
        (Host.compile env worker request) (Host.compile env worker request) := fun request =>
    Host.compile_alike settles fun _ _ _ _ _ => Host.routed_steady settles steady _ _ _
  have new : Host.Beside env base .builtin (LoadCall.Brings env base) (fun _ _ => True)
      (Host.new .builtin base, w) (Host.new .builtin base, w) :=
    ⟨Host.current_new, Host.current_new, trivial⟩
  have both := Host.after_beside (fun call (_ : call ∈ earlier) => alike call.request) new
  obtain ⟨_, _, _, ran, ran', -⟩ := alike request _ _ ⟨both.current, new.current', trivial⟩
  rw [ran, ran']

def optionsEngine : TransformEngine where
  name := "options"
  transform source options :=
    if source = "refused" then .error ⟨"refused", none⟩ else .ok (source ++ options.compact)

/-- Every URL holds the same transform engine, but for one of the diagrams. -/
def sharedSurroundings : Surroundings where
  modules :=
    { delay := fun _ _ => 0
      arrival := fun url _ =>
        if url = gnuplotUrl then .module (.ok (.graph ⟨"plot", fun _ => .ok (.markup "<b></b>")⟩))
        else .module (.ok (.transform optionsEngine)) }
  fetch := .empty

theorem sharedSurroundings_loads :
    ∀ c ∈ LanguageRegistry.builtin.calls, ∃ handle, c.Brings sharedSurroundings "" handle := by
  intro c _
  by_cases plot : resolveUrl "" c.reference = gnuplotUrl
  · refine ⟨⟨gnuplotUrl, .graph ⟨"plot", fun _ => .ok (.markup "<b></b>")⟩⟩, fun attempt => ?_⟩
    simp [Load.arrive, sharedSurroundings, plot]
  · refine ⟨⟨resolveUrl "" c.reference, .transform optionsEngine⟩, fun attempt => ?_⟩
    simp [Load.arrive, sharedSurroundings, plot]

theorem mdx_as_new :
    let settings := LanguageSettings.ofList [("jsx", .obj [("jsx", .str "preserve")])]
    let earlier : List HostCall :=
      [.compile ⟨"jsx", "<a/>", { Config.standard with customSettings := settings }⟩,
        .compileOrRecover ⟨"typescript", "refused", .standard⟩ .lastGood,
        .compileOrRecover ⟨"graph", nestedTargets, .standard⟩ .errorMarker]
    let new : Host × Unit := (Host.new .builtin "", ())
    let request : CompileRequest := ⟨"mdx", "# 1", .standard⟩
    (Host.compile sharedSurroundings none request
        (Host.after sharedSurroundings none earlier new)).1 =
      (Host.compile sharedSurroundings none request new).1 :=
  have alone : ∀ w ∈ (none : Option (IsolatedWorker Unit)), w.IsSteady := by simp
  compile_as_new sharedSurroundings_loads alone _ _ ()

end Playground
