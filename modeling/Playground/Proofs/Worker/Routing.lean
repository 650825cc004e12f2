import Playground.Proofs.Compile.History
import Playground.Proofs.Worker.Conversation
import Playground.Worker.Channel

/-! Primary passes in a worker and in the host itself. -/

namespace Playground

variable {env : Surroundings} {base : String} {right : LoadCall → EngineHandle → Prop}

/-- The jobs that a request brings to a worker, told by a new host: that of the language, and that
of the pass its secondary pass calls for. -/
def CompileRequest.jobs (env : Surroundings) (base : String) (request : CompileRequest) : List Job :=
  match LanguageRegistry.builtin.named? request.language with
  | none => []
  | some l =>
    (.of l.name request.source request.config ::
      match ((Host.new .builtin base).runPrimary env l request.source request.config).1,
        l.secondary with
      | .ok primary, some (.nest language) => [.of language primary.code request.config]
      | .ok primary, some .mdx =>
        match ((Session.new base).mdxToJsx env l.name primary.code request.config).1 with
        | .ok jsx => [.of "jsx" (Mdx.wrap jsx) request.config]
        | .error _ => []
      | _, _ => []).filter fun j => !j.source.isEmpty

theorem settings_of_mem_jobs {request : CompileRequest} {j : Job}
    (mem : j ∈ request.jobs env base) :
    j.settings = request.config.settingsFor j.language := by
  unfold CompileRequest.jobs at mem
  split at mem
  · exact absurd mem List.not_mem_nil
  · rcases List.mem_cons.1 (List.mem_filter.1 mem).1 with rfl | nested
    · rfl
    · split at nested
      · rw [List.mem_singleton.1 nested]
        rfl
      · split at nested
        · rw [List.mem_singleton.1 nested]
          rfl
        · exact absurd nested List.not_mem_nil
      · exact absurd nested List.not_mem_nil

/-- A worker that answers as any host would: its cache holds results of some jobs that every host
gives them. -/
structure CompileWorker.Honest (env : Surroundings) (base : String)
    (right : LoadCall → EngineHandle → Prop) (jobs : List Job) (w : CompileWorker) : Prop where
  current : w.host.Current env base .builtin right
  held : ∀ key c, w.cache.entries.lookup key = some c → ∃ j ∈ jobs, j.key = key ∧
    ∀ h : Host, h.Current env base .builtin right → ∀ config,
      config.settingsFor j.language = j.settings →
        (h.compilePrimary env j.language j.source config).1 = .ok c

variable {jobs : List Job} {language source : String} {config : Config}
variable (settles : Session.Settles env base LanguageRegistry.builtin.calls right)

namespace CompileWorker.Honest

variable {w : CompileWorker}

theorem start {host : Host} (current : host.Current env base .builtin right) (lifetime : Nat) :
    Honest env base right jobs ⟨host, ⟨lifetime, []⟩⟩ where
  current := current
  held _ _ := nofun

include settles in
/-- Whether from the cache or not, a job is answered as the host would, and the worker stays so. -/
theorem handle (honest : Honest env base right jobs w) (separate : Separate jobs)
    (mem : Job.of language source config ∈ jobs) (id : Nat) :
    ∃ milliseconds cached w', w.handle env (.compile id language source config) =
        (.compiled id (w.host.compilePrimary env language source config).1 milliseconds cached, w') ∧
      Honest env base right jobs w' := by
  have steady := Host.compilePrimary_steady settles language source config
  unfold CompileWorker.handle
  dsimp only
  cases found : w.cache.get? (cacheKey language source config) with
  | some c =>
    rw [TimedCache.get?] at found
    split at found
    · cases found
    · obtain ⟨j, asked, same, answer⟩ := honest.held _ c found
      cases separate j asked _ mem same
      have given : (w.host.compilePrimary env language source config).1 = .ok c :=
        answer w.host honest.current config rfl
      exact ⟨.zero, true, w, by rw [given], honest⟩
  | none =>
    refine ⟨_, _, _, rfl, ?_⟩
    have kept := steady.keeps w.host honest.current
    have answer := fun h (current : h.Current env base .builtin right) =>
      steady.same h w.host current honest.current
    unfold CompileWorker.keep
    dsimp only
    split
    · next c ran =>
      split
      · refine ⟨kept, fun key c' at_ => ?_⟩
        dsimp only at at_
        rw [TimedCache.insert, lookup_upsert] at at_
        split at at_
        · next same =>
          cases at_
          refine ⟨_, mem, same.symm, fun h current config' settings => ?_⟩
          rw [Host.compilePrimary_settings settings]
          exact (answer h current).trans ran
        · exact honest.held key c' at_
      · exact ⟨kept, honest.held⟩
    · exact ⟨kept, honest.held⟩

end CompileWorker.Honest

namespace WorkerChannel

/-- Nothing is under way. -/
structure Idle (ch : WorkerChannel) : Prop where
  queue : ch.queue = []
  replies : ch.replies = []
  abandoned : ch.abandoned = []

theorem idle_new (w : CompileWorker) : (new w).Idle := ⟨rfl, rfl, rfl⟩

variable {ch : WorkerChannel}

/-- What is sent down an idle channel is the next thing the worker handles, and its reply the one
that is taken. -/
theorem request_idle (idle : ch.Idle) (env : Surroundings) (language source : String)
    (config : Config) :
    ∃ ch' : WorkerChannel,
      ch.request env (.compile language source config) =
        (.ofReply (some ch.nextId)
          (ch.worker.handle env (.compile ch.nextId language source config)).1, ch') ∧
      ch'.Idle ∧
      ch'.worker = (ch.worker.handle env (.compile ch.nextId language source config)).2 := by
  obtain ⟨w, queue, replies, abandoned, ticket, id⟩ := ch
  obtain ⟨rfl, rfl, rfl⟩ := idle
  refine ⟨⟨(w.handle env (.compile id language source config)).2, [], [], [], ticket + 1, id + 1⟩,
    ?_, ⟨rfl, rfl, rfl⟩, rfl⟩
  simp [request, Caller.step, draw, send, handleMany, handleNext, receive]

include settles in
theorem isolated_honest (idle : ch.Idle) (honest : ch.worker.Honest env base right jobs)
    (separate : Separate jobs) (mem : Job.of language source config ∈ jobs) :
    ∃ ch' : WorkerChannel, (isolated env).compile language source config ch =
        ((ch.worker.host.compilePrimary env language source config).1, ch') ∧
      ch'.Idle ∧ ch'.worker.Honest env base right jobs := by
  obtain ⟨ch', asked, idle', worker⟩ := request_idle idle env language source config
  obtain ⟨_, _, w', handled, honest'⟩ := honest.handle settles separate mem ch.nextId
  rw [handled] at asked worker
  refine ⟨ch', ?_, idle', worker ▸ honest'⟩
  rw [isolated]
  dsimp only
  rw [asked]
  simp [CallResult.ofReply]

end WorkerChannel

section Routing

open WorkerChannel

/-- An idle channel to an honest worker, whatever stands beside the host without one. -/
def Serves (env : Surroundings) (base : String) (right : LoadCall → EngineHandle → Prop)
    (jobs : List Job) (_ : Unit) (ch : WorkerChannel) : Prop :=
  ch.Idle ∧ ch.worker.Honest env base right jobs

include settles in
theorem routed_isolated (separate : Separate jobs)
    (mem : ¬ source.isEmpty = true → Job.of language source config ∈ jobs) :
    Host.Routed env base .builtin right (Serves env base right jobs) none (some (isolated env))
      config language source := by
  intro some_ l found ⟨h, u⟩ ⟨h', ch⟩ both
  have idle : ch.Idle := both.workers.1
  have honest : ch.worker.Honest env base right jobs := both.workers.2
  obtain ⟨-, rfl⟩ := LanguageRegistry.mem_of_named? found
  have steady := Host.runPrimary_steady settles found source config
  obtain ⟨ch', asked, idle', honest'⟩ := isolated_honest settles idle honest separate (mem some_)
  rw [Host.compilePrimary_known honest.current some_ found,
    steady.same _ h honest.current both.current] at asked
  exact ⟨_, (_, u), (h', ch'), rfl, congrArg (fun x => (x.1, h', x.2)) asked,
    steady.keeps h both.current, both.current', idle', honest'⟩

include settles in
theorem mem_jobs {request : CompileRequest} {l : LanguageSpec}
    (known : LanguageRegistry.builtin.named? request.language = some l)
    (asks : Host.Asks env base .builtin right (none : Option (IsolatedWorker Unit)) l
      request.source request.config language source) (some_ : ¬ source.isEmpty = true) :
    Job.of language source request.config ∈ request.jobs env base := by
  have own : LanguageRegistry.builtin.named? l.name = some l :=
    (LanguageRegistry.mem_of_named? known).2 ▸ known
  have new : (Host.new .builtin base).Current env base .builtin right := Host.current_new
  have passes := Host.runPrimary_steady settles own request.source request.config
  unfold CompileRequest.jobs
  simp only [known]
  refine List.mem_filter.2 ⟨?_, by simpa [Job.of] using some_⟩
  cases asks with
  | primary => exact List.mem_cons_self
  | nested current compiled secondary =>
    have told := (passes.same _ _ new current).trans compiled
    refine List.mem_cons_of_mem _ ?_
    rw [told, secondary]
    exact List.mem_cons_self
  | jsx current compiled secondary holds made =>
    have told := (passes.same _ _ new current).trans compiled
    have mem : (⟨mdxUrl, none⟩ : LoadCall) ∈ LanguageRegistry.builtin.calls := by
      refine Host.calls_of_named own _ ?_
      rw [LanguageSpec.calls, secondary]
      exact List.mem_append_right _ List.mem_cons_self
    have jsx := ((Session.mdxToJsx_steady settles mem l.name _ request.config).same
      (Session.new base) _ new.session holds).trans made
    refine List.mem_cons_of_mem _ ?_
    rw [told, secondary]
    dsimp only
    rw [jsx]
    exact List.mem_cons_self

include settles in
theorem compile_served (separate : Separate jobs) {request : CompileRequest}
    (within : ∀ j ∈ request.jobs env base, j ∈ jobs) :
    Alike (Host.Beside env base .builtin right (Serves env base right jobs))
      (Host.compile env none request) (Host.compile env (some (isolated env)) request) :=
  Host.compile_alike settles fun _ known _ _ asks =>
    routed_isolated settles separate fun some_ => within _ (mem_jobs settles known asks some_)

end Routing

/-- While loads succeed, a host over the built-in languages compiles a request after any others in
the same way whether its primary passes run in a worker or in itself. The worker may have a cache of
any lifetime; the keys of the jobs it is given do not collide. -/
theorem compile_routed
    (loads : ∀ c ∈ LanguageRegistry.builtin.calls, ∃ handle, c.Brings env base handle)
    (lifetime : Nat) (earlier : List HostCall) (request : CompileRequest)
    (proper : ∀ q ∈ earlier.map (·.request) ++ [request], ∀ language,
      (q.config.settingsFor language).IsProper)
    (free : CollisionFree ((earlier.map (·.request) ++ [request]).flatMap (·.jobs env base))) :
    let worker := some (WorkerChannel.isolated env)
    let channel : WorkerChannel := .new ⟨Host.new .builtin base, ⟨lifetime, []⟩⟩
    (Host.compile env worker request
        (Host.after env worker earlier (Host.new .builtin base, channel))).1 =
      (Host.compile env (none : Option (IsolatedWorker Unit)) request
        (Host.after env none earlier (Host.new .builtin base, ()))).1 := by
  intro worker channel
  have settles := Session.settles_of_loads loads builtin_names
  have separate := free.separate fun j mem => by
    obtain ⟨q, asked, mem⟩ := List.mem_flatMap.1 mem
    rw [settings_of_mem_jobs mem]
    exact proper q asked j.language
  have alike : ∀ q ∈ earlier.map (·.request) ++ [request],
      Alike (Host.Beside env base .builtin (LoadCall.Brings env base) (Serves env base
        (LoadCall.Brings env base) ((earlier.map (·.request) ++ [request]).flatMap (·.jobs env base))))
        (Host.compile env none q) (Host.compile env worker q) := fun q mem =>
    compile_served settles separate fun j asked => List.mem_flatMap.2 ⟨q, mem, asked⟩
  have both := Host.after_beside
    (fun call mem => alike call.request (List.mem_append_left _ (List.mem_map_of_mem mem)))
    (⟨Host.current_new, Host.current_new, WorkerChannel.idle_new _, .start Host.current_new lifetime⟩ :
      Host.Beside _ _ _ _ _ (Host.new .builtin base, ()) (Host.new .builtin base, channel))
  obtain ⟨_, _, _, ran, ran', -⟩ := alike request (by simp) _ _ both
  rw [ran, ran']

theorem mdx_routed :
    let request : CompileRequest := ⟨"mdx", "# 1", .standard⟩
    let worker := some (WorkerChannel.isolated sharedSurroundings)
    let channel : WorkerChannel := .new ⟨Host.new .builtin "", ⟨60, []⟩⟩
    (Host.compile sharedSurroundings worker request
        (Host.after sharedSurroundings worker [.compile request] (Host.new .builtin "", channel))).1 =
      (Host.compile sharedSurroundings (none : Option (IsolatedWorker Unit)) request
        (Host.after sharedSurroundings none [.compile request] (Host.new .builtin "", ()))).1 := by
  intro request
  refine compile_routed sharedSurroundings_loads 60 [.compile request] request ?_ ?_
  · intro q mem language
    have same : q = request := by simpa [HostCall.request] using mem
    rw [same]
    exact trivial
  · have once : CollisionFree (request.jobs sharedSurroundings "") := by
      unfold CollisionFree
      decide +kernel
    have asked : ∀ j ∈ ([HostCall.compile request].map (·.request) ++ [request]).flatMap
        (·.jobs sharedSurroundings ""), j ∈ request.jobs sharedSurroundings "" := fun j mem => by
      obtain ⟨q, listed, mem⟩ := List.mem_flatMap.1 mem
      have same : q = request := by simpa [HostCall.request] using listed
      rwa [same] at mem
    exact fun a ha b hb => once a (asked a ha) b (asked b hb)

end Playground
