import Playground.Proofs.Compile.Growth
import Playground.Proofs.Json.Distinct
import Playground.Worker.Basic

/-! Conversations with a worker. Its cache only holds results that its host would give again. -/

namespace Playground

open Html

/-- What a primary pass depends on: the language, the source and the language's settings. -/
structure Job where
  language : String
  source : String
  settings : Json

namespace Job

def of (language source : String) (config : Config) : Job :=
  ⟨language, source, config.settingsFor language⟩

def texts (j : Job) : List String := [j.language, j.source, j.settings.compact]

def key (j : Job) : String := ContentKey.ofTexts j.texts

end Job

/-- Jobs that have different keys unless they are the same. -/
def Separate (jobs : List Job) : Prop := ∀ a ∈ jobs, ∀ b ∈ jobs, a.key = b.key → a = b

/-- No two different sequences of texts get one key. -/
def CollisionFree (jobs : List Job) : Prop :=
  ∀ a ∈ jobs, ∀ b ∈ jobs, a.key = b.key → a.texts = b.texts

theorem CollisionFree.separate {jobs : List Job} (free : CollisionFree jobs)
    (proper : ∀ j ∈ jobs, j.settings.IsProper) : Separate jobs := by
  intro a ha b hb keys
  have texts := free a ha b hb keys
  simp only [Job.texts, List.cons.injEq, and_true] at texts
  obtain ⟨language, source, settings⟩ := texts
  have same := Json.compact_injective (proper a ha) (proper b hb) settings
  obtain ⟨_, _, _⟩ := a
  obtain ⟨_, _, _⟩ := b
  simp_all only

def WorkerInput.job? : WorkerInput → Option Job
  | .compile _ language source config => some (.of language source config)
  | .clearCache => none

def WorkerOutput.IsClean : WorkerOutput → Prop
  | .compiled _ (.ok c) _ _ => c.warnings = []
  | _ => False

/-- No script of the document has a source that is not blank. -/
def ReferencesNothing (doc : String) : Prop :=
  ∀ e ∈ scan doc, e.tag = "script" → ∀ url, e.attr? "src" = some url → trimBlanks url = ""

theorem referencesExternal_iff {doc : String} :
    referencesExternal doc = false ↔ ReferencesNothing doc := by
  simp only [referencesExternal, List.any_eq_false, Bool.and_eq_true, beq_iff_eq,
    Bool.not_eq_true', not_and, Bool.not_eq_false, ReferencesNothing]
  refine forall₃_congr fun e _ _ => ?_
  cases e.attr? "src" with
  | none => simp
  | some url => simp [String.isEmpty_iff]

structure Exchange where
  input : WorkerInput
  output : WorkerOutput

/-- Whether a job of these texts was answered since the last clearing with a success that stays
right; the latest exchange stands first. -/
def Answered (language source settings : String) : List Exchange → Prop
  | [] => False
  | ⟨.clearCache, _⟩ :: _ => False
  | ⟨.compile _ l s config, output⟩ :: before =>
    (l = language ∧ s = source ∧ (config.settingsFor l).compact = settings ∧ output.IsClean ∧
      ReferencesNothing source) ∨ Answered language source settings before

namespace CompileWorker

def hear (state : List Exchange × CompileWorker) (message : Surroundings × WorkerInput) :
    List Exchange × CompileWorker :=
  let (output, w) := state.2.handle message.1 message.2
  (⟨message.2, output⟩ :: state.1, w)

/-- The exchanges of some messages, the latest first, and the worker after them. Each message has
the surroundings it is handled in. -/
def converse (messages : List (Surroundings × WorkerInput)) (w : CompileWorker) :
    List Exchange × CompileWorker :=
  messages.foldl hear ([], w)

/-- The host's own languages are the built-in ones, and the cache holds what the host would answer:
the results of jobs that were answered and stay right. -/
structure Faithful (log : List Exchange) (w : CompileWorker) : Prop where
  builtin : w.host.IsBuiltin
  held : ∀ key c, w.cache.entries.lookup key = some c → ∃ j : Job,
    j ∈ log.filterMap (·.input.job?) ∧ j.key = key ∧
      Answered j.language j.source j.settings.compact log ∧
      ∀ h, w.host.Grows h → ∀ env config, config.settingsFor j.language = j.settings →
        (h.compilePrimary env j.language j.source config).1 = .ok c
  kept : ∀ language source settings, Answered language source settings log →
    w.cache.entries.lookup (ContentKey.ofTexts [language, source, settings]) ≠ none

namespace Faithful

variable {log : List Exchange} {w : CompileWorker}

theorem start {host : Host} (builtin : host.IsBuiltin) (lifetime : Nat) :
    Faithful [] ⟨host, ⟨lifetime, []⟩⟩ where
  builtin := builtin
  held _ _ := nofun
  kept _ _ _ := False.elim

theorem pass (faithful : Faithful log w) {id : Nat} {language source : String} {config : Config}
    {output : WorkerOutput} {host : Host} (builtin : host.IsBuiltin) (grows : w.host.Grows host)
    (known : output.IsClean → ReferencesNothing source →
      w.cache.entries.lookup (cacheKey language source config) ≠ none) :
    Faithful (⟨.compile id language source config, output⟩ :: log) ⟨host, w.cache⟩ where
  builtin := builtin
  held key c at_ := by
    obtain ⟨j, mem, same, answered, again⟩ := faithful.held key c at_
    exact ⟨j, List.mem_cons_of_mem _ mem, same, .inr answered,
      fun h grows' => again h (grows.trans grows')⟩
  kept l s settings answered := by
    rcases answered with ⟨rfl, rfl, rfl, clean, silent⟩ | before
    · exact known clean silent
    · exact faithful.kept l s settings before

theorem keep (faithful : Faithful log w) {env : Surroundings} {id : Nat}
    {language source : String} {config : Config} {c : Compiled} {host : Host} {ms : Binary64}
    {cached : Bool} (ran : w.host.compilePrimary env language source config = (.ok c, host))
    (clean : c.warnings = []) (silent : ReferencesNothing source) :
    Faithful (⟨.compile id language source config, .compiled id (.ok c) ms cached⟩ :: log)
      ⟨host, w.cache.insert (cacheKey language source config) c⟩ where
  builtin := by
    have kept := faithful.builtin.compilePrimary env language source config
    rwa [ran] at kept
  held key c' at_ := by
    have grown := Host.compilePrimary_grows env language source config w.host
    rw [ran] at grown
    rw [TimedCache.insert, lookup_upsert] at at_
    split at at_
    · next same =>
      cases at_
      refine ⟨.of language source config, List.mem_cons_self, same.symm,
        .inl ⟨rfl, rfl, rfl, clean, silent⟩, fun h grows env' config' settings => ?_⟩
      exact Host.compilePrimary_again faithful.builtin (referencesExternal_iff.2 silent) settings ran
        grows env'
    · obtain ⟨j, mem, same, answered, again⟩ := faithful.held key c' at_
      exact ⟨j, List.mem_cons_of_mem _ mem, same, .inr answered,
        fun h grows => again h (grown.trans grows)⟩
  kept l s settings answered := by
    rw [TimedCache.insert, lookup_upsert]
    split
    · exact Option.some_ne_none c
    · next differs =>
      rcases answered with ⟨rfl, rfl, rfl, -, -⟩ | before
      · exact absurd rfl differs
      · exact faithful.kept l s settings before

theorem served (faithful : Faithful log w) {language source : String} {config : Config}
    (separate : Separate (.of language source config :: log.filterMap (·.input.job?)))
    {c : Compiled} (at_ : w.cache.entries.lookup (cacheKey language source config) = some c)
    (env : Surroundings) :
    (w.host.compilePrimary env language source config).1 = .ok c ∧
      Answered language source (config.settingsFor language).compact log := by
  obtain ⟨j, mem, same, answered, again⟩ := faithful.held _ c at_
  cases separate j (List.mem_cons_of_mem _ mem) _ List.mem_cons_self same
  exact ⟨again w.host (.refl w.host) env config rfl, answered⟩

theorem hear (faithful : Faithful log w) (message : Surroundings × WorkerInput) :
    Faithful (hear (log, w) message).1 (hear (log, w) message).2 := by
  obtain ⟨env, input⟩ := message
  cases input with
  | clearCache => exact ⟨faithful.builtin, fun _ _ => nofun, fun _ _ _ => False.elim⟩
  | compile id language source config =>
    unfold CompileWorker.hear handle
    dsimp only
    cases found : w.cache.get? (cacheKey language source config) with
    | some c =>
      have at_ : w.cache.entries.lookup (cacheKey language source config) = some c := by
        rw [TimedCache.get?] at found
        split at found
        · cases found
        · exact found
      refine faithful.pass faithful.builtin (.refl w.host) fun _ _ => ?_
      rw [at_]
      exact Option.some_ne_none c
    | none =>
      have builtin := faithful.builtin.compilePrimary env language source config
      have grows := Host.compilePrimary_grows env language source config w.host
      dsimp only
      cases ran : w.host.compilePrimary env language source config with
      | mk result host =>
        rw [ran] at builtin grows
        cases result with
        | error e => exact faithful.pass builtin grows fun clean => clean.elim
        | ok c =>
          rw [CompileWorker.keep]
          dsimp only
          split
          · next lasting =>
            rw [isLasting, Bool.and_eq_true, Bool.not_eq_true'] at lasting
            exact faithful.keep ran (List.isEmpty_iff.1 lasting.1)
              (referencesExternal_iff.1 lasting.2)
          · next passing =>
            refine faithful.pass builtin grows fun clean silent => absurd ?_ passing
            rw [isLasting, referencesExternal_iff.2 silent, show c.warnings = [] from clean]
            rfl

theorem reply (faithful : Faithful log w) {language source : String} {config : Config}
    (separate : Separate (.of language source config :: log.filterMap (·.input.job?)))
    (env : Surroundings) (id : Nat) :
    ∃ milliseconds cached, (w.handle env (.compile id language source config)).1 =
        .compiled id (w.host.compilePrimary env language source config).1 milliseconds cached ∧
      (cached = true ↔ w.cache.lifetime ≠ 0 ∧
        Answered language source (config.settingsFor language).compact log) := by
  unfold handle
  dsimp only
  cases found : w.cache.get? (cacheKey language source config) with
  | some c =>
    rw [TimedCache.get?] at found
    split at found
    · cases found
    · next serves =>
      obtain ⟨same, answered⟩ := faithful.served separate found env
      exact ⟨_, true, by rw [same], iff_of_true rfl ⟨serves, answered⟩⟩
  | none =>
    refine ⟨_, false, rfl, iff_of_false Bool.false_ne_true ?_⟩
    rintro ⟨serves, answered⟩
    rw [TimedCache.get?, if_neg serves] at found
    exact faithful.kept _ _ _ answered found

end Faithful

theorem faithful_converse {host : Host} (builtin : host.IsBuiltin) (lifetime : Nat)
    (messages : List (Surroundings × WorkerInput)) :
    Faithful (converse messages ⟨host, ⟨lifetime, []⟩⟩).1
      (converse messages ⟨host, ⟨lifetime, []⟩⟩).2 :=
  List.foldlRecOn (motive := fun state : List Exchange × CompileWorker => Faithful state.1 state.2)
    messages _ (.start builtin lifetime) fun _ faithful message _ => faithful.hear message

theorem lifetime_handle (env : Surroundings) (input : WorkerInput) (w : CompileWorker) :
    (w.handle env input).2.cache.lifetime = w.cache.lifetime := by
  cases input with
  | clearCache => rfl
  | compile id language source config =>
    unfold handle
    dsimp only
    split
    · rfl
    · unfold keep
      split
      · split <;> rfl
      · rfl

theorem foldl_hear (messages : List (Surroundings × WorkerInput))
    (state : List Exchange × CompileWorker) :
    (messages.foldl hear state).1.map (·.input) =
        (messages.map Prod.snd).reverse ++ state.1.map (·.input) ∧
      (messages.foldl hear state).2.cache.lifetime = state.2.cache.lifetime := by
  induction messages generalizing state with
  | nil => exact ⟨rfl, rfl⟩
  | cons message messages ih =>
    obtain ⟨inputs, lifetime⟩ := ih (hear state message)
    refine ⟨?_, lifetime.trans (lifetime_handle message.1 message.2 state.2)⟩
    rw [List.foldl_cons, inputs, List.map_cons, List.reverse_cons, List.append_assoc]
    rfl

theorem jobs_converse (messages : List (Surroundings × WorkerInput)) (w : CompileWorker) :
    (converse messages w).1.filterMap (·.input.job?) =
      (messages.filterMap (·.2.job?)).reverse := by
  have inputs := (foldl_hear messages ([], w)).1
  rw [List.map_nil, List.append_nil] at inputs
  calc (converse messages w).1.filterMap (·.input.job?)
      = ((converse messages w).1.map (·.input)).filterMap (·.job?) := by
        rw [List.filterMap_map]; rfl
    _ = (messages.map Prod.snd).reverse.filterMap (·.job?) := by rw [← inputs]; rfl
    _ = (messages.filterMap (·.2.job?)).reverse := by
        rw [List.filterMap_reverse, List.filterMap_map]; rfl

end CompileWorker

/-- The cache is not noticed. Whatever a worker was told before, and whatever became of the
surroundings, it replies to a request under its number with what its host would answer now. The
reply says that it was cached exactly when a job of the same texts was answered since the last
clearing with a success that stays right. -/
theorem worker_transparent {host : Host} (builtin : host.IsBuiltin) (lifetime : Nat)
    (messages : List (Surroundings × WorkerInput)) (env : Surroundings) (id : Nat)
    (language source : String) (config : Config)
    (proper : ∀ j ∈ .of language source config :: messages.filterMap (·.2.job?),
      j.settings.IsProper)
    (free : CollisionFree (.of language source config :: messages.filterMap (·.2.job?))) :
    let (log, w) := CompileWorker.converse messages ⟨host, ⟨lifetime, []⟩⟩
    ∃ milliseconds cached, (w.handle env (.compile id language source config)).1 =
        .compiled id (w.host.compilePrimary env language source config).1 milliseconds cached ∧
      (cached = true ↔ lifetime ≠ 0 ∧
        Answered language source (config.settingsFor language).compact log) := by
  have faithful := CompileWorker.faithful_converse builtin lifetime messages
  have served := (CompileWorker.foldl_hear messages ([], ⟨host, ⟨lifetime, []⟩⟩)).2
  have separate : Separate (.of language source config ::
      (CompileWorker.converse messages ⟨host, ⟨lifetime, []⟩⟩).1.filterMap (·.input.job?)) := by
    rw [CompileWorker.jobs_converse]
    intro a ha b hb
    refine free.separate proper a ?_ b ?_
    · simpa using ha
    · simpa using hb
  have reply := faithful.reply separate env id
  rwa [CompileWorker.converse, served] at reply

def emptySurroundings : Surroundings where
  modules := .ofTable [] false
  fetch := .empty

theorem stylesheet_cached :
    let ask (id : Nat) := WorkerInput.compile id "css" "a" .standard
    let (_, w) := CompileWorker.converse
      [(emptySurroundings, .clearCache), (emptySurroundings, ask 1)]
      ⟨Host.new .builtin "", ⟨60, []⟩⟩
    ∃ milliseconds, (w.handle emptySurroundings (ask 2)).1 = .compiled 2
      (w.host.compilePrimary emptySurroundings "css" "a" .standard).1 milliseconds true := by
  intro ask
  obtain ⟨milliseconds, cached, reply, answered⟩ := worker_transparent (Host.isBuiltin_new "") 60
    [(emptySurroundings, .clearCache), (emptySurroundings, ask 1)] emptySurroundings 2 "css" "a"
    .standard (by simp [ask, WorkerInput.job?, Job.of, Config.settingsFor, Config.standard,
      LanguageSettings.empty, LanguageSettings.get?, Json.emptyObject, Json.IsProper,
      Json.HaveProper])
    (by simp [ask, WorkerInput.job?, CollisionFree])
  have silent : ReferencesNothing "a" := by
    rw [← referencesExternal_iff]
    decide +kernel
  have before : Answered "css" "a" (Config.standard.settingsFor "css").compact
      (CompileWorker.converse [(emptySurroundings, .clearCache), (emptySurroundings, ask 1)]
        ⟨Host.new .builtin "", ⟨60, []⟩⟩).1 := .inl ⟨rfl, rfl, rfl, rfl, silent⟩
  rw [answered.2 ⟨by decide, before⟩] at reply
  exact ⟨milliseconds, reply⟩

end Playground
