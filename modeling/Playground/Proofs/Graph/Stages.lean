import Playground.Proofs.Graph.Restored

/-! Handlers that have nothing to do with each other in a document have their turns in any batches. -/

namespace Playground

open Html Session

namespace Html

variable {f : Forest} {results later : Results} {gone : Nat → Token → Bool}

theorem Token.Takes.shown {P : Token → Prop} {t : Token} (takes : t.Takes P later)
    (blank : results "" = none) : (t.shown results).Takes P later := by
  cases t with
  | openTag name body =>
    by_cases image : tagOf name = "img"
    · simp only [Token.shown, image, if_true]
      cases found : body.result? results with
      | none => exact takes
      | some uri =>
        intro uri' found'
        rw [TagBody.result?, TagBody.target?_given blank found] at found'
        obtain ⟨clean, markup⟩ := takes uri' found'
        refine ⟨clean, fun more => ?_⟩
        have void : "img" ∈ voidTags := by decide
        rw [TagBody.isAlone, image, decide_eq_true void, Bool.or_true] at more
        cases more
    · simpa [Token.shown, image] using takes
  | char | aside | closeTag | raw | unfinished => exact takes

theorem Token.Takes.or {P : Token → Prop} {t : Token} (first : t.Takes P results)
    (second : t.Takes P later) : t.Takes P (results.or later) := by
  cases t with
  | openTag name body =>
    intro uri found
    rw [TagBody.result?_or, Option.or_eq_some_iff] at found
    exact found.elim (first uri) fun found => second uri found.2
  | char | aside | closeTag | raw | unfinished => exact trivial

theorem Token.IsPlain.takes {P : Token → Prop} {t : Token} (plain : t.IsPlain) :
    t.Takes P results := by
  cases t with
  | openTag name body =>
    intro uri found
    rw [TagBody.result?_none plain.2] at found
    cases found
  | char | aside | closeTag | raw | unfinished => exact trivial

namespace Forest

theorem rendered_nothing : f.rendered (fun _ => none) (fun _ _ => false) = f := by
  induction f with
  | nil => rfl
  | leaf mark token rest ih =>
    rw [rendered, if_neg Bool.false_ne_true, token.shown_nothing, ih]
  | element name body inside closing tail rest inner_ih rest_ih =>
    have none_ : body.result? (fun _ => none) = none := by
      unfold TagBody.result?
      cases body.target? <;> rfl
    simp only [rendered, none_, inner_ih, rest_ih]

/-- What holds of plain pieces, and of the pieces of a forest as they are shown, holds of what is
rendered. -/
theorem forall_tokens_rendered {Q : Token → Prop} (only : OnlyScripts gone) (sound : f.Sound)
    (takes : ∀ t ∈ f.tokens, t.Takes Token.IsPlain results) (plain : ∀ t : Token, t.IsPlain → Q t)
    (shown : ∀ t ∈ f.tokens, Q (t.shown results)) :
    ∀ t ∈ (f.rendered results gone).tokens, Q t := by
  intro t mem
  rcases mem_tokens_rendered only sound takes mem with new | ⟨u, known, rfl, -⟩
  · exact plain t new
  · exact shown u known

end Forest
end Html

section Stages

variable (env : Surroundings) (engineFor : GraphHandler → GraphEngine)
variable (scripts : List (Nat × Token)) (handlers : List GraphHandler)

/-- The results of handlers; where two have one for the same target, that of the first. -/
def madeBy : Results := fun target =>
  handlers.findSome? fun h => (madeIn env (engineFor h) h scripts).get? target

def doneBy (mark : Nat) (t : Token) : Bool :=
  handlers.any fun h => isDone env (engineFor h) h scripts mark t

def errorsBy : List BlockError := handlers.flatMap fun h => errorsIn env (engineFor h) h scripts

end Stages

/-- Handlers that have nothing to do with each other in a document. -/
structure Apart (scripts : List (Nat × Token)) (h d : GraphHandler) : Prop where
  first : ∀ s ∈ scripts, s.2.isBlock h.kind = true → s.2.concerns d = false
  second : ∀ s ∈ scripts, s.2.isBlock d.kind = true → s.2.concerns h = false
  targets : ∀ s ∈ scripts, s.2.isBlock h.kind = true → ∀ r ∈ scripts, r.2.isBlock d.kind = true →
    s.2.output ≠ r.2.output

/-- A document whose blocks can be rendered one kind after the other in any batches. -/
structure Splits (env : Surroundings) (engineFor : GraphHandler → GraphEngine) (p : GraphPipeline)
    (f : Forest) : Prop where
  sound : f.Sound
  tidy : ∀ t ∈ f.tokens, t.IsTidy
  keeps : f.KeepsScripts
  unmarked : ∀ t ∈ f.tokens, t.isScriptOf cacheMarkerType = false
  numbers : ∀ h ∈ p, f.IsNumbered h.kind
  takes : ∀ h ∈ p, ∀ t ∈ f.tokens,
    t.Takes Token.IsPlain (madeIn env (engineFor h) h f.scripts).get?
  apart : p.Pairwise (Apart f.scripts)
  files : ∀ h ∈ p, ∀ s ∈ f.scripts, s.2.isBlock h.kind = true →
    p.inputFileTypes.any s.2.isScriptOf = false

section Results

variable {env : Surroundings} {engineFor : GraphHandler → GraphEngine} {h d : GraphHandler}
variable {scripts : List (Nat × Token)} {handlers : List GraphHandler}

theorem get?_madeIn {engine : GraphEngine} {target uri : String}
    (found : (madeIn env engine h scripts).get? target = some uri) :
    ∃ s ∈ scripts, s.2.isBlock h.kind = true ∧ s.2.output = target := by
  rw [madeIn] at found
  have blocks : ∀ s ∈ scripts.filter (fun s => s.2.isBlock h.kind),
      s ∈ scripts ∧ s.2.isBlock h.kind = true := fun s mem => List.mem_filter.1 mem
  have kept : ∀ (blocks : List (Nat × Token)) (cache : ArtifactCache),
      (blocks.foldl (fun cache s => (outcomeIn env engine h scripts s.1 s.2).addTo cache s.2.output)
        cache).get? target = some uri →
      cache.get? target = some uri ∨ ∃ s ∈ blocks, s.2.output = target := by
    intro blocks
    induction blocks with
    | nil => exact fun _ found => .inl found
    | cons s blocks ih =>
      intro cache found
      rcases ih _ found with here | ⟨r, mem, same⟩
      · dsimp only at here
        cases outcome : outcomeIn env engine h scripts s.1 s.2 with
        | rendered result =>
          rw [outcome, BlockOutcome.addTo, ArtifactCache.insertRendered,
            ArtifactCache.get?_insert] at here
          split at here
          · next same => exact .inr ⟨s, List.mem_cons_self, same.symm⟩
          · exact .inl here
        | unavailable | refused =>
          rw [outcome] at here
          exact .inl here
      · exact .inr ⟨r, List.mem_cons_of_mem s mem, same⟩
  rcases kept _ .empty found with none_ | ⟨s, mem, same⟩
  · cases none_
  · exact ⟨s, (blocks s mem).1, (blocks s mem).2, same⟩

theorem madeIn_blank (engine : GraphEngine) : (madeIn env engine h scripts).get? "" = none := by
  cases found : (madeIn env engine h scripts).get? "" with
  | none => rfl
  | some uri =>
    obtain ⟨s, -, is, same⟩ := get?_madeIn found
    rw [Token.isBlock, same] at is
    simp at is

theorem Apart.made (env : Surroundings) (engineFor : GraphHandler → GraphEngine)
    (apart : Apart scripts h d) (target : String) :
    (madeIn env (engineFor h) h scripts).get? target = none ∨
      (madeIn env (engineFor d) d scripts).get? target = none := by
  cases first : (madeIn env (engineFor h) h scripts).get? target with
  | none => exact .inl rfl
  | some uri =>
    cases second : (madeIn env (engineFor d) d scripts).get? target with
    | none => exact .inr rfl
    | some uri' =>
      obtain ⟨s, mem, is, rfl⟩ := get?_madeIn first
      obtain ⟨r, mem', is', same⟩ := get?_madeIn second
      exact absurd same.symm (apart.targets s mem is r mem' is')

theorem isDone_apart {engine : GraphEngine}
    (other : ∀ s ∈ scripts, s.2.isBlock h.kind = true → s.2.concerns d = false) {s : Nat × Token}
    (mem : s ∈ scripts) (concerned : s.2.concerns d = true) :
    isDone env engine h scripts s.1 s.2 = false := by
  rw [isDone]
  cases is : s.2.isBlock h.kind with
  | false => rfl
  | true =>
    rw [other s mem is] at concerned
    cases concerned

theorem madeBy_cons : madeBy env engineFor scripts (h :: handlers) =
    Results.or (madeIn env (engineFor h) h scripts).get? (madeBy env engineFor scripts handlers) := by
  funext target
  rw [madeBy, List.findSome?_cons, Results.or]
  cases (madeIn env (engineFor h) h scripts).get? target <;> rfl

theorem Results.or_assoc (a b c : Results) : (a.or b).or c = a.or (b.or c) :=
  funext fun _ => Option.or_assoc

end Results

section Pass

variable {env : Surroundings} {engineFor : GraphHandler → GraphEngine} {p : GraphPipeline}
variable {f : Forest}

/-- What has been done to a document when other handlers have had their turns: results are shown
and blocks are gone, none of which is anything to the given handlers. -/
structure Progress (env : Surroundings) (engineFor : GraphHandler → GraphEngine) (f : Forest)
    (handlers : List GraphHandler) (results : Results) (gone : Nat → Token → Bool) : Prop where
  blank : results "" = none
  takes : ∀ t ∈ f.tokens, t.Takes Token.IsPlain results
  only : OnlyScripts gone
  apart : ∀ h ∈ handlers, ∀ target,
    results target = none ∨ (madeIn env (engineFor h) h f.scripts).get? target = none
  spares : ∀ h ∈ handlers, ∀ s ∈ f.scripts, s.2.concerns h = true → gone s.1 s.2 = false

variable {handlers : List GraphHandler} {results : Results} {gone : Nat → Token → Bool}
variable {h : GraphHandler}

namespace Progress

theorem unshown (progress : Progress env engineFor f handlers results gone) :
    Progress env engineFor f handlers (fun _ => none) gone where
  blank := rfl
  takes _ _ := .nothing
  only := progress.only
  apart _ _ _ := .inl rfl
  spares := progress.spares

theorem start : Progress env engineFor f handlers (fun _ => none) fun _ _ => false where
  blank := rfl
  takes _ _ := .nothing
  only := nofun
  apart _ _ _ := .inl rfl
  spares _ _ _ _ _ := rfl

theorem next (progress : Progress env engineFor f (h :: handlers) results gone)
    (splits : Splits env engineFor p f) (within : (h :: handlers).Sublist p) :
    Progress env engineFor f handlers
      (results.or (madeIn env (engineFor h) h f.scripts).get?)
      fun mark t => gone mark t || isDone env (engineFor h) h f.scripts mark t := by
  have mem : h ∈ p := within.subset List.mem_cons_self
  have apart := (List.pairwise_cons.1 (splits.apart.sublist within)).1
  constructor
  · rw [Results.or, progress.blank, madeIn_blank]
    rfl
  · exact fun t known => (progress.takes t known).or (splits.takes h mem t known)
  · exact progress.only.or onlyScripts_isDone
  · intro d later target
    have other := (apart d later).made env engineFor target
    rcases progress.apart d (List.mem_cons_of_mem h later) target with none_ | none_
    · rw [Results.or, none_, Option.none_or]
      exact other
    · exact .inr none_
  · intro d later s known concerned
    rw [progress.spares d (List.mem_cons_of_mem h later) s known concerned,
      isDone_apart (apart d later).first known concerned]
    rfl

theorem strip (progress : Progress env engineFor f handlers results gone)
    (splits : Splits env engineFor p f) (within : ∀ h ∈ handlers, h ∈ p)
    (none_ : ∀ h ∈ handlers, h.inputFiles = none) :
    Progress env engineFor f handlers results
      fun mark t => gone mark t || p.inputFileTypes.any t.isScriptOf where
  blank := progress.blank
  takes := progress.takes
  only := progress.only.or (onlyScripts_any p.inputFileTypes)
  apart := progress.apart
  spares := by
    intro h mem s known concerned
    have block : s.2.isBlock h.kind = true := by
      rw [Token.concerns, Token.isInputOf, none_ h mem, Option.any_none, Bool.or_false] at concerned
      exact concerned
    rw [progress.spares h mem s known concerned, splits.files h (within h mem) s known block]
    rfl

end Progress

/-- The document that is left is as the first one was, and means the same to the next handler. -/
structure Ready (env : Surroundings) (engineFor : GraphHandler → GraphEngine) (f g : Forest)
    (h : GraphHandler) : Prop where
  sound : g.Sound
  tidy : ∀ t ∈ g.tokens, t.IsTidy
  unmarked : ∀ t ∈ g.tokens, t.isScriptOf cacheMarkerType = false
  numbers : g.IsNumbered h.kind
  takes : ∀ t ∈ g.tokens, t.Takes Token.IsPlain (madeIn env (engineFor h) h f.scripts).get?
  blocks : ∀ s ∈ g.scripts, s ∈ f.scripts
  made : madeIn env (engineFor h) h g.scripts = madeIn env (engineFor h) h f.scripts
  errors : errorsIn env (engineFor h) h g.scripts = errorsIn env (engineFor h) h f.scripts
  done : isDone env (engineFor h) h g.scripts = isDone env (engineFor h) h f.scripts

section Forest

variable (progress : Progress env engineFor f handlers results gone)
  (splits : Splits env engineFor p f)
include progress splits

theorem Progress.sound : (f.rendered results gone).Sound :=
  Forest.rendered_sound splits.sound progress.takes

theorem Progress.tidy : ∀ t ∈ (f.rendered results gone).tokens, t.IsTidy :=
  Forest.forall_tokens_rendered progress.only splits.sound progress.takes
    (fun _ plain _ _ _ => plain.2) fun t known => (splits.tidy t known).shown

theorem Progress.unmarked :
    ∀ t ∈ (f.rendered results gone).tokens, t.isScriptOf cacheMarkerType = false := by
  refine Forest.forall_tokens_rendered progress.only splits.sound progress.takes
    (fun t plain => ?_) fun t known => ?_
  · exact Bool.eq_false_iff.2 fun is => plain.1 (Token.isScript_of is)
  · exact (Token.isScriptOf_shown ..).trans (splits.unmarked t known)

end Forest

theorem Progress.ready (progress : Progress env engineFor f (h :: handlers) results gone)
    (splits : Splits env engineFor p f) (mem : h ∈ p) :
    Ready env engineFor f (f.rendered results gone) h := by
  have scripts := Forest.scripts_rendered splits.keeps progress.only splits.sound progress.takes
  have spared : ((f.rendered results gone).scripts.filter fun s => s.2.concerns h) =
      f.scripts.filter fun s => s.2.concerns h := by
    rw [scripts, List.filter_filter]
    apply List.filter_congr
    intro s known
    cases concerned : s.2.concerns h with
    | false => rfl
    | true => rw [progress.spares h List.mem_cons_self s known concerned]; rfl
  obtain ⟨made, errors, done⟩ := of_concerned env (engineFor h) spared
  have blocks : ((f.rendered results gone).scripts.filter fun s => s.2.isBlock h.kind) =
      f.scripts.filter fun s => s.2.isBlock h.kind :=
    filter_concerned (·.isBlock h.kind) spared fun t => concerns_of_isBlock
  constructor
  · exact progress.sound splits
  · exact progress.tidy splits
  · exact progress.unmarked splits
  · obtain ⟨n, marks⟩ := splits.numbers h mem
    exact ⟨n, by rw [blocks, marks]⟩
  · exact Forest.forall_tokens_rendered progress.only splits.sound progress.takes
      (fun t plain => plain.takes) fun t known => (splits.takes h mem t known).shown progress.blank
  · rw [scripts]
    exact fun s mem => (List.mem_filter.1 mem).1
  · exact made
  · exact errors
  · exact done

theorem Results.or_nothing (results : Results) : results.or (fun _ => none) = results :=
  funext fun _ => Option.or_none

theorem madeBy_append (first second : List GraphHandler) (scripts : List (Nat × Token)) :
    madeBy env engineFor scripts (first ++ second) =
      (madeBy env engineFor scripts first).or (madeBy env engineFor scripts second) :=
  funext fun _ => List.findSome?_append

theorem doneBy_append (first second : List GraphHandler) (scripts : List (Nat × Token)) (mark : Nat)
    (t : Token) : doneBy env engineFor scripts (first ++ second) mark t =
      (doneBy env engineFor scripts first mark t || doneBy env engineFor scripts second mark t) :=
  List.any_append

theorem errorsBy_append (first second : List GraphHandler) (scripts : List (Nat × Token)) :
    errorsBy env engineFor scripts (first ++ second) =
      errorsBy env engineFor scripts first ++ errorsBy env engineFor scripts second :=
  List.flatMap_append

theorem errorsBy_nil (scripts : List (Nat × Token)) : errorsBy env engineFor scripts [] = [] := rfl

theorem errorsBy_cons (h : GraphHandler) (scripts : List (Nat × Token)) :
    errorsBy env engineFor scripts (h :: handlers) =
      errorsIn env (engineFor h) h scripts ++ errorsBy env engineFor scripts handlers := rfl

theorem gone_or_doneBy_nil (gone : Nat → Token → Bool) (scripts : List (Nat × Token)) :
    (fun mark t => gone mark t || doneBy env engineFor scripts [] mark t) = gone := by
  funext mark t
  exact Bool.or_false _

theorem gone_or_doneBy_cons (gone : Nat → Token → Bool) (h : GraphHandler)
    (scripts : List (Nat × Token)) :
    (fun mark t => (gone mark t || isDone env (engineFor h) h scripts mark t) ||
        doneBy env engineFor scripts handlers mark t) =
      fun mark t => gone mark t || doneBy env engineFor scripts (h :: handlers) mark t := by
  funext mark t
  rw [doneBy, doneBy, List.any_cons, Bool.or_assoc]

theorem stageWith_substitute (splits : Splits env engineFor p f) {later : List GraphHandler}
    (within : (handlers ++ later).Sublist p) (satisfied : List String)
    (fresh : ∀ h ∈ handlers, ∀ s ∈ f.scripts, s.2.isBlock h.kind = true → s.2.output ∉ satisfied)
    (progress : Progress env engineFor f (handlers ++ later) results gone)
    (errors : List BlockError) :
    Progress env engineFor f later (results.or (madeBy env engineFor f.scripts handlers))
        (fun mark t => gone mark t || doneBy env engineFor f.scripts handlers mark t) ∧
      stageWith env engineFor .substitute satisfied handlers
          ⟨String.ofList (f.rendered results gone).text, errors⟩ =
        ⟨String.ofList (f.rendered (results.or (madeBy env engineFor f.scripts handlers))
            fun mark t => gone mark t || doneBy env engineFor f.scripts handlers mark t).text,
          errors ++ errorsBy env engineFor f.scripts handlers⟩ := by
  induction handlers generalizing results gone errors with
  | nil =>
    have same : (results.or (madeBy env engineFor f.scripts [])) = results :=
      Results.or_nothing results
    rw [same, gone_or_doneBy_nil, stageWith, errorsBy_nil, List.append_nil]
    exact ⟨progress, rfl⟩
  | cons h handlers ih =>
    rw [List.forall_mem_cons] at fresh
    have ready := progress.ready splits (within.subset List.mem_cons_self)
    have pass := passWith_substitute env (engineFor h) ready.sound ready.tidy ready.numbers
      (by rw [ready.made]; exact ready.takes) fun s mem => fresh.1 s (ready.blocks s mem)
    rw [ready.made, ready.errors, ready.done, Forest.rendered_rendered onlyScripts_isDone
      splits.sound progress.takes (progress.apart h List.mem_cons_self) progress.blank] at pass
    obtain ⟨progress', rest_⟩ := ih ((List.sublist_cons_self h _).trans within) fresh.2
      (progress.next splits within) (errors ++ errorsIn env (engineFor h) h f.scripts)
    rw [Results.or_assoc, ← madeBy_cons, gone_or_doneBy_cons, List.append_assoc,
      ← errorsBy_cons] at rest_
    rw [Results.or_assoc, ← madeBy_cons, gone_or_doneBy_cons] at progress'
    refine ⟨progress', ?_⟩
    rw [stageWith, pass]
    exact rest_

theorem stageWith_serialize (splits : Splits env engineFor p f) {later : List GraphHandler}
    (within : (handlers ++ later).Sublist p)
    (unlike : ∀ type_ ∈ p.inputFileTypes, sameIgnoringCase cacheMarkerType type_ = false)
    {cache : ArtifactCache} (distinct : cache.Distinct)
    (progress : Progress env engineFor f (handlers ++ later) cache.get? gone)
    (errors : List BlockError) :
    ∃ cache' : ArtifactCache, cache'.Distinct ∧
      cache'.get? = Results.or cache.get? (madeBy env engineFor f.scripts handlers) ∧
      Progress env engineFor f later cache'.get?
        (fun mark t => gone mark t || doneBy env engineFor f.scripts handlers mark t) ∧
      stageWith env engineFor .serialize [] handlers
          ⟨String.ofList ((f.rendered (fun _ => none) gone).carrying cache).text, errors⟩ =
        ⟨String.ofList ((f.rendered (fun _ => none) fun mark t =>
            gone mark t || doneBy env engineFor f.scripts handlers mark t).carrying cache').text,
          errors ++ errorsBy env engineFor f.scripts handlers⟩ := by
  induction handlers generalizing cache gone errors with
  | nil =>
    refine ⟨cache, distinct, (Results.or_nothing cache.get?).symm, ?_⟩
    rw [gone_or_doneBy_nil, stageWith, errorsBy_nil, List.append_nil]
    exact ⟨progress, rfl⟩
  | cons h handlers ih =>
    have mem := within.subset List.mem_cons_self
    have ready := progress.unshown.ready splits mem
    have free : ∀ type_, h.inputFiles = some type_ → sameIgnoringCase cacheMarkerType type_ = false :=
      fun type_ given => unlike type_ (List.mem_filterMap.2 ⟨h, mem, given⟩)
    obtain ⟨stored, distinct', merged, pass⟩ := passWith_serialize env
      (engineFor h) ready.sound ready.numbers ready.unmarked free distinct
    rw [ready.errors, ready.done, Forest.rendered_rendered onlyScripts_isDone splits.sound
      (fun _ _ => .nothing) (fun _ => .inl rfl) rfl, Results.or_nothing] at pass
    have held : stored.get? =
        Results.or cache.get? (madeIn env (engineFor h) h f.scripts).get? := by
      funext target
      rw [merged, ready.made, Results.or]
      rcases progress.apart h List.mem_cons_self target with none_ | none_
      · rw [none_, Option.none_or, Option.or_none]
      · rw [none_, Option.none_or, Option.or_none]
    have progress' := progress.next splits within
    rw [← held] at progress'
    obtain ⟨cache', distinct'', held', progress'', rest_⟩ :=
      ih ((List.sublist_cons_self h _).trans within) distinct' progress'
        (errors ++ errorsIn env (engineFor h) h f.scripts)
    rw [gone_or_doneBy_cons] at progress'' rest_
    rw [List.append_assoc, ← errorsBy_cons] at rest_
    refine ⟨cache', distinct'', ?_, progress'', ?_⟩
    · rw [held', held, Results.or_assoc, ← madeBy_cons]
    · rw [stageWith, pass]
      exact rest_

end Pass

section Both

variable {env : Surroundings} {engineFor : GraphHandler → GraphEngine} {p : GraphPipeline}
variable {f : Forest} {handlers : List GraphHandler} {results : Results}
variable {gone : Nat → Token → Bool}

theorem Progress.stripped (progress : Progress env engineFor f handlers results gone)
    (splits : Splits env engineFor p f) :
    p.stripInputFiles (String.ofList (f.rendered results gone).text) =
      String.ofList (f.rendered results fun mark t =>
        gone mark t || p.inputFileTypes.any t.isScriptOf).text := by
  rw [stripInputFiles_text (progress.sound splits),
    Forest.rendered_rendered (onlyScripts_any p.inputFileTypes) splits.sound progress.takes
      (fun _ => .inr rfl) progress.blank, Results.or_nothing]

/-- What is restored from a document that carries a cache; input files are gone if it carries
anything. -/
theorem Progress.restored {cache : ArtifactCache} (splits : Splits env engineFor p f)
    (progress : Progress env engineFor f handlers cache.get? gone)
    (within : ∀ h ∈ handlers, h ∈ p) (none_ : ∀ h ∈ handlers, h.inputFiles = none)
    (distinct : cache.Distinct) :
    ∃ targets gone', (∀ target ∈ targets, cache.get? target ≠ none) ∧
      Progress env engineFor f handlers cache.get? gone' ∧
      (∀ mark t, (gone' mark t || p.inputFileTypes.any t.isScriptOf) =
        (gone mark t || p.inputFileTypes.any t.isScriptOf)) ∧
      p.restoreText (String.ofList ((f.rendered (fun _ => none) gone).carrying cache).text) =
        ⟨String.ofList (f.rendered cache.get? gone').text, targets, []⟩ := by
  have sound := progress.unshown.sound splits
  have tidy := progress.unshown.tidy splits
  have unmarked := progress.unshown.unmarked splits
  cases empty : cache.isEmpty with
  | true =>
    have nothing : cache.get? = fun _ => none := funext (ArtifactCache.isEmpty_iff.1 empty)
    refine ⟨[], gone, nofun, progress, fun _ _ => rfl, ?_⟩
    rw [Forest.carrying, if_pos empty, GraphPipeline.restoreText,
      restore_unmarked (Forest.unmarked_text sound unmarked), nothing]
  | false =>
    have takes : ∀ t ∈ (f.rendered (fun _ => none) gone).tokens,
        t.Takes Token.IsPlain cache.get? :=
      Forest.forall_tokens_rendered progress.only splits.sound (fun _ _ => .nothing)
        (fun t plain => plain.takes) fun t known => (progress.takes t known).shown rfl
    have text := restore_carrying p.inputFileTypes sound tidy unmarked takes distinct empty
    rw [Forest.rendered_rendered (onlyScripts_any p.inputFileTypes) splits.sound
      (fun _ _ => .nothing) (fun _ => .inl rfl) rfl] at text
    refine ⟨cache.targets, _, fun target => ArtifactCache.mem_targets_iff.1,
      progress.strip splits within none_, fun mark t => ?_, text⟩
    rw [Bool.or_assoc, Bool.or_self]

theorem block_of_madeBy {target : String} {scripts : List (Nat × Token)}
    (found : madeBy env engineFor scripts handlers target ≠ none) :
    ∃ h ∈ handlers, ∃ s ∈ scripts, s.2.isBlock h.kind = true ∧ s.2.output = target := by
  obtain ⟨uri, found⟩ := Option.ne_none_iff_exists'.1 found
  obtain ⟨h, mem, made⟩ := List.exists_of_findSome?_eq_some found
  exact ⟨h, mem, get?_madeIn made⟩

theorem Splits.output_ne {first second : List GraphHandler} (splits : Splits env engineFor p f)
    (cut : p = first ++ second) {target : String}
    (found : madeBy env engineFor f.scripts first target ≠ none) :
    ∀ h ∈ second, ∀ s ∈ f.scripts, s.2.isBlock h.kind = true → s.2.output ≠ target := by
  intro h mem s known is same
  obtain ⟨d, mem', r, known', is', same'⟩ := block_of_madeBy found
  have apart := splits.apart
  rw [cut, List.pairwise_append] at apart
  exact (apart.2.2 d mem' h mem).targets r known' is' s known is (same'.trans same.symm)

theorem stages_agree (splits : Splits env engineFor p f) {first second : List GraphHandler}
    (cut : p = first ++ second) (none_ : ∀ h ∈ second, h.inputFiles = none)
    (unlike : ∀ type_ ∈ p.inputFileTypes, sameIgnoringCase cacheMarkerType type_ = false)
    {out stored rest : PassOutput} {restored : Restored}
    (at_once : stageWith env engineFor .substitute [] p ⟨String.ofList f.text, []⟩ = out)
    (isolated : stageWith env engineFor .serialize [] first ⟨String.ofList f.text, []⟩ = stored)
    (between : p.restoreText stored.text = restored)
    (main : stageWith env engineFor .substitute restored.targets second
      ⟨restored.text, restored.errors⟩ = rest) :
    p.stripInputFiles rest.text = p.stripInputFiles out.text ∧
      out.errors = stored.errors ++ rest.errors := by
  have whole : (p ++ []).Sublist p := by simp
  have parts : (first ++ second).Sublist p := cut ▸ .refl p
  have later : ∀ h ∈ second, h ∈ p := fun h mem => parts.subset (List.mem_append_right first mem)
  have start := Forest.rendered_nothing (f := f)
  obtain ⟨progress, run⟩ := stageWith_substitute splits whole []
    (fun _ _ _ _ _ => List.not_mem_nil) .start []
  obtain ⟨cache, distinct, held, progress', stage⟩ := stageWith_serialize splits parts unlike
    ArtifactCache.distinct_empty .start []
  have bare : f.carrying .empty = f := rfl
  rw [start, bare, isolated] at stage
  rw [start, at_once] at run
  subst run stage
  obtain ⟨targets, gone, listed, progress'', taken, restored_⟩ := progress'.restored splits later
    none_ distinct
  rw [restored_] at between
  subst between
  have fresh : ∀ h ∈ second, ∀ s ∈ f.scripts, s.2.isBlock h.kind = true → s.2.output ∉ targets := by
    intro h mem s known is listed_
    have found := listed _ listed_
    rw [held] at found
    exact splits.output_ne cut found h mem s known is rfl
  have ends : (second ++ []).Sublist p := by
    rw [List.append_nil]
    exact (List.sublist_append_right first second).trans parts
  obtain ⟨progress₃, stage⟩ := stageWith_substitute splits ends _ fresh
    (by rw [List.append_nil]; exact progress'') []
  rw [main] at stage
  subst stage
  have made : Results.or (fun _ => none) (madeBy env engineFor f.scripts p) =
      Results.or cache.get? (madeBy env engineFor f.scripts second) := by
    rw [held, cut, madeBy_append, Results.or_assoc]
    rfl
  constructor
  · dsimp only
    rw [progress₃.stripped splits, progress.stripped splits, made]
    have same : (fun mark t => (gone mark t || doneBy env engineFor f.scripts second mark t) ||
        p.inputFileTypes.any t.isScriptOf) = fun mark t =>
          (false || doneBy env engineFor f.scripts p mark t) || p.inputFileTypes.any t.isScriptOf := by
      funext mark t
      rw [Bool.or_right_comm, taken, cut, doneBy_append, Bool.or_right_comm]
      simp only [Bool.false_or]
    rw [same]
  · dsimp only
    rw [List.nil_append, List.nil_append, List.nil_append, cut, errorsBy_append]

end Both

end Playground
