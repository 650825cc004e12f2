import Playground.Proofs.Graph.Blocks

/-! Passes over a document, as functions of the scripts in it that concern the handler. -/

namespace Playground

open Html Session

namespace Html

instance (t : Token) : Decidable t.IsScript := inferInstanceAs (Decidable (_ = _))

theorem Token.isScript_shown (results : Results) (t : Token) :
    (t.shown results).IsScript ↔ t.IsScript := by
  rw [IsScript, tag?_shown, IsScript]

theorem Token.isScriptOf_shown (results : Results) (t : Token) (type_ : String) :
    (t.shown results).isScriptOf type_ = t.isScriptOf type_ := by
  by_cases script : t.IsScript
  · rw [shown_script script]
  · rw [Bool.eq_false_iff.2 fun is => script (isScript_of is), Bool.eq_false_iff]
    exact fun is => script ((isScript_shown results t).1 (isScript_of is))

def Forest.scripts : Forest → List (Nat × Token)
  | nil => []
  | leaf mark token rest =>
    if token.IsScript then (mark, token) :: rest.scripts else rest.scripts
  | element _ _ inside _ _ rest => inside.scripts ++ rest.scripts

namespace Forest

variable {f : Forest}

theorem scripts_append (f g : Forest) : (f.append g).scripts = f.scripts ++ g.scripts := by
  induction f with
  | nil => rfl
  | leaf mark token rest ih =>
    rw [append, scripts, scripts, ih]
    split <;> rfl
  | element name body inside closing tail rest _ ih =>
    rw [append, scripts, scripts, ih, List.append_assoc]

theorem scripts_placed (sound : f.Sound) (is : Token → Bool)
    (script : ∀ t, is t = true → t.IsScript) (pos : Nat) :
    ((f.placed pos).filter fun x => is x.token).map (fun x => (x.mark, x.token)) =
      f.scripts.filter fun s => is s.2 := by
  induction f generalizing pos with
  | nil => rfl
  | leaf mark token rest ih =>
    rw [placed, List.filter_append, List.map_append, ih sound.2.2, scripts]
    cases chosen : is token with
    | true =>
      have tagged := script token chosen
      obtain ⟨e, found⟩ : ∃ e, token.element? pos = some e := by
        cases token with
        | openTag | raw => exact ⟨_, rfl⟩
        | char | aside | closeTag | unfinished => cases tagged
      rw [if_pos tagged, found]
      simp [chosen]
    | false =>
      have none_ : (((token.element? pos).map (Placed.mk mark token)).toList).filter
          (fun x => is x.token) = [] := by
        cases token.element? pos <;> simp [chosen]
      rw [none_]
      split <;> simp [chosen]
  | element name body inside closing tail rest inner_ih rest_ih =>
    obtain ⟨opens, more, -, -, inner, later⟩ := sound
    have other : is (.openTag name body) = false := by
      rw [← Bool.not_eq_true]
      exact fun chosen => (Token.tags_of_element opens more).1
        (Option.some.inj (script _ chosen))
    rw [placed, List.filter_cons, other, if_neg Bool.false_ne_true, List.filter_append,
      List.map_append, inner_ih inner, rest_ih later, scripts, List.filter_append]

theorem script_of_mem {s : Nat × Token} (mem : s ∈ f.scripts) :
    s.2.IsScript ∧ s.2 ∈ f.tokens := by
  induction f with
  | nil => cases mem
  | leaf mark token rest ih =>
    rw [scripts] at mem
    split at mem
    · next script =>
      rcases List.mem_cons.1 mem with rfl | mem
      · exact ⟨script, List.mem_cons_self⟩
      · exact ⟨(ih mem).1, List.mem_cons_of_mem token (ih mem).2⟩
    · exact ⟨(ih mem).1, List.mem_cons_of_mem token (ih mem).2⟩
  | element name body inside closing tail rest inner_ih rest_ih =>
    rcases List.mem_append.1 mem with mem | mem
    · exact ⟨(inner_ih mem).1, by simp [tokens, (inner_ih mem).2]⟩
    · exact ⟨(rest_ih mem).1, by simp [tokens, (rest_ih mem).2]⟩

def KeepsScripts : Forest → Prop
  | nil => True
  | leaf _ _ rest => rest.KeepsScripts
  | element _ body inside _ _ rest =>
    (body.attr? "data-src" ≠ none → inside.scripts = []) ∧ inside.KeepsScripts ∧ rest.KeepsScripts

theorem scripts_plain (plain : ∀ t ∈ f.tokens, t.IsPlain) : f.scripts = [] := by
  rw [List.eq_nil_iff_forall_not_mem]
  exact fun s mem => (plain s.2 (script_of_mem mem).2).1 (script_of_mem mem).1

theorem scripts_rendered {results : Results} {gone : Nat → Token → Bool} (keeps : f.KeepsScripts)
    (only : OnlyScripts gone) (sound : f.Sound)
    (takes : ∀ t ∈ f.tokens, t.Takes Token.IsPlain results) :
    (f.rendered results gone).scripts = f.scripts.filter fun s => !gone s.1 s.2 := by
  induction f with
  | nil => rfl
  | leaf mark token rest ih =>
    rw [tokens, List.forall_mem_cons] at takes
    have rest_ := ih keeps sound.2.2 takes.2
    rw [rendered, scripts]
    cases is : gone mark token with
    | true =>
      rw [if_pos rfl, if_pos (only mark token is), rest_, List.filter_cons, is]
      rfl
    | false =>
      rw [if_neg Bool.false_ne_true, scripts, rest_]
      by_cases script : token.IsScript
      · rw [Token.shown_script script, if_pos script, if_pos script, List.filter_cons, is]
        rfl
      · rw [if_neg script, if_neg (mt (Token.isScript_shown results token).1 script)]
  | element name body inside closing tail rest inner_ih rest_ih =>
    obtain ⟨shut, keeps_inner, keeps_rest⟩ := keeps
    obtain ⟨-, more, -, -, inner, later⟩ := sound
    obtain ⟨takes_here, takes_inner, -, takes_rest⟩ := forall_tokens_element.1 takes
    simp only [rendered, scripts, List.filter_append, rest_ih keeps_rest later takes_rest]
    congr 1
    cases found : body.result? results with
    | none => exact inner_ih keeps_inner inner takes_inner
    | some uri =>
      have markup := (takes_here uri found).2 more
      have shows : body.attr? "data-src" ≠ none := by
        intro none_
        rw [TagBody.result?_none none_] at found
        cases found
      rw [shut shows]
      refine scripts_plain ?_
      rw [tokens_ofMarkup markup.wellFormed]
      exact markup.tokens

def IsNumbered (kind : GraphKind) (f : Forest) : Prop :=
  ∃ n, (f.scripts.filter fun s => s.2.isBlock kind).map Prod.fst = List.range' 1 n

/-- The forest in which each piece has its number among the blocks of its kind. -/
def marked (kinds : List GraphKind) : List Token → Forest → Forest
  | _, nil => nil
  | before, leaf _ token rest =>
    leaf (1 + before.countP fun t => kinds.any fun k => t.isBlock k && token.isBlock k) token
      (rest.marked kinds (before ++ [token]))
  | before, element name body inside closing tail rest =>
    element name body (inside.marked kinds before) closing tail
      (rest.marked kinds (before ++ inside.scripts.map Prod.snd))

variable {kinds : List GraphKind} {before : List Token}

theorem tokens_marked : (f.marked kinds before).tokens = f.tokens := by
  induction f generalizing before with
  | nil => rfl
  | leaf mark token rest ih => rw [marked, tokens, tokens, ih]
  | element name body inside closing tail rest inner_ih rest_ih =>
    rw [marked, tokens, tokens, inner_ih, rest_ih]

theorem marked_sound (sound : f.Sound) : (f.marked kinds before).Sound := by
  induction f generalizing before with
  | nil => exact trivial
  | leaf mark token rest ih => exact ⟨sound.1, sound.2.1, ih sound.2.2⟩
  | element name body inside closing tail rest inner_ih rest_ih =>
    obtain ⟨opens, more, closes, same, inner, later⟩ := sound
    exact ⟨opens, more, closes, same, inner_ih inner, rest_ih later⟩

theorem marks_marked {kind : GraphKind} (mem : kind ∈ kinds)
    (single : ∀ t : Token, t.isBlock kind = true → ∀ k ∈ kinds, t.isBlock k = true → k = kind) :
    ((f.marked kinds before).scripts.filter fun s => s.2.isBlock kind).map Prod.fst =
      List.range' (1 + before.countP (·.isBlock kind))
        ((f.scripts.map Prod.snd).countP (·.isBlock kind)) := by
  induction f generalizing before with
  | nil => rfl
  | leaf mark token rest ih =>
    have rest_ := @ih (before ++ [token])
    rw [List.countP_append, List.countP_singleton] at rest_
    rw [marked, scripts, scripts]
    cases is : token.isBlock kind with
    | true =>
      have number : (before.countP fun t => kinds.any fun k => t.isBlock k && token.isBlock k) =
          before.countP (·.isBlock kind) := by
        apply List.countP_congr
        intro t _
        rw [List.any_eq_true]
        constructor
        · rintro ⟨k, known, both⟩
          rw [Bool.and_eq_true] at both
          rw [← single token is k known both.2]
          exact both.1
        · intro block
          exact ⟨kind, mem, by rw [block, is]; rfl⟩
      have script := Token.isScript_of_isBlock is
      rw [is] at rest_
      rw [if_pos script, if_pos script, number, List.filter_cons, is, if_pos rfl, List.map_cons,
        List.map_cons, List.countP_cons, is, if_pos rfl, List.range'_succ, rest_]
      rfl
    | false =>
      rw [is] at rest_
      split <;> simpa [List.filter_cons, List.countP_cons, is] using rest_
  | element name body inside closing tail rest inner_ih rest_ih =>
    rw [marked, scripts, scripts, List.filter_append, List.map_append, List.map_append,
      List.countP_append, inner_ih, rest_ih, List.countP_append, ← Nat.add_assoc,
      List.range'_append_1]

theorem marked_isNumbered {kind : GraphKind} (mem : kind ∈ kinds)
    (single : ∀ t : Token, t.isBlock kind = true → ∀ k ∈ kinds, t.isBlock k = true → k = kind) :
    (f.marked kinds []).IsNumbered kind :=
  ⟨_, marks_marked mem single⟩

end Forest
end Html

theorem numbered_marks {kind : GraphKind} {xs : List Placed} {index n : Nat}
    (marks : xs.map Placed.mark = List.range' index n) :
    numbered kind index xs = xs.map fun x => (x.element, x.token.block kind x.mark) := by
  induction xs generalizing index n with
  | nil => rfl
  | cons x xs ih =>
    cases n with
    | zero => cases marks
    | succ n =>
      rw [List.map_cons, List.range'_succ] at marks
      obtain ⟨first, rest_⟩ := List.cons.inj marks
      rw [numbered, ih rest_, List.map_cons, first]

namespace BlockOutcome

def isRendered : BlockOutcome → Bool
  | rendered _ => true
  | _ => false

def addTo (cache : ArtifactCache) (target : String) : BlockOutcome → ArtifactCache
  | rendered result => cache.insertRendered target result
  | _ => cache

def error? (kind : GraphKind) (target : String) : BlockOutcome → Option BlockError
  | unavailable e => some (.resourceFetch kind.name (some target) e.url e.message)
  | refused e => some (.render kind.name target e.message)
  | rendered _ => none

end BlockOutcome

theorem addResult_outcome (cache : ArtifactCache) (b : HandledBlock) :
    addResult cache b = b.outcome.addTo cache b.block.output := by
  obtain ⟨marker, block, outcome⟩ := b
  cases outcome <;> rfl

theorem isSome_result? (b : HandledBlock) : b.result?.isSome = b.outcome.isRendered := by
  obtain ⟨marker, block, outcome⟩ := b
  cases outcome <;> rfl

def Html.Token.isInputOf (h : GraphHandler) (t : Token) : Bool := h.inputFiles.any t.isScriptOf

section Scripts

variable (env : Surroundings) (engine : GraphEngine) (h : GraphHandler)
variable (scripts : List (Nat × Token))

def inputsIn : List InputFile × List BlockError :=
  inputsWith env h.kind ((scripts.filter fun s => s.2.isInputOf h).map fun s => s.2.inputFile)

def outcomeIn (number : Nat) (t : Token) : BlockOutcome :=
  outcomeOf env engine (inputsIn env h scripts).1 (t.block h.kind number)

def isDone (mark : Nat) (t : Token) : Bool :=
  t.isBlock h.kind && (outcomeIn env engine h scripts mark t).isRendered

def madeIn : ArtifactCache :=
  (scripts.filter fun s => s.2.isBlock h.kind).foldl
    (fun cache s => (outcomeIn env engine h scripts s.1 s.2).addTo cache s.2.output) .empty

def errorsIn : List BlockError :=
  let blocks := scripts.filter fun s => s.2.isBlock h.kind
  if blocks.isEmpty then []
  else (inputsIn env h scripts).2 ++
    blocks.filterMap fun s => (outcomeIn env engine h scripts s.1 s.2).error? h.kind s.2.output

def Html.Token.concerns (h : GraphHandler) (t : Token) : Bool := t.isBlock h.kind || t.isInputOf h

end Scripts

section Concerned

variable {env : Surroundings} {engine : GraphEngine} {h : GraphHandler}
variable {scripts scripts' : List (Nat × Token)}

theorem filter_concerned (is : Token → Bool)
    (same : (scripts.filter fun s => s.2.concerns h) = scripts'.filter fun s => s.2.concerns h)
    (within : ∀ t, is t = true → t.concerns h = true) :
    (scripts.filter fun s => is s.2) = scripts'.filter fun s => is s.2 := by
  have both := congrArg (List.filter fun s => is s.2) same
  have absorbed : (fun s : Nat × Token => is s.2 && s.2.concerns h) = fun s => is s.2 := by
    funext s
    cases chosen : is s.2 with
    | true => rw [within s.2 chosen]; rfl
    | false => rfl
  rwa [List.filter_filter, List.filter_filter, absorbed] at both

theorem concerns_of_isBlock {t : Token} (is : t.isBlock h.kind = true) : t.concerns h = true := by
  rw [Token.concerns, is, Bool.true_or]

theorem of_concerned (env : Surroundings) (engine : GraphEngine)
    (same : (scripts.filter fun s => s.2.concerns h) = scripts'.filter fun s => s.2.concerns h) :
    madeIn env engine h scripts = madeIn env engine h scripts' ∧
      errorsIn env engine h scripts = errorsIn env engine h scripts' ∧
      isDone env engine h scripts = isDone env engine h scripts' := by
  have blocks := filter_concerned (·.isBlock h.kind) same fun t => concerns_of_isBlock
  have files := filter_concerned (·.isInputOf h) same fun t is => by
    rw [Token.concerns, is, Bool.or_true]
  have inputs : inputsIn env h scripts = inputsIn env h scripts' := by
    rw [inputsIn, inputsIn, files]
  have outcomes : outcomeIn env engine h scripts = outcomeIn env engine h scripts' := by
    funext mark t
    rw [outcomeIn, outcomeIn, inputs]
  refine ⟨?_, ?_, ?_⟩
  · rw [madeIn, madeIn, blocks, outcomes]
  · rw [errorsIn, errorsIn, blocks, inputs, outcomes]
  · funext mark t
    rw [isDone, isDone, outcomes]

theorem onlyScripts_isDone : OnlyScripts (isDone env engine h scripts) := by
  intro mark t done
  rw [isDone, Bool.and_eq_true] at done
  exact Token.isScript_of_isBlock done.1

end Concerned

namespace Html.Forest

variable {f : Forest} {env : Surroundings} {engine : GraphEngine} {h : GraphHandler}

theorem handlingWith_text (sound : f.Sound) (numbers : f.IsNumbered h.kind) :
    handlingWith env engine h (scan (String.ofList f.text)) (String.ofList f.text)
        (blocksIn (scan (String.ofList f.text)) (String.ofList f.text) h.kind) =
      ⟨((f.placed 0).filter fun x => x.token.isBlock h.kind).map fun x =>
          ⟨x.element, x.token.block h.kind x.mark,
            outcomeIn env engine h f.scripts x.mark x.token⟩,
        (inputsIn env h f.scripts).2⟩ := by
  have files : ((inputFileMarkers h (scan (String.ofList f.text))).map fun e =>
      PendingInputFile.ofMarker e (String.ofList f.text)) =
        (f.scripts.filter fun s => s.2.isInputOf h).map fun s => s.2.inputFile := by
    unfold inputFileMarkers Token.isInputOf
    cases h.inputFiles with
    | none => simp
    | some type_ =>
      dsimp only [Option.any_some]
      rw [inputFiles_text sound, ← scripts_placed sound (·.isScriptOf type_)
        (fun t is => Token.isScript_of is) 0, List.map_map]
      rfl
  obtain ⟨n, marks⟩ := numbers
  rw [← scripts_placed sound (·.isBlock h.kind) (fun t is => Token.isScript_of_isBlock is) 0,
    List.map_map] at marks
  rw [handlingWith_blocks, files, blocksIn_text sound, numbered_marks marks, List.map_map]
  rfl

theorem resultsOf_text (sound : f.Sound) :
    resultsOf (((f.placed 0).filter fun x => x.token.isBlock h.kind).map fun x =>
        ⟨x.element, x.token.block h.kind x.mark,
          outcomeIn env engine h f.scripts x.mark x.token⟩) = madeIn env engine h f.scripts := by
  rw [resultsOf, madeIn, ← scripts_placed sound (·.isBlock h.kind)
    (fun t is => Token.isScript_of_isBlock is) 0, List.foldl_map, List.foldl_map]
  congr 1
  funext cache x
  exact addResult_outcome _ _

theorem renderedOf_text :
    ((renderedOf (((f.placed 0).filter fun x => x.token.isBlock h.kind).map fun x =>
        ⟨x.element, x.token.block h.kind x.mark,
          outcomeIn env engine h f.scripts x.mark x.token⟩)).map fun b => Edit.remove b.marker) =
      ((f.placed 0).filter fun x => isDone env engine h f.scripts x.mark x.token).map fun x =>
        Edit.remove x.element := by
  rw [renderedOf, List.filter_map, List.filter_filter, List.map_map]
  congr 1
  apply List.filter_congr
  intro x _
  rw [Function.comp_apply, isSome_result?, isDone, Bool.and_comm]

theorem errors_text (sound : f.Sound) :
    (((f.placed 0).filter fun x => x.token.isBlock h.kind).map fun x =>
        HandledBlock.mk x.element (x.token.block h.kind x.mark)
          (outcomeIn env engine h f.scripts x.mark x.token)).filterMap (·.error? h.kind) =
      (f.scripts.filter fun s => s.2.isBlock h.kind).filterMap fun s =>
        (outcomeIn env engine h f.scripts s.1 s.2).error? h.kind s.2.output := by
  rw [← scripts_placed sound (·.isBlock h.kind) (fun t is => Token.isScript_of_isBlock is) 0,
    List.filterMap_map, List.filterMap_map]
  rfl

end Html.Forest

theorem Html.Forest.blocks_fresh {h : GraphHandler} {satisfied : List String} {f : Forest}
    (sound : f.Sound)
    (fresh : ∀ s ∈ f.scripts, s.2.isBlock h.kind = true → s.2.output ∉ satisfied) :
    ∀ b ∈ blocksIn (scan (String.ofList f.text)) (String.ofList f.text) h.kind,
      b.2.output ∉ satisfied := by
  rw [blocksIn_text sound]
  intro b mem
  obtain ⟨x, known, -, i, same⟩ := mem_numbered mem
  have script : (x.mark, x.token) ∈ f.scripts.filter fun s => s.2.isBlock h.kind := by
    rw [← scripts_placed sound (·.isBlock h.kind) (fun t is => Token.isScript_of_isBlock is) 0]
    exact List.mem_map_of_mem known
  obtain ⟨script, is⟩ := List.mem_filter.1 script
  rw [same]
  exact fresh _ script is

/-- The edits of a pass over blocks none of which is satisfied, as a list of removals and the
results. -/
theorem passWith_pending (env : Surroundings) (engine : GraphEngine) {h : GraphHandler}
    (emit : Emit) {satisfied : List String} {f : Forest} (sound : f.Sound)
    (numbers : f.IsNumbered h.kind)
    (fresh : ∀ s ∈ f.scripts, s.2.isBlock h.kind = true → s.2.output ∉ satisfied) :
    passWith env engine h (String.ofList f.text) emit satisfied =
      ⟨withEdits (String.ofList f.text)
          (emitEdits emit (scan (String.ofList f.text)) (String.ofList f.text)
            (madeIn env engine h f.scripts)
            (((f.placed 0).filter fun x => isDone env engine h f.scripts x.mark x.token).map fun x =>
              Edit.remove x.element)),
        errorsIn env engine h f.scripts⟩ := by
  have fresh_ := Forest.blocks_fresh sound fresh
  have count : (blocksIn (scan (String.ofList f.text)) (String.ofList f.text) h.kind).isEmpty =
      (f.scripts.filter fun s => s.2.isBlock h.kind).isEmpty := by
    rw [← Forest.scripts_placed sound (·.isBlock h.kind)
        (fun t is => Token.isScript_of_isBlock is) 0, List.isEmpty_map, Forest.blocksIn_text sound]
    cases (f.placed 0).filter fun x => x.token.isBlock h.kind <;> rfl
  rw [passWith, pendingBlocks_fresh fresh_, dropEdits_fresh fresh_,
    Forest.handlingWith_text sound numbers, count]
  dsimp only
  rw [Forest.resultsOf_text sound, Forest.renderedOf_text, Forest.errors_text sound, errorsIn]
  cases none_ : (f.scripts.filter fun s => s.2.isBlock h.kind).isEmpty with
  | false => rfl
  | true =>
    have nothing := List.isEmpty_iff.1 none_
    have removals : ((f.placed 0).filter fun x =>
        isDone env engine h f.scripts x.mark x.token) = [] := by
      rw [← Forest.scripts_placed sound (·.isBlock h.kind)
        (fun t is => Token.isScript_of_isBlock is) 0, List.map_eq_nil_iff,
        List.filter_eq_nil_iff] at nothing
      rw [List.filter_eq_nil_iff]
      intro x mem done
      rw [isDone, Bool.and_eq_true] at done
      exact nothing x mem done.1
    rw [if_pos rfl, if_pos rfl, madeIn, nothing, removals]
    cases emit with
    | substitute =>
      rw [emitEdits, List.foldl_nil, displayAll_empty]
      rfl
    | serialize => rfl

theorem passWith_substitute {P : Token → Prop} (env : Surroundings) (engine : GraphEngine)
    {h : GraphHandler} {satisfied : List String} {f : Forest} (sound : f.Sound)
    (tidy : ∀ t ∈ f.tokens, t.IsTidy) (numbers : f.IsNumbered h.kind)
    (takes : ∀ t ∈ f.tokens, t.Takes P (madeIn env engine h f.scripts).get?)
    (fresh : ∀ s ∈ f.scripts, s.2.isBlock h.kind = true → s.2.output ∉ satisfied) :
    passWith env engine h (String.ofList f.text) .substitute satisfied =
      ⟨String.ofList (f.rendered (madeIn env engine h f.scripts).get?
          (isDone env engine h f.scripts)).text, errorsIn env engine h f.scripts⟩ := by
  rw [passWith_pending env engine .substitute sound numbers fresh]
  congr 1
  exact withEdits_rendered onlyScripts_isDone sound tidy takes (.refl _)

end Playground
