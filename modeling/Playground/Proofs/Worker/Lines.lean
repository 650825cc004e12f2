import Playground.Cli.Worker
import Playground.Fetch
import Playground.Proofs.Json.Spelling
import Playground.Proofs.Worker.Callers

/-! A worker that is spoken to line by line keeps its lines apart, up to one that it cannot read
(`worker_framed`). -/

namespace Playground

open Json (Spells AreVisible)

/-- The message that a line carries, if it carries one. -/
def WorkerInput.ofLine? (line : String) : Option WorkerInput := (ofJsonText line).toOption

namespace Json

theorem skipBlanks_rest (c : Cursor) : (skipBlanks c).rest = c.rest.dropWhile isJsonBlank := by
  rw [skipBlanks, Cursor.advance]
  induction c.rest with
  | nil => rfl
  | cons d cs ih =>
    cases blank : isJsonBlank d with
    | false => simp [blank]
    | true => simpa [blank] using ih

end Json

theorem WorkerInput.ofLine?_blank {line : String} (blank : isBlankText line = true) :
    ofLine? line = none := by
  have clean : ∀ d ∈ (Json.skipBlanks (.ofText line)).rest, isBlank d = true := by
    intro d mem
    rw [Json.skipBlanks_rest] at mem
    exact List.all_eq_true.1 blank d ((List.dropWhile_sublist _).mem mem)
  have failed : ∃ fault, read (.ofText line) = .error fault := by
    rw [read]
    dsimp only
    split
    · next start => exact absurd (clean '"' (start ▸ List.mem_cons_self)) (by decide)
    · next start => exact absurd (clean '\x7b' (start ▸ List.mem_cons_self)) (by decide)
    · exact ⟨_, rfl⟩
    · exact ⟨_, rfl⟩
  obtain ⟨fault, failed⟩ := failed
  rw [ofLine?, ofJsonText, Json.readWhole, failed]
  rfl

namespace CompileWorker

variable (env : Surroundings)

theorem answerLine_none {line : String} (none_ : WorkerInput.ofLine? line = none)
    (w : CompileWorker) : w.answerLine env line = (none, w) := by
  unfold answerLine
  split
  · rfl
  · split
    · rfl
    · next read =>
      rw [WorkerInput.ofLine?, read] at none_
      cases none_

theorem answerLine_some {line : String} {message : WorkerInput}
    (some_ : WorkerInput.ofLine? line = some message) (w : CompileWorker) :
    w.answerLine env line = (some (w.handle env message).1, (w.handle env message).2) := by
  unfold answerLine
  split
  · next blank =>
    rw [WorkerInput.ofLine?_blank blank] at some_
    cases some_
  · split
    · next read =>
      rw [WorkerInput.ofLine?, read] at some_
      cases some_
    · next read =>
      rw [WorkerInput.ofLine?, read] at some_
      cases some_
      rfl

theorem foldl_hear_log (messages : List (Surroundings × WorkerInput)) (log : List Exchange)
    (w : CompileWorker) :
    messages.foldl hear (log, w) = ((converse messages w).1 ++ log, (converse messages w).2) := by
  induction messages using List.reverseRecOn with
  | nil => rfl
  | append_singleton messages message ih =>
    rw [List.foldl_append, ih, converse_snoc]
    rfl

theorem exchanges_cons (message : Surroundings × WorkerInput)
    (messages : List (Surroundings × WorkerInput)) (w : CompileWorker) :
    exchanges (message :: messages) w = ⟨message.2, (w.handle message.1 message.2).1⟩ ::
      exchanges messages (w.handle message.1 message.2).2 := by
  have log : converse (message :: messages) w = _ := foldl_hear_log messages [_] _
  rw [exchanges, log, List.reverse_append]
  rfl

end CompileWorker

/-- Lines that end in line feeds, but for the last one, which need not. -/
inductive AreLines : List (List UInt8) → Prop
  | nil : AreLines []
  | last (b : UInt8) (line : List UInt8) (clean : lineFeed ∉ b :: line) : AreLines [b :: line]
  | cons {lines : List (List UInt8)} (line : List UInt8) (clean : lineFeed ∉ line)
      (more : AreLines lines) : AreLines ((line ++ [lineFeed]) :: lines)

theorem cutLines_cons {b : UInt8} (other : b ≠ lineFeed) (rest : List UInt8) :
    cutLines (b :: rest) =
      match cutLines rest with
      | [] => [[b]]
      | line :: more => (b :: line) :: more := by
  rw [cutLines]
  exact if_neg other

theorem areLines_cutLines (bytes : List UInt8) : AreLines (cutLines bytes) := by
  induction bytes with
  | nil => exact .nil
  | cons b rest ih =>
    by_cases feed : b = lineFeed
    · rw [cutLines, if_pos feed, feed]
      exact .cons [] List.not_mem_nil ih
    · rw [cutLines_cons feed]
      have first : lineFeed ∉ [b] := by simpa using Ne.symm feed
      generalize cutLines rest = lines at ih
      cases ih with
      | nil => exact .last b [] first
      | last c line clean => exact .last b (c :: line) (List.not_mem_append first clean)
      | cons line clean more => exact .cons (b :: line) (List.not_mem_append first clean) more

theorem flatten_cutLines (bytes : List UInt8) : (cutLines bytes).flatten = bytes := by
  induction bytes with
  | nil => rfl
  | cons b rest ih =>
    by_cases feed : b = lineFeed
    · rw [cutLines, if_pos feed, List.flatten_cons, ih, List.singleton_append]
    · rw [cutLines_cons feed]
      cases lines : cutLines rest with
      | nil => rw [← ih, lines]; rfl
      | cons line more => rw [← ih, lines]; rfl

theorem cutLines_append {line : List UInt8} (clean : lineFeed ∉ line) (rest : List UInt8) :
    cutLines (line ++ lineFeed :: rest) = (line ++ [lineFeed]) :: cutLines rest := by
  induction line with
  | nil => rfl
  | cons b line ih =>
    rw [List.mem_cons, not_or] at clean
    rw [List.cons_append, cutLines_cons (Ne.symm clean.1), ih clean.2]
    rfl

theorem cutLines_clean {b : UInt8} {line : List UInt8} (clean : lineFeed ∉ b :: line) :
    cutLines (b :: line) = [b :: line] := by
  induction line generalizing b with
  | nil => rw [cutLines_cons (fun feed => clean (feed ▸ List.mem_cons_self)), cutLines]
  | cons c line ih =>
    rw [List.mem_cons, not_or] at clean
    rw [cutLines_cons (Ne.symm clean.1), ih clean.2]

namespace AreLines

variable {lines : List (List UInt8)}

theorem cutLines_flatten (are : AreLines lines) : cutLines lines.flatten = lines := by
  induction are with
  | nil => rfl
  | last b line clean => rw [List.flatten_singleton, cutLines_clean clean]
  | cons line clean more ih =>
    rw [List.flatten_cons, List.append_assoc, List.singleton_append, cutLines_append clean, ih]

theorem filter (are : AreLines lines) (keep : List UInt8 → Bool) :
    AreLines (lines.filter keep) := by
  induction are with
  | nil => exact .nil
  | last b line clean =>
    rw [List.filter_singleton]
    cases keep (b :: line) with
    | true => exact .last b line clean
    | false => exact .nil
  | cons line clean more ih =>
    rw [List.filter_cons]
    split
    · exact .cons line clean ih
    · exact ih

end AreLines

def readTexts (lines : List (List UInt8)) : List String :=
  (lines.takeWhile fun line => (lineText? line).isSome).filterMap lineText?

/-- A line that is text and carries no message. -/
def isIdle (line : List UInt8) : Bool :=
  (lineText? line).any fun text => (WorkerInput.ofLine? text).isNone

theorem readTexts_none {line : List UInt8} (none_ : lineText? line = none)
    (rest : List (List UInt8)) : readTexts (line :: rest) = [] := by
  simp [readTexts, none_]

theorem readTexts_some {line : List UInt8} {text : String} (some_ : lineText? line = some text)
    (rest : List (List UInt8)) : readTexts (line :: rest) = text :: readTexts rest := by
  simp [readTexts, some_]

theorem messages_filter (lines : List (List UInt8)) :
    (readTexts (lines.filter fun line => !isIdle line)).filterMap WorkerInput.ofLine? =
        (readTexts lines).filterMap WorkerInput.ofLine? ∧
      ((lines.filter fun line => !isIdle line).all fun line => (lineText? line).isSome) =
        lines.all fun line => (lineText? line).isSome := by
  induction lines with
  | nil => exact ⟨rfl, rfl⟩
  | cons line rest ih =>
    cases read : lineText? line with
    | none =>
      have busy : isIdle line = false := by rw [isIdle, read]; rfl
      rw [List.filter_cons, busy, readTexts_none read]
      exact ⟨by rw [Bool.not_false, if_pos rfl, readTexts_none read], by simp [read]⟩
    | some text =>
      rw [List.filter_cons, isIdle, read, readTexts_some read]
      cases carried : WorkerInput.ofLine? text with
      | none => simpa [carried, read] using ih
      | some message => simpa [carried, read, readTexts_some read] using ih

namespace CompileWorker

theorem serve_eq (env : Surroundings) (lines : List (List UInt8)) (w : CompileWorker) :
    w.serve env lines =
      ((exchanges (((readTexts lines).filterMap WorkerInput.ofLine?).map (env, ·)) w).map (·.output),
        lines.all fun line => (lineText? line).isSome) := by
  induction lines generalizing w with
  | nil => rfl
  | cons line rest ih =>
    rw [serve]
    cases read : lineText? line with
    | none => rw [readTexts_none read, List.all_cons, read]; rfl
    | some text =>
      rw [readTexts_some read, List.all_cons, read]
      dsimp only
      cases carried : WorkerInput.ofLine? text with
      | none =>
        rw [answerLine_none env carried, List.filterMap_cons_none carried, ih]
        rfl
      | some message =>
        rw [answerLine_some env carried, List.filterMap_cons_some carried, List.map_cons,
          exchanges_cons, List.map_cons, ih]
        rfl

end CompileWorker

theorem WorkerOutput.line_toList (o : WorkerOutput) :
    o.line.toList = o.toJson.compactChars ++ ['\n'] := by
  rw [line, String.toList_append, Json.compact, String.toList_ofList]
  rfl

theorem splitOn_lines {texts : List (List Char)} (clean : ∀ text ∈ texts, '\n' ∉ text) :
    (texts.flatMap (· ++ ['\n'])).splitOn '\n' = texts ++ [[]] := by
  induction texts with
  | nil => rfl
  | cons text texts ih =>
    rw [List.forall_mem_cons] at clean
    rw [List.flatMap_cons, List.append_assoc, List.singleton_append,
      List.splitOn_append_cons_self_of_not_mem clean.1, ih clean.2, List.cons_append]

theorem WorkerOutput.splitOn_lines (outputs : List WorkerOutput) :
    (lines outputs).toList.splitOn '\n' =
      outputs.map (fun o => o.toJson.compactChars) ++ [[]] := by
  have texts : (lines outputs).toList =
      (outputs.map fun o => o.toJson.compactChars).flatMap (· ++ ['\n']) := by
    rw [lines, String.toList_join, List.flatMap_map, List.flatMap_map]
    exact congrArg (List.flatMap · _) (funext line_toList)
  rw [texts]
  refine Playground.splitOn_lines fun text mem feed => ?_
  obtain ⟨o, -, rfl⟩ := List.mem_map.1 mem
  exact absurd (Json.visible_compact o.toJson _ feed) (by decide)

namespace Cli

/-- A worker that cannot be started writes nothing. One that is started answers the lines of its input
up to the first that is not UTF-8, and gives up there. Between the line breaks that it writes stand
the replies to the messages among those lines, one for each and in their order; a blank line is no
message. Lines that are text and no message might as well be left out. A reply, whatever it says and
however long it took, is one JSON text in which no control character stands, and so no line break. -/
theorem worker_framed (place : Installation) (args : List String) (files : FileTree)
    (input : List UInt8) :
    match startWorker place args files with
    | .error exit => runWorkerOn place args files input = (exit, [])
    | .ok (env, w) =>
      let lines := cutLines input
      let messages := (readTexts lines).filterMap WorkerInput.ofLine?
      let log := w.exchanges (messages.map (env, ·))
      let outputs := log.map (·.output)
      lines.flatten = input ∧ AreLines lines ∧
        log.map (·.input) = messages ∧
        runWorkerOn place args files input =
          (endOfInput (lines.all fun line => (lineText? line).isSome), outputs) ∧
        (WorkerOutput.lines outputs).toList.splitOn '\n' =
          outputs.map (fun o => o.toJson.compactChars) ++ [[]] ∧
        (∀ text, isBlankText text = true → WorkerInput.ofLine? text = none) ∧
        runWorkerOn place args files (lines.filter fun line => !isIdle line).flatten =
          runWorkerOn place args files input ∧
        ∀ o : WorkerOutput, ∃ text, o.line.toList = text ++ ['\n'] ∧
          Spells (.value o.toJson) text ∧ AreVisible text := by
  cases started : startWorker place args files with
  | error exit => simp only [runWorkerOn, started]
  | ok start =>
    obtain ⟨env, w⟩ := start
    dsimp only
    let lines := cutLines input
    let messages := (readTexts lines).filterMap WorkerInput.ofLine?
    let log := w.exchanges (messages.map (env, ·))
    let outputs := log.map (·.output)
    have are := areLines_cutLines input
    have served : w.serve env lines = (outputs, lines.all fun line => (lineText? line).isSome) :=
      w.serve_eq env lines
    have run : runWorkerOn place args files input =
        (endOfInput (lines.all fun line => (lineText? line).isSome), outputs) := by
      rw [runWorkerOn, started]
      dsimp only
      rw [served]
    refine ⟨flatten_cutLines input, are, ?_, run, WorkerOutput.splitOn_lines outputs,
      fun text => WorkerInput.ofLine?_blank, ?_, fun o => ?_⟩
    · rw [CompileWorker.exchanges_input, List.map_map]
      exact List.map_id messages
    · obtain ⟨same, whole⟩ := messages_filter lines
      rw [run, runWorkerOn, started]
      dsimp only
      rw [(are.filter _).cutLines_flatten, CompileWorker.serve_eq, same, whole]
    · exact ⟨_, o.line_toList, Json.spells_compact _, Json.visible_compact _⟩

/-- A message is not answered behind a line that is not UTF-8, nor by a worker whose configuration is
not there. -/
theorem message_unanswered :
    let place : Installation := ⟨.empty, fetchOffline⟩
    let message := bytesOf "\"ClearCache\"\n"
    (cutLines message).map (fun line => (lineText? line).bind WorkerInput.ofLine?) =
        [some .clearCache] ∧
      runWorkerOn place [] .empty message = (.success, [.cacheCleared]) ∧
      runWorkerOn place [] .empty (0xff :: lineFeed :: message) = (.failure, []) ∧
      runWorkerOn place ["missing.json"] .empty message = (.failure, []) := by
  refine ⟨?_, ?_, ?_, ?_⟩
  · rfl
  · rfl
  · rfl
  · rfl

end Cli

end Playground
