import Playground.Engine.Gnuplot
import Playground.Proofs.Files

/-! The folder of a script, and all that is touched on the disk. -/

namespace Playground.Gnuplot

open Playground.Path

theorem isPlain_iff {name : String} : isPlain name = true ↔ ¬ LeadsOut name := by
  constructor
  · intro plain out
    rw [isPlain, Bool.and_eq_true, Bool.not_eq_true', List.all_eq_true] at plain
    have some_ : name ≠ "" := by simpa using plain.1
    obtain ⟨c, mem, other⟩ := components_leadsOut out some_
    cases c with
    | name text => exact other text rfl
    | _ => exact absurd (plain.2 _ mem) Bool.false_ne_true
  · intro inside
    obtain ⟨names, -, -, same⟩ := components_ordinary inside
    have some_ : name ≠ "" := fun empty => inside (.inl empty)
    simp [isPlain, same, some_]

theorem scratchPath_refused (folder : String) {name : String} (out : LeadsOut name) :
    scratchPath folder name = .error (.plain ("invalid file name \"" ++ name ++ "\"")) := by
  rw [scratchPath, if_neg fun plain => isPlain_iff.1 plain out]

theorem scratchPath_accepted (folder : String) {name : String} (inside : ¬ LeadsOut name) :
    scratchPath folder name = .ok (join folder name) := by
  rw [scratchPath, if_pos (isPlain_iff.2 inside)]

theorem scratchPath_isBelow {folder name path : String} (leads : scratchPath folder name = .ok path) :
    IsBelow folder path := by
  by_cases out : LeadsOut name
  · rw [scratchPath_refused folder out] at leads
    cases leads
  · rw [scratchPath_accepted folder out] at leads
    cases leads
    exact isBelow_join folder out

namespace Scratch

structure Confined (s : Scratch) : Prop where
  touched : ∀ path ∈ s.touched, IsBelow s.folder path
  /-- Every file of the disk is at the place of a path that was touched. -/
  files : ∀ file ∈ s.tree.files, ∃ path ∈ s.touched, file.1 = place path

variable {s : Scratch}

theorem new_folder (folder : String) : (new folder).folder = folder := by
  rw [new]
  split <;> rfl

theorem new_confined (folder : String) : (new folder).Confined := by
  rw [new]
  split
  · next tree made =>
    have none_ : tree.files = [] := FileTree.addFolders_files made
    exact ⟨nofun, by simp [none_]⟩
  · exact ⟨nofun, nofun⟩

theorem stage_folder (s : Scratch) (file : InputFile) : (s.stage file).2.folder = s.folder := by
  unfold stage
  split
  · rfl
  · dsimp only
    split <;> rfl

theorem Confined.stage (confined : s.Confined) (file : InputFile) : (s.stage file).2.Confined := by
  unfold Scratch.stage
  split
  · exact confined
  · next path leads =>
    -- Whether it can be written or not, the path is touched.
    have touched : ∀ p ∈ s.touched ++ [path], IsBelow s.folder p := by
      rw [List.forall_mem_append, List.forall_mem_singleton]
      exact ⟨confined.touched, scratchPath_isBelow leads⟩
    have files : ∀ f ∈ s.tree.files, ∃ p ∈ s.touched ++ [path], f.1 = place p := by
      intro f mem
      obtain ⟨p, known, same⟩ := confined.files f mem
      exact ⟨p, List.mem_append_left _ known, same⟩
    dsimp only
    split
    · next tree written =>
      refine ⟨touched, ?_⟩
      intro f mem
      rcases FileTree.mem_write written f mem with old | rfl
      · exact files f old
      · exact ⟨path, by simp, rfl⟩
    · exact ⟨touched, files⟩

theorem stage_refused (s : Scratch) {file : InputFile} (out : LeadsOut file.name) :
    ∃ e, s.stage file = (.error e, s) := by
  rw [stage, scratchPath_refused s.folder out]
  exact ⟨_, rfl⟩

theorem stageAll_induction {P : Scratch → Prop} (step : ∀ s file, P s → P (s.stage file).2)
    (start : P s) (files : List InputFile) : P (s.stageAll files).2 := by
  induction files generalizing s with
  | nil => exact start
  | cons file files ih =>
    have next := step s file start
    rw [stageAll]
    split
    · next staged =>
      rw [staged] at next
      exact next
    · next staged =>
      rw [staged] at next
      exact ih next

theorem stageAll_folder (s : Scratch) (files : List InputFile) :
    (s.stageAll files).2.folder = s.folder :=
  stageAll_induction (P := fun t => t.folder = s.folder)
    (fun t file same => (stage_folder t file).trans same) rfl files

theorem Confined.stageAll (confined : s.Confined) (files : List InputFile) :
    (s.stageAll files).2.Confined :=
  stageAll_induction (fun _ file confined => confined.stage file) confined files

theorem stageAll_refused (s : Scratch) {files : List InputFile}
    (out : ∃ file ∈ files, LeadsOut file.name) :
    ∃ e t, s.stageAll files = (.error e, t) := by
  induction files generalizing s with
  | nil =>
    obtain ⟨file, none_, -⟩ := out
    cases none_
  | cons file files ih =>
    rw [stageAll]
    split
    · exact ⟨_, _, rfl⟩
    · next t staged =>
      apply ih
      obtain ⟨f, mem, leads⟩ := out
      rcases List.mem_cons.1 mem with rfl | mem
      · obtain ⟨e, refused⟩ := s.stage_refused leads
        rw [refused] at staged
        cases staged
      · exact ⟨f, mem, leads⟩

end Scratch

theorem runScript_touched (gnuplot : Program) (r : RenderRequest) (path : String) (s : Scratch) :
    ∀ p ∈ (runScript gnuplot r path s).touched, p ∈ s.touched ∨ p = path := by
  unfold runScript
  split
  · exact fun p mem => .inl mem
  · split
    · -- The result is looked for, and it is there or not.
      split
      all_goals
        next found t left =>
          have looked : s.touched ++ [path] = t.touched :=
            congrArg (fun answer => answer.2.touched) left
          rw [← looked]
          simp
    · exact fun p mem => .inl mem

theorem attempt_touched (gnuplot : Program) (folder : String) (r : RenderRequest) :
    ∀ path ∈ (attempt gnuplot folder r).touched, IsBelow folder path := by
  have confined := (Scratch.new_confined folder).stageAll r.files
  have same : ((Scratch.new folder).stageAll r.files).2.folder = folder :=
    (Scratch.stageAll_folder _ r.files).trans (Scratch.new_folder folder)
  unfold attempt
  split
  · nofun
  · next path leads =>
    split
    · next staged =>
      rw [staged] at confined same
      exact same ▸ confined.touched
    · next s staged =>
      rw [staged] at confined same
      intro p mem
      rcases runScript_touched gnuplot r path s p mem with known | rfl
      · exact same ▸ confined.touched p known
      · exact scratchPath_isBelow leads

theorem attempt_refused (folder : String) {r : RenderRequest}
    (out : ∃ name ∈ r.output :: r.files.map InputFile.name, LeadsOut name) :
    ∃ e touched, ∀ gnuplot, attempt gnuplot folder r = ⟨.error e, false, touched⟩ := by
  by_cases refused : LeadsOut r.output
  · exact ⟨_, [], fun gnuplot => by rw [attempt, scratchPath_refused folder refused]⟩
  · have out' : ∃ file ∈ r.files, LeadsOut file.name := by
      obtain ⟨name, mem, leads⟩ := out
      rcases List.mem_cons.1 mem with rfl | mem
      · exact absurd leads refused
      · obtain ⟨file, among, rfl⟩ := List.mem_map.1 mem
        exact ⟨file, among, leads⟩
    obtain ⟨e, s, staged⟩ := (Scratch.new folder).stageAll_refused out'
    refine ⟨e, s.touched, fun gnuplot => ?_⟩
    rw [attempt, scratchPath_accepted folder refused, staged]

/-- Rendering stays in its folder. Every path that it touches is the folder followed by ordinary names,
and so is the place of every file that it stages. A name is refused just when it is empty, starts with
a slash or the part `.`, or has the part `..`; one name that is refused, of the result or of any file,
makes the rendering fail before the script is started, whatever program would run it. -/
theorem attempt_confined (folder : String) (r : RenderRequest) :
    (∀ gnuplot, ∀ path ∈ (attempt gnuplot folder r).touched, IsBelow folder path) ∧
      (∀ file ∈ ((Scratch.new folder).stageAll r.files).2.tree.files,
        ∃ names, names ≠ [] ∧ (∀ name ∈ names, IsOrdinary name) ∧
          file.1 = place folder ++ names) ∧
      (∀ name, scratchPath folder name =
        if LeadsOut name then .error (.plain ("invalid file name \"" ++ name ++ "\""))
        else .ok (join folder name)) ∧
      ((∃ name ∈ r.output :: r.files.map InputFile.name, LeadsOut name) →
        ∃ e touched, ∀ gnuplot, attempt gnuplot folder r = ⟨.error e, false, touched⟩) := by
  refine ⟨fun gnuplot => attempt_touched gnuplot folder r, ?_, ?_, attempt_refused folder⟩
  · intro file mem
    have confined := (Scratch.new_confined folder).stageAll r.files
    obtain ⟨path, touched, same⟩ := confined.files file mem
    have below := confined.touched path touched
    rw [Scratch.stageAll_folder, Scratch.new_folder] at below
    rw [same]
    exact below.place
  · intro name
    split
    · next out => exact scratchPath_refused folder out
    · next inside => exact scratchPath_accepted folder inside

end Playground.Gnuplot
