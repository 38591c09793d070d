/-
What a run leaves on disk, on every disk.

The paths of a run lead through directories without dots to files with one
(`planned_dotted`), so none lies below another and tasks with distinct paths
are separate (`run_separates`). Once the two files that all modules need are
written (`generateWith_eq`), the tasks go on from there one by one, and
`generate_leaves` says which are written, which fail, and that everything else
is as it was.
-/
import ProtoBind.Proofs.Output.Effects
import ProtoBind.Proofs.Results
import ProtoBind.Proofs.Source.Printing

namespace ProtoBind.Output

open Schema (Graph)
open Codegen
open Source (splitAtChar_eq)

variable {t : Target} {g : Graph} {o : Options} {groups : List FileGroup} {d : Disk} {task : Task}

/-! ## Places of a run -/

/-- Different paths are different places. -/
theorem Target.at_inj {a b : String} (h : t.at a = t.at b) : a = b := by
  have hsplit := (List.map_inj_right fun _ _ => String.ofList_inj.mp).mp (List.append_cancel_left h)
  rw [splitAtChar_eq, splitAtChar_eq] at hsplit
  have hjoin := congrArg (['/'].intercalate ·) hsplit
  simp only [List.intercalate_splitOn] at hjoin
  exact String.toList_inj.mp hjoin

/-- A path through directories without dots to a file with one. -/
def Dotted (path : String) : Prop :=
  ∃ dirs file, Text.splitOnChar '/' path = dirs ++ [file] ∧ (∀ dir ∈ dirs, '.' ∉ dir.toList) ∧ '.' ∈ file.toList

theorem Dotted.not_below {a b : String} (ha : Dotted a) (hb : Dotted b) : Disk.isBelow (t.at a) (t.at b) = false := by
  obtain ⟨dirs, file, hsplit, hdirs, -⟩ := ha
  obtain ⟨dirs', file', hsplit', -, hfile'⟩ := hb
  rw [← Bool.not_eq_true]
  intro hbelow
  simp only [Disk.isBelow, Target.at, hsplit, hsplit', Bool.and_eq_true, List.isPrefixOf_iff_prefix, decide_eq_true_eq,
    List.prefix_append_right_inj, List.length_append, List.length_singleton] at hbelow
  obtain ⟨⟨rest, hrest⟩, hlength⟩ := hbelow
  -- The file of the path above is a directory of the path below.
  have hmem : file' ∈ dirs := by
    have hdir : dirs = (dirs' ++ [file'] ++ rest).dropLast := by simp [hrest]
    have hne : rest ≠ [] := by
      rintro rfl
      have := congrArg List.length hrest
      simp at this
      omega
    rw [hdir, List.dropLast_append_of_ne_nil hne]
    simp
  exact hdirs file' hmem hfile'

theorem Dotted.separates {a b : Task} (ha : Dotted a.path) (hb : Dotted b.path) (hne : a.path ≠ b.path) :
    t.Separates a b :=
  ⟨fun h => hne (Target.at_inj h), ha.not_below hb, hb.not_below ha⟩

theorem modulePath_dotted {parts : List String} (hparts : ∀ c ∈ parts, IsPart c)
    (hdots : ∀ c ∈ parts, '.' ∉ c.toList) : Dotted (modulePath parts) := by
  rcases List.eq_nil_or_concat parts with rfl | ⟨dirs, last, rfl⟩
  · exact ⟨[], ".py", by decide, nofun, by decide⟩
  · rw [List.concat_eq_append] at hparts hdots ⊢
    refine ⟨dirs, last ++ ".py", ?_, fun dir hdir => hdots dir (List.mem_append_left _ hdir), ?_⟩
    · have hpart : ∀ c ∈ dirs ++ [last ++ ".py"], IsPart c := by
        intro c hc
        rcases List.mem_append.mp hc with hc | hc
        · exact hparts c (List.mem_append_left _ hc)
        · have hlast := hparts last (by simp)
          rw [List.mem_singleton.mp hc]
          refine ⟨fun he => absurd (congrArg String.toList he) (by simp), ?_⟩
          rw [String.toList_append, List.mem_append, not_or]
          exact ⟨hlast.no_slash, by decide⟩
      rw [modulePath, ← join_concat_append, Text.splitOnChar, splitAtChar_eq, splitOn_join hpart (by simp), List.map_map]
      simp [Function.comp_def]
    · rw [String.toList_append]
      exact List.mem_append_right _ (by decide)

theorem component_no_dot (conv : Convention) (part : String) : '.' ∉ (conv.component part).toList :=
  fun h => absurd (component_isWord conv part _ h) (by decide)

theorem pathForFile_dotted (o : Options) (file : String) : Dotted (o.pathForFile file) := by
  refine modulePath_dotted (fileComponents_isPart o file) fun c hc => ?_
  obtain ⟨part, -, rfl⟩ := List.mem_map.mp hc
  exact component_no_dot o.naming part

theorem pathForPackage_dotted (o : Options) (package : Schema.Node) : Dotted (o.pathForPackage package) := by
  rw [pathForPackage_eq]
  refine modulePath_dotted (indexParts_isPart o package) fun c hc => ?_
  rcases List.mem_append.mp hc with hc | hc
  · unfold Options.packageComponents at hc
    split at hc
    next => cases hc
    next =>
      obtain ⟨part, -, rfl⟩ := List.mem_map.mp hc
      exact component_no_dot o.naming part
  · rw [List.mem_singleton.mp hc]
    decide

theorem documentFile_dotted : Dotted Options.documentFile := ⟨[], Options.documentFile, by decide, nofun, by decide⟩

theorem reflectionFile_dotted : Dotted Options.reflectionFile :=
  ⟨[], Options.reflectionFile, by decide, nofun, by decide⟩

/-- The two files that all modules need, as tasks. -/
def sharedTasks (document source : String) : List Task :=
  [⟨Options.documentFile, .ok document⟩, ⟨Options.reflectionFile, .ok source⟩]

/-- The tasks of a run. -/
def planned (g : Graph) (o : Options) : List Task := tasks g o (Codegen.groups g o) (indexes g o)

theorem mem_planned (h : task ∈ planned g o) :
    (∃ file, task.path = o.pathForFile file) ∨ ∃ package, task.path = o.pathForPackage package := by
  rcases List.mem_append.mp h with h | h
  · obtain ⟨group, hgroup, rfl⟩ := List.mem_map.mp h
    exact .inl ⟨group.file, (mem_groups hgroup).1⟩
  · obtain ⟨p, hp, rfl⟩ := List.mem_map.mp h
    exact .inr ⟨p.package, by rw [pathForPackage_eq]; exact indexes_path hp⟩

theorem planned_dotted (h : task ∈ planned g o) : Dotted task.path := by
  rcases mem_planned h with ⟨file, hf⟩ | ⟨package, hp⟩
  · exact hf ▸ pathForFile_dotted o file
  · exact hp ▸ pathForPackage_dotted o package

theorem planned_path_ne (hplan : plan g o = .ok groups) (h : task ∈ planned g o) :
    task.path ≠ Options.documentFile ∧ task.path ≠ Options.reflectionFile := by
  rcases List.mem_append.mp h with h | h
  · obtain ⟨group, hgroup, rfl⟩ := List.mem_map.mp h
    have hp := plan_eq_ok hplan
    refine ⟨fun he => ?_, hp.path_ne group (hp.groups_eq ▸ hgroup)⟩
    exact modulePath_ne_documentFile _ ((mem_groups hgroup).1.symm.trans he)
  · obtain ⟨p, hp, rfl⟩ := List.mem_map.mp h
    have hpath := indexes_path hp
    refine ⟨fun he => modulePath_ne_documentFile _ (hpath.symm.trans he), fun he => ?_⟩
    rw [← pathForPackage_eq] at hpath
    exact pathForPackage_ne_reflectionFile o _ (hpath.symm.trans he)

/-- The files of a run have separate places when the paths of its tasks are distinct. -/
theorem run_separates (t : Target) (hplan : plan g o = .ok groups) (document source : String)
    (hpaths : ((planned g o).map (·.path)).Nodup) :
    (sharedTasks document source ++ planned g o).Pairwise t.Separates := by
  have hne : ∀ task ∈ planned g o, _ := fun _ => planned_path_ne hplan
  have hdotted : ∀ task ∈ planned g o, Dotted task.path := fun _ => planned_dotted
  refine List.pairwise_cons.mpr ⟨?_, List.pairwise_cons.mpr ⟨?_, ?_⟩⟩
  · intro task htask
    rcases List.mem_cons.mp htask with rfl | htask
    · exact documentFile_dotted.separates reflectionFile_dotted
        (show Options.documentFile ≠ Options.reflectionFile by decide)
    · exact documentFile_dotted.separates (hdotted task htask) (hne task htask).1.symm
  · intro task htask
    exact reflectionFile_dotted.separates (hdotted task htask) (hne task htask).2.symm
  · have hnodup := List.pairwise_map.mp hpaths
    exact hnodup.imp_of_mem fun ha hb hab => (hdotted _ ha).separates (hdotted _ hb) hab

/-! ## A whole run -/

/-- The two files that all modules need can be written. -/
structure Shared (t : Target) (g : Graph) (o : Options) (d : Disk) (document source : String) : Prop where
  describe : Reflection.describe g o.validate = .ok document
  source : o.reflectionSource = .ok source
  document_free : d.Free (t.at Options.documentFile)
  reflection_free : d.Free (t.at Options.reflectionFile)

variable {document source : String}

theorem writeShared_eq {p : Progress} {path text : String} (h : p.disk.Free (t.at path)) :
    writeShared t path text p = ({ p with disk := p.disk.install (t.at path) text }.wrote path, none) := by
  unfold writeShared
  rw [Disk.writeFile_of_free h]

/-- Two texts at separate places. -/
theorem Leaves.two {a b x y : String} (ha : d.Free (t.at a)) (hb : d.Free (t.at b))
    (hs : t.Separates ⟨a, .ok x⟩ ⟨b, .ok y⟩) :
    (d.install (t.at a) x).Free (t.at b) ∧
      Leaves t d ((d.install (t.at a) x).install (t.at b) y) [⟨a, .ok x⟩, ⟨b, .ok y⟩] := by
  have hreports : ∀ path text, Task.Reports ⟨path, .ok text⟩ := fun path text f hf => by cases hf
  have hseparate : ∀ other ∈ [(⟨a, .ok x⟩ : Task)], t.Separates other ⟨b, .ok y⟩ := by
    intro other hother
    obtain rfl := List.mem_singleton.mp hother
    exact hs
  have hfirst := ((Leaves.nil t d).perform (hreports a x) nofun).1
  have hput : Task.perform t ⟨a, .ok x⟩ d = (d.install (t.at a) x, .written) := Task.perform_of_free rfl ha
  rw [hput] at hfirst
  have hfree := (hfirst.free _ fun other hother => (hseparate other hother).2).mpr hb
  have hboth := (hfirst.perform (hreports b y) hseparate).1
  have hput' : Task.perform t ⟨b, .ok y⟩ (d.install (t.at a) x) = ((d.install (t.at a) x).install (t.at b) y, .written) :=
    Task.perform_of_free rfl hfree
  rw [hput'] at hboth
  exact ⟨hfree, hboth⟩

/-- The shared files do not stand in each other's way. -/
theorem shared_leaves (hshared : Shared t g o d document source) :
    (d.install (t.at Options.documentFile) document).Free (t.at Options.reflectionFile) ∧
    Leaves t d ((d.install (t.at Options.documentFile) document).install (t.at Options.reflectionFile) source)
      (sharedTasks document source) := by
  have hne : Options.documentFile ≠ Options.reflectionFile := by decide
  exact Leaves.two hshared.document_free hshared.reflection_free
    (documentFile_dotted.separates reflectionFile_dotted hne)

/-- Once the shared files are written, the tasks decide about a run. -/
theorem generateWith_eq (hplan : plan g o = .ok groups) (hshared : Shared t g o d document source) :
    ∃ p, Leaves t d p.disk (sharedTasks document source) ∧
      p.written = [Options.documentFile, Options.reflectionFile] ∧ p.failures = [] ∧
      ∀ run, generateWith run t g o d = .ofProgress (run (planned g o) p).1 (run (planned g o) p).2 := by
  obtain ⟨hfree, hboth⟩ := shared_leaves hshared
  unfold generateWith
  rw [hplan, (plan_eq_ok hplan).groups_eq]
  dsimp only
  rw [hshared.describe, hshared.source]
  dsimp only
  generalize hstart : Progress.report ⟨d, [], [], []⟩ o _ = start
  have hdisk : start.disk = d := by rw [← hstart, Progress.report_disk]
  have hwritten : start.written = [] := by rw [← hstart, Progress.report_written]
  have hfailures : start.failures = [] := by rw [← hstart, Progress.report_failures]
  rw [writeShared_eq (by rw [hdisk]; exact hshared.document_free)]
  dsimp only
  rw [writeShared_eq (by rw [Progress.wrote_disk, hdisk]; exact hfree)]
  dsimp only
  refine ⟨_, ?_, ?_, ?_, fun _ => rfl⟩
  · rw [← hdisk] at hboth ⊢
    exact hboth
  · rw [Progress.wrote, Progress.wrote, hwritten]
    rfl
  · exact hfailures

/-- What a run gives and leaves: `written` and `failures` are told apart by its result, the files that were written
hold their texts, every other place is as it was, and no directories are new but those around the files. -/
structure Settles (t : Target) (d : Disk) (document source : String) (ts : List Task) (written : List String)
    (failures : List (String × FileFault)) (r : Run) : Prop where
  result : r.result =
    if failures = [] then .ok (Options.documentFile :: Options.reflectionFile :: written)
    else .error (.failed failures (Options.documentFile :: Options.reflectionFile :: written))
  document : r.disk.get? (t.at Options.documentFile) = some document
  source : r.disk.get? (t.at Options.reflectionFile) = some source
  texts : ∀ task ∈ ts, task.path ∈ written →
    ∃ text, task.text = .ok text ∧ r.disk.get? (t.at task.path) = some text
  failed : ∀ failure ∈ failures, r.disk.get? (t.at failure.1) = d.get? (t.at failure.1)
  others : ∀ place, place ≠ t.at Options.documentFile → place ≠ t.at Options.reflectionFile →
    (∀ path ∈ written, place ≠ t.at path) → r.disk.get? place = d.get? place
  directories : ∀ place, r.disk.isDirectory place = true ↔ d.isDirectory place = true ∨
    ∃ path ∈ Options.documentFile :: Options.reflectionFile :: written, Disk.isBelow (t.at path) place = true

/-- Separate tasks at one place are one task. -/
theorem eq_of_place_eq {ts : List Task} (hs : ts.Pairwise t.Separates) {a b : Task} (ha : a ∈ ts) (hb : b ∈ ts)
    (h : t.at a.path = t.at b.path) : a = b := by
  have hnodup : (ts.map fun task => t.at task.path).Nodup := List.pairwise_map.mpr (hs.imp And.left)
  exact List.inj_on_of_nodup_map hnodup ha hb h

theorem settles_of_leaves {p : Progress} {ts done : List Task} (hshared : Shared t g o d document source)
    (hs : (sharedTasks document source ++ ts).Pairwise t.Separates) (hdone : done ⊆ ts)
    (h : Leaves t d p.disk (sharedTasks document source ++ done))
    (hwritten : p.written = [Options.documentFile, Options.reflectionFile] ++ succeeding t d done)
    (hfailures : p.failures = failing t d done) :
    Settles t d document source ts (succeeding t d done) (failing t d done) (.ofProgress p p.ending) := by
  have hdisk : (Run.ofProgress p p.ending).disk = p.disk := by
    unfold Run.ofProgress
    split <;> rfl
  have hshared_mem : ∀ task ∈ sharedTasks document source, task ∈ sharedTasks document source ++ done :=
    fun _ => List.mem_append_left _
  refine ⟨?_, ?_, ?_, ?_, ?_, ?_, ?_⟩
  · unfold Progress.ending
    rw [hfailures]
    by_cases hnil : failing t d done = []
    · rw [hnil, if_pos rfl, List.isEmpty_nil, if_pos rfl, Run.ofProgress, hwritten]
      rfl
    · rw [if_neg hnil, if_neg (by simpa using hnil), Run.ofProgress, Progress.fault, hwritten, hfailures]
      rfl
  · rw [hdisk]
    exact h.written _ (hshared_mem _ List.mem_cons_self) document rfl hshared.document_free
  · rw [hdisk]
    exact h.written _ (hshared_mem _ (List.mem_cons_of_mem _ List.mem_cons_self)) source rfl hshared.reflection_free
  · intro task htask hpath
    obtain ⟨other, hother, hnone, heq⟩ := mem_succeeding.mp hpath
    obtain rfl := eq_of_place_eq (List.pairwise_append.mp hs).2.1 (hdone hother) htask (by rw [heq])
    obtain ⟨text, htext, hfree⟩ := Task.fault?_eq_none.mp hnone
    rw [hdisk]
    exact ⟨text, htext, h.written other (List.mem_append_right _ hother) text htext hfree⟩
  · intro failure hfailure
    obtain ⟨task, htask, hf, hpath⟩ := mem_failing.mp hfailure
    have hsub : sharedTasks document source ++ done ⊆ sharedTasks document source ++ ts :=
      List.append_subset.mpr ⟨List.subset_append_left _ _, List.Subset.trans hdone (List.subset_append_right _ _)⟩
    rw [hdisk, ← hpath]
    refine h.others _ fun other hother hnone hplace => ?_
    obtain rfl := eq_of_place_eq hs (List.mem_append_right _ (hdone htask)) (hsub hother) hplace
    rw [hf] at hnone
    cases hnone
  · intro place hdocument hreflection hplace
    rw [hdisk]
    refine h.others _ fun other hother hnone => ?_
    rcases List.mem_append.mp hother with hother | hother
    · simp only [sharedTasks, List.mem_cons, List.not_mem_nil, or_false] at hother
      rcases hother with rfl | rfl
      · exact hdocument
      · exact hreflection
    · exact hplace _ (mem_succeeding.mpr ⟨other, hother, hnone, rfl⟩)
  · intro place
    have hdocument : (⟨Options.documentFile, .ok document⟩ : Task).fault? t d = none :=
      Task.fault?_eq_none.mpr ⟨document, rfl, hshared.document_free⟩
    have hreflection : (⟨Options.reflectionFile, .ok source⟩ : Task).fault? t d = none :=
      Task.fault?_eq_none.mpr ⟨source, rfl, hshared.reflection_free⟩
    rw [hdisk, h.directories place]
    simp [sharedTasks, mem_succeeding, hdocument, hreflection, and_assoc]

/-- What a run gives and leaves, from what its tasks do once the shared files are written. -/
theorem generateWith_settles {run : List Task → Progress → Progress × Option RunFault} {done : List Task}
    (hplan : plan g o = .ok groups) (hpaths : ((planned g o).map (·.path)).Nodup)
    (hshared : Shared t g o d document source) (hdone : done ⊆ planned g o)
    (hrun : ∀ p, Leaves t d p.disk (sharedTasks document source) → ∃ p',
      run (planned g o) p = (p', p'.ending) ∧ Leaves t d p'.disk (sharedTasks document source ++ done) ∧
      p'.written = p.written ++ succeeding t d done ∧ p'.failures = p.failures ++ failing t d done) :
    Settles t d document source (planned g o) (succeeding t d done) (failing t d done) (generateWith run t g o d) := by
  obtain ⟨p, hleaves, hwritten, hfailures, heq⟩ := generateWith_eq hplan hshared
  obtain ⟨p', hp', hleaves', hwritten', hfailures'⟩ := hrun p hleaves
  rw [heq, hp']
  rw [hwritten] at hwritten'
  rw [hfailures, List.nil_append] at hfailures'
  exact settles_of_leaves hshared (run_separates t hplan document source hpaths) hdone hleaves' hwritten' hfailures'

/-- A run with one job. -/
theorem generate_settles (hfinal : g.finalized = true) (hplan : plan g o = .ok groups) (hjobs : o.jobs = 1)
    (hpaths : ((planned g o).map (·.path)).Nodup) (hshared : Shared t g o d document source)
    (hreports : ∀ task ∈ planned g o, task.Reports) :
    Settles t d document source (planned g o) (succeeding t d (attempted t d o.failFast (planned g o)))
      (failing t d (attempted t d o.failFast (planned g o))) (generate t g o d).2 := by
  have hrun : runTasks t o (planned g o) = runInOrder t o (planned g o) := by
    funext p
    rw [runTasks, if_neg (by omega)]
  rw [generate, if_pos hfinal]
  dsimp only [generateResolved]
  refine generateWith_settles hplan hpaths hshared (attempted_subset ..) fun p hp => ?_
  rw [hrun]
  exact runInOrder_leaves hp (run_separates t hplan document source hpaths) hreports

/-- **What a run leaves on disk**, when its tasks have distinct paths and the shared files can be written. Without
`failFast` each task is written or reported, in order; with it, the first that fails is reported, those before it are
written and those after it are not. -/
theorem generate_leaves (hfinal : g.finalized = true) (hplan : plan g o = .ok groups) (hjobs : o.jobs = 1)
    (hpaths : ((planned g o).map (·.path)).Nodup) (hshared : Shared t g o d document source)
    (hreports : ∀ task ∈ planned g o, task.Reports) :
    ∃ written failures,
      Settles t d document source (planned g o) written failures (generate t g o d).2 ∧
      (o.failFast = false →
        written = succeeding t d (planned g o) ∧ failures = failing t d (planned g o)) ∧
      (o.failFast = true →
        (written = (planned g o).map (·.path) ∧ failures = [] ∧ ∀ task ∈ planned g o, task.fault? t d = none) ∨
        ∃ before task after f, planned g o = before ++ task :: after ∧
          (∀ b ∈ before, b.fault? t d = none) ∧ task.fault? t d = some f ∧
          written = before.map (·.path) ∧ failures = [(task.path, f)]) := by
  refine ⟨_, _, generate_settles hfinal hplan hjobs hpaths hshared hreports, ?_, ?_⟩
  · intro hslow
    rw [hslow, attempted_all]
    exact ⟨rfl, rfl⟩
  · intro hfast
    rw [hfast]
    rcases attempted_fast t d (planned g o) with ⟨hall, hnone⟩ | ⟨before, task, after, f, heq, hbefore, htask, hlast⟩
    · rw [hall]
      exact .inl ⟨succeeding_eq hnone, failing_eq hnone, hnone⟩
    · refine .inr ⟨before, task, after, f, heq, hbefore, htask, ?_, ?_⟩
      · rw [hlast, ← succeeding_eq hbefore]
        simp [succeeding, htask]
      · rw [hlast, failing, List.filterMap_append, ← failing, failing_eq hbefore]
        simp [htask]

/-- The graph of `a.proto` with one message in package `foo`. -/
def fooGraph : Graph :=
  match oneMessage "a.proto" "foo" "A" .empty with
  | .ok g _ => g
  | .error _ _ => default

/-- Default options, with indexes. -/
def indexed : Options := { Options.default with emitIndex := true }

/-- A disk on which a file stands where the index of `foo` needs a directory. -/
def blocked : Disk := .ofFiles [("out/foo", "")]

theorem fooGraph_ready : ∃ groups document source, plan fooGraph indexed = .ok groups ∧
    Shared ⟨"out", ["out"]⟩ fooGraph indexed blocked document source ∧
    ∀ task ∈ planned fooGraph indexed, task.Reports := by
  obtain ⟨groups, hplan⟩ : ∃ groups, plan fooGraph indexed = .ok groups := exists_ok (by decide)
  obtain ⟨document, hdocument⟩ : ∃ document, Reflection.describe fooGraph indexed.validate = .ok document :=
    exists_ok (by decide)
  obtain ⟨source, hsource⟩ : ∃ source, indexed.reflectionSource = .ok source := exists_ok (by decide)
  have hok : ∀ task ∈ planned fooGraph indexed, task.text.toOption.isSome = true := by decide
  refine ⟨groups, document, source, hplan, ⟨hdocument, hsource, by decide, by decide⟩, ?_⟩
  intro task htask f hf
  have := hok task htask
  rw [hf] at this
  cases this

/-- The module of `a.proto` is written although the index of `foo` cannot be. -/
theorem generate_leaves_blocked : ∃ groups document source, plan fooGraph indexed = .ok groups ∧
    Shared ⟨"out", ["out"]⟩ fooGraph indexed blocked document source ∧
    ∃ written failures,
      Settles ⟨"out", ["out"]⟩ blocked document source (planned fooGraph indexed) written failures
        (generate ⟨"out", ["out"]⟩ fooGraph indexed blocked).2 ∧
      written.length = 1 ∧ failures.length = 1 := by
  obtain ⟨groups, document, source, hplan, hshared, hreports⟩ := fooGraph_ready
  obtain ⟨written, failures, h, hall, -⟩ :=
    generate_leaves (by decide) hplan rfl (by decide) hshared hreports
  obtain ⟨rfl, rfl⟩ := hall rfl
  refine ⟨groups, document, source, hplan, hshared, _, _, h, ?_⟩
  decide

end ProtoBind.Output
