/-
What tasks leave on disk.

A task fails when its text cannot be assembled or its path is not free
(`Task.fault?`), and then changes nothing; else its path holds its text. Where
tasks have separate places, it makes no difference to a task which others were
done before it. `Leaves` says what any tasks done so far have left; a task keeps
it (`Leaves.perform`), and so do tasks in order (`runInOrder_leaves`).
-/
import Mathlib.Data.List.Infix
import ProtoBind.Proofs.Output.Disk
import ProtoBind.Proofs.Output.Paths

namespace ProtoBind.Output

open Schema (Graph)
open Codegen

variable {t : Target} {g : Graph} {o : Options} {groups : List FileGroup} {d d' : Disk} {task : Task} {done : List Task}

/-! ## One task -/

namespace Task

/-- Why a task fails on a disk. -/
def fault? (t : Target) (d : Disk) (task : Task) : Option FileFault :=
  match task.text with
  | .error f => some (.assembly f)
  | .ok _ => if d.Free (t.at task.path) then none else some (.unwritable (t.nameOf task.path))

/-- A text that cannot be assembled is a fault of its file, not of the run. -/
def Reports (task : Task) : Prop := ∀ f, task.text = .error f → f.message?.isSome = true

/-- How a task ends on a disk. -/
def outcome (t : Target) (d : Disk) (task : Task) : Outcome :=
  match task.fault? t d with
  | none => .written
  | some f => .failed f

theorem fault?_eq_none : task.fault? t d = none ↔ ∃ text, task.text = .ok text ∧ d.Free (t.at task.path) := by
  unfold fault?
  cases task.text with
  | error f => simp
  | ok text => simp

theorem perform_of_free {text : String} (htext : task.text = .ok text) (h : d.Free (t.at task.path)) :
    task.perform t d = (d.install (t.at task.path) text, .written) := by
  unfold perform
  rw [htext]
  dsimp only
  rw [Disk.writeFile_of_free h]

theorem perform_of_fault {f : FileFault} (hr : task.Reports) (h : task.fault? t d = some f) :
    task.perform t d = (d, .failed f) := by
  unfold fault? at h
  unfold perform
  cases htext : task.text with
  | error e =>
    rw [htext] at h
    obtain rfl := Option.some.inj h
    dsimp only
    rw [if_pos (hr e htext)]
  | ok text =>
    rw [htext] at h
    dsimp only at h ⊢
    split at h
    next => cases h
    next hfree =>
      obtain rfl := Option.some.inj h
      obtain ⟨e, he⟩ := Disk.writeFile_of_not_free text hfree
      rw [he]

end Task

/-! ## Any tasks -/

/-- Tasks with different places, neither below the other. -/
def Target.Separates (t : Target) (a b : Task) : Prop :=
  t.at a.path ≠ t.at b.path ∧ Disk.Apart (t.at a.path) (t.at b.path)

/-- What tasks have left of a disk: the texts of those without a fault, and all else as it was. -/
structure Leaves (t : Target) (d d' : Disk) (done : List Task) : Prop where
  written : ∀ task ∈ done, ∀ text, task.text = .ok text → d.Free (t.at task.path) →
    d'.get? (t.at task.path) = some text
  others : ∀ q, (∀ task ∈ done, task.fault? t d = none → q ≠ t.at task.path) → d'.get? q = d.get? q
  directories : ∀ q, d'.isDirectory q = true ↔
    d.isDirectory q = true ∨ ∃ task ∈ done, task.fault? t d = none ∧ Disk.isBelow (t.at task.path) q = true
  free : ∀ q, (∀ task ∈ done, Disk.Apart (t.at task.path) q) → (d'.Free q ↔ d.Free q)

theorem Leaves.nil (t : Target) (d : Disk) : Leaves t d d [] :=
  ⟨nofun, fun _ _ => rfl, fun _ => by simp, fun _ _ => Iff.rfl⟩

/-- A task fails or not whatever others were done before it. -/
theorem Leaves.fault?_eq (h : Leaves t d d' done) (hs : ∀ other ∈ done, t.Separates other task) :
    task.fault? t d' = task.fault? t d := by
  unfold Task.fault?
  rw [if_congr (h.free _ fun other hother => (hs other hother).2) rfl rfl]

/-- One more task. -/
theorem Leaves.perform (h : Leaves t d d' done) (hr : task.Reports) (hs : ∀ other ∈ done, t.Separates other task) :
    Leaves t d (task.perform t d').1 (done ++ [task]) ∧ (task.perform t d').2 = task.outcome t d := by
  cases hf : task.fault? t d with
  | some f =>
    rw [Task.perform_of_fault hr (h.fault?_eq hs ▸ hf), Task.outcome, hf]
    refine ⟨⟨?_, ?_, ?_, ?_⟩, rfl⟩
    · intro other hother text htext hfree
      rcases List.mem_append.mp hother with hother | hother
      · exact h.written other hother text htext hfree
      · obtain rfl := List.mem_singleton.mp hother
        rw [Task.fault?_eq_none.mpr ⟨text, htext, hfree⟩] at hf
        cases hf
    · exact fun q hq => h.others q fun other hother => hq other (List.mem_append_left _ hother)
    · intro q
      simp [h.directories q, or_and_right, exists_or, hf]
    · exact fun q hq => h.free q fun other hother => hq other (List.mem_append_left _ hother)
  | none =>
    obtain ⟨text, htext, hfree⟩ := Task.fault?_eq_none.mp hf
    have hfree' := (h.free _ fun other hother => (hs other hother).2).mpr hfree
    rw [Task.perform_of_free htext hfree', Task.outcome, hf]
    refine ⟨⟨?_, ?_, ?_, ?_⟩, rfl⟩
    · intro other hother text' htext' hfree''
      rw [Disk.get?_install]
      rcases List.mem_append.mp hother with hother | hother
      · rw [if_neg (hs other hother).1]
        exact h.written other hother text' htext' hfree''
      · obtain rfl := List.mem_singleton.mp hother
        rw [htext] at htext'
        rw [if_pos rfl, Except.ok.inj htext']
    · intro q hq
      rw [Disk.get?_install, if_neg (hq task (by simp) hf)]
      exact h.others q fun other hother => hq other (List.mem_append_left _ hother)
    · intro q
      rw [Disk.isDirectory_install hfree.ne_nil, Bool.or_eq_true, h.directories q]
      simp [or_and_right, exists_or, hf, or_assoc]
    · intro q hq
      rw [Disk.free_install hfree.ne_nil (hq task (by simp))]
      exact h.free q fun other hother => hq other (List.mem_append_left _ hother)

/-- What tasks leave does not depend on their order. -/
theorem Leaves.congr {done' : List Task} (h : Leaves t d d' done) (hsame : ∀ task, task ∈ done ↔ task ∈ done') :
    Leaves t d d' done' :=
  ⟨fun task htask => h.written task ((hsame task).mpr htask),
    fun q hq => h.others q fun task htask => hq task ((hsame task).mp htask),
    fun q => (h.directories q).trans (by simp only [hsame]),
    fun q hq => h.free q fun task htask => hq task ((hsame task).mp htask)⟩

/-! ## Tasks in order -/

/-- The paths of the tasks that succeed on a disk. -/
def succeeding (t : Target) (d : Disk) (ts : List Task) : List String :=
  (ts.filter fun task => (task.fault? t d).isNone).map (·.path)

/-- The paths of the tasks that fail on a disk, with the reasons. -/
def failing (t : Target) (d : Disk) (ts : List Task) : List (String × FileFault) :=
  ts.filterMap fun task => (task.fault? t d).map (task.path, ·)

theorem mem_succeeding {ts : List Task} {path : String} :
    path ∈ succeeding t d ts ↔ ∃ task ∈ ts, task.fault? t d = none ∧ task.path = path := by
  simp [succeeding, and_assoc]

theorem mem_failing {ts : List Task} {failure : String × FileFault} :
    failure ∈ failing t d ts ↔ ∃ task ∈ ts, task.fault? t d = some failure.2 ∧ task.path = failure.1 := by
  obtain ⟨path, f⟩ := failure
  simp [failing, and_comm]

theorem succeeding_eq {ts : List Task} (h : ∀ task ∈ ts, task.fault? t d = none) :
    succeeding t d ts = ts.map (·.path) := by
  rw [succeeding, List.filter_eq_self.mpr fun task htask => by rw [h task htask, Option.isNone_none]]

theorem failing_eq {ts : List Task} (h : ∀ task ∈ ts, task.fault? t d = none) : failing t d ts = [] :=
  List.filterMap_eq_nil_iff.mpr fun task htask => by rw [h task htask, Option.map_none]

/-- The tasks that a run in order attempts: all, or those up to the first that fails. -/
def attempted (t : Target) (d : Disk) (failFast : Bool) : List Task → List Task
  | [] => []
  | task :: rest =>
    if failFast && (task.fault? t d).isSome then [task] else task :: attempted t d failFast rest

theorem attempted_all (t : Target) (d : Disk) : ∀ ts : List Task, attempted t d false ts = ts
  | [] => rfl
  | task :: rest => by rw [attempted, Bool.false_and, if_neg Bool.false_ne_true, attempted_all t d rest]

theorem attempted_subset (t : Target) (d : Disk) (failFast : Bool) : ∀ ts : List Task, attempted t d failFast ts ⊆ ts
  | [] => List.Subset.refl _
  | task :: rest => by
    unfold attempted
    split
    · exact List.cons_subset_cons _ (List.nil_subset _)
    · exact List.cons_subset_cons _ (attempted_subset t d failFast rest)

/-- A run that ends with the first failure attempts all tasks before it. -/
theorem attempted_fast (t : Target) (d : Disk) : ∀ ts : List Task,
    (attempted t d true ts = ts ∧ ∀ task ∈ ts, task.fault? t d = none) ∨
      ∃ before task after f, ts = before ++ task :: after ∧ (∀ b ∈ before, b.fault? t d = none) ∧
        task.fault? t d = some f ∧ attempted t d true ts = before ++ [task]
  | [] => .inl ⟨rfl, nofun⟩
  | task :: rest => by
    rw [attempted, Bool.true_and]
    cases hf : task.fault? t d with
    | some f => exact .inr ⟨[], task, rest, f, rfl, nofun, hf, rfl⟩
    | none =>
      rw [Option.isSome_none, if_neg Bool.false_ne_true]
      rcases attempted_fast t d rest with ⟨hall, hnone⟩ | ⟨before, last, after, f, rfl, hbefore, hlast, heq⟩
      · rw [hall]
        exact .inl ⟨rfl, List.forall_mem_cons.mpr ⟨hf, hnone⟩⟩
      · rw [heq]
        exact .inr ⟨task :: before, last, after, f, rfl, List.forall_mem_cons.mpr ⟨hf, hbefore⟩, hlast, rfl⟩

/-- How a run ends: with a fault when files failed. -/
def Progress.ending (p : Progress) : Option RunFault := if p.failures.isEmpty then none else some p.fault

namespace Progress

variable (p : Progress) (line path : String) (f : FileFault)

@[simp] theorem report_disk : (p.report o line).disk = p.disk := by
  unfold report
  split <;> rfl

@[simp] theorem wrote_disk : (p.wrote path).disk = p.disk := rfl

@[simp] theorem failedAt_disk : (p.failedAt o path f).disk = p.disk := report_disk _ _

@[simp] theorem failedAt_written : (p.failedAt o path f).written = p.written := report_written _ _

end Progress

/-- **Tasks in order**: what they leave, and what is reported of them. -/
theorem runInOrder_leaves : ∀ {ts done : List Task} {p : Progress}, Leaves t d p.disk done →
    (done ++ ts).Pairwise t.Separates → (∀ task ∈ ts, task.Reports) →
    ∃ p', runInOrder t o ts p = (p', p'.ending) ∧ Leaves t d p'.disk (done ++ attempted t d o.failFast ts) ∧
      p'.written = p.written ++ succeeding t d (attempted t d o.failFast ts) ∧
      p'.failures = p.failures ++ failing t d (attempted t d o.failFast ts)
  | [], done, p, h, _, _ => by
    refine ⟨p, rfl, ?_, ?_, ?_⟩ <;> simp [attempted, succeeding, failing, h]
  | task :: ts, done, p, h, hs, hr => by
    obtain ⟨hhead, htail⟩ := List.forall_mem_cons.mp hr
    have hbefore : ∀ other ∈ done, t.Separates other task :=
      fun other hother => (List.pairwise_append.mp hs).2.2 other hother task List.mem_cons_self
    obtain ⟨hleaves, hout⟩ := h.perform hhead hbefore
    have hs' : ((done ++ [task]) ++ ts).Pairwise t.Separates := by simpa using hs
    unfold runInOrder
    dsimp only
    rw [hout, Task.outcome]
    cases hf : task.fault? t d with
    | none =>
      obtain ⟨p', hrun, hl, hw, hfail⟩ := runInOrder_leaves
        (p := ({ p with disk := (task.perform t p.disk).1 }.wrote task.path).report o ("Wrote " ++ task.path))
        (by simpa using hleaves) hs' htail
      refine ⟨p', hrun, ?_, ?_, ?_⟩
      · simpa [attempted, hf] using hl
      · simpa [attempted, hf, succeeding] using hw
      · simpa [attempted, hf, failing] using hfail
    | some f =>
      dsimp only
      cases hfast : o.failFast with
      | true =>
        refine ⟨{ p with disk := (task.perform t p.disk).1 }.failedAt o task.path f, ?_, ?_, ?_, ?_⟩
        · rw [if_pos rfl, Progress.ending, if_neg (by simp)]
        · simpa [attempted, hf] using hleaves
        · simp [attempted, hf, succeeding]
        · simp [attempted, hf, failing]
      | false =>
        rw [if_neg Bool.false_ne_true]
        obtain ⟨p', hrun, hl, hw, hfail⟩ := runInOrder_leaves
          (p := { p with disk := (task.perform t p.disk).1 }.failedAt o task.path f)
          (by simpa using hleaves) hs' htail
        rw [hfast] at hl hw hfail
        refine ⟨p', hrun, ?_, ?_, ?_⟩
        · simpa [attempted, hf] using hl
        · simpa [attempted, hf, succeeding] using hw
        · simpa [attempted, hf, failing] using hfail

end ProtoBind.Output
