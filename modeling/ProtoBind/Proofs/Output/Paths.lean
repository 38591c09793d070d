/-
The paths of the files that a run writes.

A run that succeeds has written the reflection document, the module that loads
it, the modules of a plan and the indexes (`generateResolved_written`). The files
of modules are checked against each other before anything is written, those of
indexes are not, so that paths are distinct just when the indexes keep apart from
each other and from the modules (`writtenPaths_nodup_iff`).
-/
import Mathlib.Data.List.Induction
import ProtoBind.Output.Run
import ProtoBind.Proofs.Codegen.Plan

namespace ProtoBind.Output

open Schema (Graph Load)
open Codegen

variable {g : Graph} {o : Options} {groups : List FileGroup}

/-- The indexes that a run writes. -/
def indexes (g : Graph) (o : Options) : List IndexPlan := if o.emitIndex then planIndexes g o else []

/-- The paths of the files that a run writes, in order. -/
def writtenPaths (g : Graph) (o : Options) (groups : List FileGroup) : List String :=
  [Options.documentFile, Options.reflectionFile] ++ (tasks g o groups (indexes g o)).map (·.path)

/-! ## What a run writes -/

namespace Progress

variable (p : Progress) (line path : String) (f : FileFault)

@[simp] theorem report_written : (p.report o line).written = p.written := by
  unfold report
  split <;> rfl

@[simp] theorem report_failures : (p.report o line).failures = p.failures := by
  unfold report
  split <;> rfl

@[simp] theorem wrote_written : (p.wrote path).written = p.written ++ [path] := rfl

@[simp] theorem wrote_failures : (p.wrote path).failures = p.failures := rfl

@[simp] theorem failedAt_failures : (p.failedAt o path f).failures = p.failures ++ [(path, f)] :=
  report_failures _ _

end Progress

theorem failures_of_none {p : Progress} (h : (if p.failures.isEmpty then none else some p.fault) = none) :
    p.failures = [] := by
  split at h
  next hempty => exact List.isEmpty_iff.mp hempty
  next => cases h

/-- A run in order that ends without a fault has written every task. -/
theorem runInOrder_written {t : Target} : ∀ {ts : List Task} {p p' : Progress}, runInOrder t o ts p = (p', none) →
    p.failures = [] ∧ p'.written = p.written ++ ts.map (·.path)
  | [], p, p', h => by
    obtain ⟨rfl, hnone⟩ := Prod.mk.inj h
    exact ⟨failures_of_none hnone, (List.append_nil _).symm⟩
  | task :: ts, p, p', h => by
    unfold runInOrder at h
    dsimp only at h
    split at h
    next =>
      have ih := runInOrder_written h
      simpa using ih
    next => cases h
    next =>
      split at h
      next => cases h
      next =>
        have ih := runInOrder_written h
        simp at ih

/-- Going through outcomes without a fault, every task was written. -/
theorem collect_written : ∀ {done : List (Task × Outcome)} {p p' : Progress}, collect o done p = (p', none) →
    p.failures = [] ∧ p'.written = p.written ++ done.map (·.1.path)
  | [], p, p', h => by
    obtain ⟨rfl, hnone⟩ := Prod.mk.inj h
    exact ⟨failures_of_none hnone, (List.append_nil _).symm⟩
  | (task, outcome) :: done, p, p', h => by
    unfold collect at h
    split at h
    next =>
      have ih := collect_written h
      simpa using ih
    next => cases h
    next =>
      dsimp only at h
      split at h
      next => cases h
      next =>
        have ih := collect_written h
        simp at ih

/-- Every task that is asked for has an outcome. -/
theorem performAll_outcomes (t : Target) (ts : List Task) : ∀ (order : List Nat) (d : Disk),
    (∀ i ∈ order, i < ts.length) → (performAll t ts order d).2.map Prod.fst = order := by
  intro order
  induction order using List.reverseRecOn with
  | nil => exact fun _ _ => rfl
  | append_singleton order i ih =>
    intro d h
    have hi : i < ts.length := h i (by simp)
    have ih := ih d fun j hj => h j (List.mem_append_left _ hj)
    unfold performAll at ih ⊢
    rw [List.foldl_append, List.foldl_cons, List.foldl_nil]
    simp only [List.getElem?_eq_getElem hi]
    rw [List.map_append, ih]
    rfl

/-- The tasks with their outcomes, in the order of the tasks. -/
def paired (outcomes : List (Nat × Outcome)) (ts : List Task) : List (Task × Outcome) :=
  ts.zipIdx.filterMap fun (task, i) => (outcomes.lookup i).map fun r => (task, r)

/-- A run side by side that ends without a fault has written every task. -/
theorem runPool_written {t : Target} {ts : List Task} {p p' : Progress}
    (h : runPool t o (List.range ts.length) ts p = (p', none)) : p'.written = p.written ++ ts.map (·.path) := by
  unfold runPool at h
  dsimp only at h
  have hkeys := performAll_outcomes t ts (List.range ts.length) p.disk fun i => List.mem_range.mp
  generalize performAll t ts (List.range ts.length) p.disk = r at h hkeys
  have hlookup : ∀ x ∈ ts.zipIdx, ∃ outcome, r.2.lookup x.2 = some outcome := by
    intro x hx
    rw [← Option.isSome_iff_exists, Option.isSome_iff_ne_none]
    intro hnone
    have hi : x.2 ∈ r.2.map Prod.fst := by
      rw [hkeys, List.mem_range]
      exact List.snd_lt_of_mem_zipIdx hx
    obtain ⟨entry, hentry, he⟩ := List.mem_map.mp hi
    have hne := List.lookup_eq_none_iff.mp hnone entry hentry
    simp [he] at hne
  have hall : (paired r.2 ts).map (·.1.path) = ts.map (·.path) := by
    have hsome : ∀ x ∈ ts.zipIdx, ((r.2.lookup x.2).map fun outcome => (x.1, outcome)).map (·.1.path) =
        some x.1.path := by
      intro x hx
      obtain ⟨outcome, ho⟩ := hlookup x hx
      rw [ho]
      rfl
    have hfst := congrArg (List.map Task.path) (List.zipIdx_map_fst 0 ts)
    rw [List.map_map] at hfst
    rw [paired, List.map_filterMap, List.filterMap_congr hsome, List.filterMap_eq_map']
    exact hfst
  have hwritten : p'.written = p.written ++ (paired r.2 ts).map (·.1.path) := (collect_written h).2
  rw [hall] at hwritten
  exact hwritten

theorem runTasks_written {t : Target} {ts : List Task} {p : Progress} (h : (runTasks t o ts p).2 = none) :
    (runTasks t o ts p).1.written = p.written ++ ts.map (·.path) := by
  unfold runTasks at h ⊢
  split at h
  next hjobs =>
    rw [if_pos hjobs]
    exact runPool_written (Prod.ext rfl h)
  next hjobs =>
    rw [if_neg hjobs]
    exact (runInOrder_written (Prod.ext rfl h)).2

theorem writeShared_written {t : Target} {path text : String} {p p' : Progress}
    (h : writeShared t path text p = (p', none)) : p'.written = p.written ++ [path] := by
  unfold writeShared at h
  split at h
  next =>
    obtain ⟨rfl, -⟩ := Prod.mk.inj h
    rfl
  next => cases h

theorem ofProgress_eq_ok {p : Progress} {fault : Option RunFault} {written : List String}
    (h : (Run.ofProgress p fault).result = .ok written) : fault = none ∧ written = p.written := by
  cases fault with
  | some f => cases h
  | none => exact ⟨rfl, (Except.ok.inj h).symm⟩

/-- **A run that succeeds has written these paths.** -/
theorem generateResolved_written {t : Target} {d : Disk} {written : List String}
    (h : (generateResolved t g o d).result = .ok written) :
    ∃ groups, plan g o = .ok groups ∧ written = writtenPaths g o groups := by
  unfold generateResolved generateWith at h
  dsimp only at h
  split at h
  next => cases h
  next groups hplan =>
    refine ⟨groups, hplan, ?_⟩
    split at h
    next => cases h
    next document _ =>
      split at h
      next => cases h
      next p₁ h₁ =>
        split at h
        next => cases h
        next source _ =>
          split at h
          next => cases h
          next p₂ h₂ =>
            obtain ⟨hfault, rfl⟩ := ofProgress_eq_ok h
            rw [runTasks_written hfault, writeShared_written h₂, writeShared_written h₁]
            simp [writtenPaths, indexes]

/-! ## Distinct paths -/

theorem indexes_path {p : IndexPlan} (h : p ∈ indexes g o) : p.path = modulePath (indexParts o p.package) := by
  unfold indexes at h
  split at h
  next =>
    obtain ⟨n, -, rfl⟩ := List.mem_map.mp h
    exact pathForPackage_eq o n
  next => cases h

/-- Indexes have one path when their packages have the same parts. -/
theorem indexes_path_inj {p q : IndexPlan} (hp : p ∈ indexes g o) (hq : q ∈ indexes g o) :
    p.path = q.path ↔ o.packageComponents p.package = o.packageComponents q.package := by
  rw [indexes_path hp, indexes_path hq]
  constructor
  · intro h
    exact List.append_cancel_right (modulePath_inj (indexParts_isPart o _) (indexParts_isPart o _) h)
  · intro h
    rw [indexParts, indexParts, h]

/-- A module and an index have one path when the module is called `__init__`. -/
theorem pathForFile_eq_iff {p : IndexPlan} (hp : p ∈ indexes g o) (file : String) :
    o.pathForFile file = p.path ↔ o.fileComponents file = o.packageComponents p.package ++ ["__init__"] := by
  rw [indexes_path hp]
  constructor
  · intro h
    exact modulePath_inj (fileComponents_isPart o file) (indexParts_isPart o _) h
  · intro h
    show modulePath (o.fileComponents file) = _
    rw [h, indexParts]

/-- **The files of a run are distinct just when the indexes keep apart**, from each other and from the modules. They
are what a run that succeeds has written. -/
theorem writtenPaths_nodup_iff (h : plan g o = .ok groups) :
    ((writtenPaths g o groups).Nodup ↔ ((indexes g o).map fun p => o.packageComponents p.package).Nodup ∧
      ∀ group ∈ groups, ∀ p ∈ indexes g o,
        o.fileComponents group.file ≠ o.packageComponents p.package ++ ["__init__"]) ∧
    ∀ t d written, (generateResolved t g o d).result = .ok written → written = writtenPaths g o groups := by
  refine ⟨?_, fun t d written hrun => ?_⟩
  rotate_left
  · obtain ⟨groups', hplan, rfl⟩ := generateResolved_written hrun
    rw [Except.ok.inj (h.symm.trans hplan)]
  have hp := plan_eq_ok h
  have hgroup : ∀ group ∈ groups, group.path = o.pathForFile group.file := by
    intro group hg
    rw [hp.groups_eq] at hg
    exact (mem_groups hg).1
  have hpaths : writtenPaths g o groups = [Options.documentFile, Options.reflectionFile] ++
      (groups.map (·.path) ++ (indexes g o).map (·.path)) := by
    rw [writtenPaths, tasks, List.map_append, List.map_map, List.map_map]
    rfl
  have hreflection : Options.reflectionFile ∉ groups.map (·.path) ++ (indexes g o).map (·.path) := by
    rw [List.mem_append, List.mem_map, List.mem_map]
    rintro (⟨group, hg, he⟩ | ⟨p, hi, he⟩)
    · exact hp.path_ne group hg he
    · rw [indexes_path hi, ← pathForPackage_eq] at he
      exact pathForPackage_ne_reflectionFile o _ he
  have hdocument : Options.documentFile ∉
      Options.reflectionFile :: (groups.map (·.path) ++ (indexes g o).map (·.path)) := by
    rw [List.mem_cons, List.mem_append, List.mem_map, List.mem_map]
    rintro (he | ⟨group, hg, he⟩ | ⟨p, hi, he⟩)
    · exact absurd he (by decide)
    · rw [hgroup group hg] at he
      exact modulePath_ne_documentFile _ he
    · rw [indexes_path hi] at he
      exact modulePath_ne_documentFile _ he
  have hindexes : ((indexes g o).map (·.path)).Nodup ↔
      ((indexes g o).map fun p => o.packageComponents p.package).Nodup := by
    rw [List.Nodup, List.pairwise_map, List.Nodup, List.pairwise_map]
    exact List.Pairwise.iff_of_mem fun hp hq => not_congr (indexes_path_inj hp hq)
  rw [hpaths, List.cons_append, List.singleton_append, List.nodup_cons, List.nodup_cons, List.nodup_append, hindexes]
  simp only [hdocument, hreflection, hp.paths, not_false_eq_true, true_and]
  refine and_congr_right fun _ => ?_
  constructor
  · intro hne group hg p hi he
    refine hne _ (List.mem_map_of_mem hg) _ (List.mem_map_of_mem hi) ?_
    rw [hgroup group hg]
    exact (pathForFile_eq_iff hi _).mpr he
  · intro hne path hpath path' hpath' he
    obtain ⟨group, hg, rfl⟩ := List.mem_map.mp hpath
    obtain ⟨p, hi, rfl⟩ := List.mem_map.mp hpath'
    rw [hgroup group hg] at he
    exact hne group hg p hi ((pathForFile_eq_iff hi _).mp he)

/-- Loads a parsed file that has one message in a package. -/
def oneMessage (file package message : String) : Load Graph := do
  modify fun s => { s with graph := s.graph.addFile file }
  Schema.Load.addDeclarations ⟨file, .build [] [], "proto3"⟩ package [.message message [] 1]
  Schema.Load.finish

/-- The index of `foo` beside the module of `a.proto`. -/
theorem writtenPaths_nodup_index : ∃ g s groups, oneMessage "a.proto" "foo" "A" .empty = .ok g s ∧
    plan g { Options.default with emitIndex := true } = .ok groups ∧
    (writtenPaths g { Options.default with emitIndex := true } groups).Nodup := by
  refine ⟨_, _, _, rfl, rfl, ?_⟩
  exact (writtenPaths_nodup_iff rfl).1.mpr (by decide)

/-- The index of `foo` is written over the module of `foo/__init__.proto`. -/
theorem writtenPaths_init_collide : ∃ g s groups, oneMessage "foo/__init__.proto" "foo" "A" .empty = .ok g s ∧
    plan g { Options.default with emitIndex := true } = .ok groups ∧
    ¬ (writtenPaths g { Options.default with emitIndex := true } groups).Nodup := by
  refine ⟨_, _, _, rfl, rfl, ?_⟩
  decide

end ProtoBind.Output
