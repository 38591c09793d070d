/-
Tasks side by side give what tasks in order give.

A pool does the tasks of a run in some order and reports on them in the order
of the plan. Each task does the same whatever was done before it, so the pool
leaves what all tasks leave (`performAll_leaves`) and reports what a run in
order reports (`collect_outcomes`). What a run gives and leaves follows from
its tasks (`Settles`), and the tasks do not depend on the number of jobs
(`planned_jobs`).
-/
import ProtoBind.Proofs.Output.Generate

namespace ProtoBind.Output

open Schema (Graph)
open Codegen

variable {t : Target} {g : Graph} {o : Options} {groups : List FileGroup} {d d' : Disk} {done ts : List Task}

/-! ## The pool -/

theorem Target.Separates.symm {a b : Task} (h : t.Separates a b) : t.Separates b a := ⟨h.1.symm, h.2.symm⟩

/-- The outcomes of the tasks at some places of a list, on the disk that a run starts with. -/
def outcomesAt (t : Target) (d : Disk) (ts : List Task) (order : List Nat) : List (Nat × Outcome) :=
  order.filterMap fun i => ts[i]?.map fun task => (i, task.outcome t d)

/-- The pool after some places, with the others still to come. -/
theorem performAll_leaves (hs : (done ++ ts).Pairwise t.Separates) (hr : ∀ task ∈ ts, task.Reports)
    (hd : Leaves t d d' done) : ∀ {order : List Nat}, order.Nodup →
    Leaves t d (performAll t ts order d').1 (done ++ order.filterMap (ts[·]?)) ∧
      (performAll t ts order d').2 = outcomesAt t d ts order := by
  intro order
  -- The last place of the order is the last that is done.
  induction order using List.reverseRecOn with
  | nil => exact fun _ => ⟨by simpa [performAll] using hd, rfl⟩
  | append_singleton order i ih =>
    intro hnodup
    obtain ⟨hnodup, -, hnew⟩ := List.nodup_append.mp hnodup
    obtain ⟨hleaves, houtcomes⟩ := ih hnodup
    rw [performAll, List.foldl_append, List.foldl_cons, List.foldl_nil, ← performAll, outcomesAt,
      List.filterMap_append, List.filterMap_append, ← outcomesAt, ← houtcomes, ← List.append_assoc]
    cases htask : ts[i]? with
    | none => simpa [htask] using hleaves
    | some task =>
      have hseparate : ∀ other ∈ done ++ order.filterMap (ts[·]?), t.Separates other task := by
        intro other hother
        rcases List.mem_append.mp hother with hother | hother
        · exact (List.pairwise_append.mp hs).2.2 other hother task (List.mem_of_getElem? htask)
        · obtain ⟨j, hj, hotherj⟩ := List.mem_filterMap.mp hother
          have hts := List.pairwise_iff_getElem.mp (List.pairwise_append.mp hs).2.1
          obtain ⟨hi, rfl⟩ := List.getElem?_eq_some_iff.mp htask
          obtain ⟨hj', rfl⟩ := List.getElem?_eq_some_iff.mp hotherj
          rcases Nat.lt_or_gt_of_ne (hnew j hj i (List.mem_singleton_self i)) with hlt | hgt
          · exact hts j i hj' hi hlt
          · exact (hts i j hi hj' hgt).symm
      obtain ⟨hperform, hout⟩ := hleaves.perform (hr task (List.mem_of_getElem? htask)) hseparate
      simp only [List.filterMap_cons, htask, List.filterMap_nil, Option.map_some]
      exact ⟨hperform, by rw [hout]⟩

/-- Every place of the list has its outcome when the pool is done. -/
theorem lookup_outcomesAt {order : List Nat} {i : Nat} (hi : i < ts.length) (hmem : i ∈ order) :
    (outcomesAt t d ts order).lookup i = some (ts[i].outcome t d) := by
  induction order with
  | nil => cases hmem
  | cons j order ih =>
    rw [outcomesAt, List.filterMap_cons]
    by_cases hj : i = j
    · subst hj
      simp [List.getElem?_eq_getElem hi]
    · have hrest := ih ((List.mem_cons.mp hmem).resolve_left hj)
      cases ts[j]? with
      | none => exact hrest
      | some task =>
        rw [Option.map_some, List.lookup_cons, beq_false_of_ne hj]
        exact hrest

/-- What is reported of tasks that were done in any order. -/
theorem collect_outcomes (hslow : o.failFast = false) : ∀ (ts : List Task) (p : Progress),
    ∃ p', collect o (ts.map fun task => (task, task.outcome t d)) p = (p', p'.ending) ∧ p'.disk = p.disk ∧
      p'.written = p.written ++ succeeding t d ts ∧ p'.failures = p.failures ++ failing t d ts
  | [], p => ⟨p, rfl, rfl, by simp [succeeding], by simp [failing]⟩
  | task :: ts, p => by
    rw [List.map_cons, collect.eq_def, Task.outcome]
    cases hf : task.fault? t d with
    | none =>
      obtain ⟨p', hp', hdisk, hwritten, hfailures⟩ := collect_outcomes hslow ts (p.wrote task.path)
      refine ⟨p', hp', hdisk, ?_, ?_⟩
      · simpa [succeeding, hf] using hwritten
      · simpa [failing, hf] using hfailures
    | some f =>
      obtain ⟨p', hp', hdisk, hwritten, hfailures⟩ := collect_outcomes hslow ts (p.failedAt o task.path f)
      rw [Progress.failedAt_disk] at hdisk
      dsimp only
      rw [hslow, if_neg Bool.false_ne_true]
      refine ⟨p', hp', hdisk, ?_, ?_⟩
      · simpa [succeeding, hf] using hwritten
      · simpa [failing, hf] using hfailures

/-- **A pool**, in any order: what it leaves, and what is reported of it. -/
theorem runPool_leaves {order : List Nat} {p : Progress} (hslow : o.failFast = false)
    (horder : order.Perm (List.range ts.length)) (hs : (done ++ ts).Pairwise t.Separates)
    (hr : ∀ task ∈ ts, task.Reports) (hp : Leaves t d p.disk done) :
    ∃ p', runPool t o order ts p = (p', p'.ending) ∧ Leaves t d p'.disk (done ++ ts) ∧
      p'.written = p.written ++ succeeding t d ts ∧ p'.failures = p.failures ++ failing t d ts := by
  obtain ⟨hleaves, houtcomes⟩ := performAll_leaves hs hr hp (horder.nodup_iff.mpr List.nodup_range)
  have hsame : ∀ task, task ∈ done ++ order.filterMap (ts[·]?) ↔ task ∈ done ++ ts := by
    intro task
    rw [List.mem_append, List.mem_append, (horder.filterMap _).mem_iff, List.mem_filterMap]
    simp only [List.getElem?_eq_some_iff, List.mem_iff_getElem]
    grind
  have hdone : paired (outcomesAt t d ts order) ts = ts.map fun task => (task, task.outcome t d) := by
    calc
      _ = ts.zipIdx.filterMap (some ∘ fun x => (x.1, x.1.outcome t d)) := by
        refine List.filterMap_congr ?_
        rintro ⟨task, i⟩ hmem
        obtain ⟨hi, rfl⟩ := List.getElem?_eq_some_iff.mp (List.mk_mem_zipIdx_iff_getElem?.mp hmem)
        dsimp only
        rw [lookup_outcomesAt hi (horder.mem_iff.mpr (List.mem_range.mpr hi)), Option.map_some, Function.comp]
      _ = (ts.zipIdx.map Prod.fst).map fun task => (task, task.outcome t d) := by
        rw [List.filterMap_eq_map, List.map_map]
        rfl
      _ = _ := by rw [List.zipIdx_map_fst]
  have hrun : runPool t o order ts p = collect o (paired (performAll t ts order p.disk).2 ts)
      { p with disk := (performAll t ts order p.disk).1 } := rfl
  rw [hrun, houtcomes, hdone]
  obtain ⟨p', hp', hdisk, hwritten, hfailures⟩ := collect_outcomes hslow ts { p with disk := (performAll t ts order p.disk).1 }
  exact ⟨p', hp', hdisk ▸ hleaves.congr hsame, hwritten, hfailures⟩

/-! ## A whole run -/

/-- Runs that wrote and reported the same leave the same disk. -/
theorem Settles.same {document source : String} {written : List String} {failures : List (String × FileFault)}
    {r r' : Run} (h : Settles t d document source ts written failures r)
    (h' : Settles t d document source ts written failures r') (hwritten : written ⊆ ts.map (·.path)) (place : Path) :
    r.disk.get? place = r'.disk.get? place ∧ r.disk.isDirectory place = r'.disk.isDirectory place := by
  refine ⟨?_, Bool.eq_iff_iff.mpr ((h.directories place).trans (h'.directories place).symm)⟩
  by_cases hdocument : place = t.at Options.documentFile
  · rw [hdocument, h.document, h'.document]
  by_cases hreflection : place = t.at Options.reflectionFile
  · rw [hreflection, h.source, h'.source]
  by_cases hplace : ∃ path ∈ written, place = t.at path
  · obtain ⟨path, hpath, rfl⟩ := hplace
    obtain ⟨task, htask, rfl⟩ := List.mem_map.mp (hwritten hpath)
    obtain ⟨text, htext, hget⟩ := h.texts task htask hpath
    obtain ⟨text', htext', hget'⟩ := h'.texts task htask hpath
    rw [htext] at htext'
    rw [hget, hget', Except.ok.inj htext']
  · have hnot : ∀ path ∈ written, place ≠ t.at path := fun path hpath he => hplace ⟨path, hpath, he⟩
    rw [h.others place hdocument hreflection hnot, h'.others place hdocument hreflection hnot]

/-- The code of a message does not depend on the number of jobs. -/
theorem emitMessage_jobs (s : Site) (o : Options) (n : Int) : ∀ fuel : Nat,
    emitMessage s { o with jobs := n } fuel = emitMessage s o fuel
  | 0 => rfl
  | fuel + 1 => by
    funext spacing node
    rw [emitMessage, emitMessage, emitMessage_jobs s o n fuel]
    rfl

theorem emitDeclarations_jobs (s : Site) (o : Options) (n : Int) : ∀ (nodes : List Schema.Node)
    (previous : Option Schema.Kind),
    emitDeclarations s { o with jobs := n } previous nodes = emitDeclarations s o previous nodes
  | [], _ => rfl
  | node :: rest, previous => by
    have hdeclaration : emitDeclaration s { o with jobs := n } previous node = emitDeclaration s o previous node := by
      unfold emitDeclaration
      rw [emitMessage_jobs]
      rfl
    rw [emitDeclarations, emitDeclarations, hdeclaration, emitDeclarations_jobs s o n rest]

theorem assemble_jobs (n : Int) (group : FileGroup) : assemble g { o with jobs := n } group = assemble g o group := by
  unfold assemble assembleWithImports emitModule
  rw [emitDeclarations_jobs]
  rfl

/-- The tasks of a run do not depend on the number of jobs. -/
theorem planned_jobs (g : Graph) (o : Options) (n : Int) : planned g { o with jobs := n } = planned g o := by
  unfold planned tasks
  simp only [assemble_jobs]
  rfl

/-- **Side by side is in order.** Whatever the order in which a pool does the tasks, the run gives the same result and
leaves the same files and directories as the run with one job. -/
theorem pool_eq_in_order {document source : String} (hfinal : g.finalized = true) (hplan : plan g o = .ok groups)
    (hslow : o.failFast = false) (hpaths : ((planned g o).map (·.path)).Nodup)
    (hshared : Shared t g o d document source) (hreports : ∀ task ∈ planned g o, task.Reports) :
    (∀ order : List Nat, order.Perm (List.range (planned g o).length) →
      (generateWith (runPool t o order) t g o d).result = (generate t g { o with jobs := 1 } d).2.result ∧
      ∀ place, (generateWith (runPool t o order) t g o d).disk.get? place =
          (generate t g { o with jobs := 1 } d).2.disk.get? place ∧
        (generateWith (runPool t o order) t g o d).disk.isDirectory place =
          (generate t g { o with jobs := 1 } d).2.disk.isDirectory place) ∧
    (1 < o.jobs → ∃ order : List Nat, order.Perm (List.range (planned g o).length) ∧
      (generate t g o d).2 = generateWith (runPool t o order) t g o d) := by
  constructor
  · intro order horder
    have hone : Settles t d document source (planned g o) (succeeding t d (planned g o)) (failing t d (planned g o))
        (generate t g { o with jobs := 1 } d).2 := by
      have h := generate_settles (o := { o with jobs := 1 }) hfinal hplan rfl (by rwa [planned_jobs])
        ⟨hshared.describe, hshared.source, hshared.document_free, hshared.reflection_free⟩ (by rwa [planned_jobs])
      have hall : attempted t d o.failFast (planned g o) = planned g o := by rw [hslow, attempted_all]
      simpa only [planned_jobs, hall] using h
    have hpool : Settles t d document source (planned g o) (succeeding t d (planned g o)) (failing t d (planned g o))
        (generateWith (runPool t o order) t g o d) :=
      generateWith_settles hplan hpaths hshared (List.Subset.refl _) fun p hp =>
        runPool_leaves hslow horder (run_separates t hplan document source hpaths) hreports hp
    refine ⟨by rw [hpool.result, hone.result], hpool.same hone ?_⟩
    exact List.map_subset _ (List.filter_subset_self _)
  · intro hjobs
    refine ⟨List.range (planned g o).length, List.Perm.refl _, ?_⟩
    obtain ⟨p, -, -, -, heq⟩ := generateWith_eq hplan hshared
    rw [generate, if_pos hfinal]
    dsimp only [generateResolved]
    rw [heq, heq, runTasks, if_pos hjobs]

/-- The index of `foo` first and the module of `a.proto` second: the index fails and the module is written, as in
order. -/
theorem pool_eq_in_order_backwards : [1, 0].Perm (List.range (planned fooGraph indexed).length) ∧
    (generateWith (runPool ⟨"out", ["out"]⟩ indexed [1, 0]) ⟨"out", ["out"]⟩ fooGraph indexed blocked).result =
      (generate ⟨"out", ["out"]⟩ fooGraph { indexed with jobs := 1 } blocked).2.result := by
  have horder : [1, 0].Perm (List.range (planned fooGraph indexed).length) := by decide
  obtain ⟨groups, document, source, hplan, hshared, hreports⟩ := fooGraph_ready
  exact ⟨horder, ((pool_eq_in_order (by decide) hplan rfl (by decide) hshared hreports).1
    _ horder).1⟩

end ProtoBind.Output
