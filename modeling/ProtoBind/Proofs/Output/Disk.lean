/-
What a write does to a tree of files.

A write goes by way of a temporary file. Each of its operations is one equation
(`makeDirectories_eq`, `createTemporary_eq`, `fill_eq`, `replace_eq`,
`discard_eq`), and all but the one that moves the temporary file leave the files
at other paths alone. Together they are one step (`writeFile_of_free`,
`writeFile_of_not_free`): a free path gets its file and the directories around
it, and else nothing is different; at any other path the disk is in the end what
it was. A path stays free, or not, when a file is written that lies neither
above nor below it (`free_install`).
-/
import Mathlib.Data.List.Nodup
import ProtoBind.Output.Disk
import ProtoBind.Proofs.Codegen.Imports
import ProtoBind.Proofs.Entries
import ProtoBind.Proofs.Results

namespace ProtoBind.Output.Disk

variable {d : Disk} {p q t : Path} {text : String}

/-! ## Files and directories -/

theorem isBelow_iff : isBelow p q = true ↔ q <+: p ∧ q.length < p.length := by
  rw [isBelow, Bool.and_eq_true, List.isPrefixOf_iff_prefix, decide_eq_true_eq]

/-- What a path lies below is what it lies in, and what that lies in. -/
theorem isBelow_eq (hp : p ≠ []) : isBelow p q = q.isPrefixOf p.dropLast := by
  have hlength : 0 < p.length := List.length_pos_iff.mpr hp
  rw [Bool.eq_iff_iff, isBelow_iff, List.isPrefixOf_iff_prefix]
  constructor
  · rintro ⟨hfront, hshort⟩
    exact List.prefix_of_prefix_length_le hfront (List.dropLast_prefix p) (by rw [List.length_dropLast]; omega)
  · intro hfront
    have hshort := hfront.length_le
    rw [List.length_dropLast] at hshort
    exact ⟨hfront.trans (List.dropLast_prefix p), by omega⟩

theorem isDirectory_nil (d : Disk) : d.isDirectory [] = true := by
  rw [isDirectory, List.isEmpty_nil, Bool.true_or, Bool.true_or]

/-- What a directory lies in is a directory. -/
theorem isDirectory_of_prefix (h : q <+: p) (hp : d.isDirectory p = true) : d.isDirectory q = true := by
  simp only [isDirectory, Bool.or_eq_true, List.any_eq_true, List.isEmpty_iff, List.isPrefixOf_iff_prefix,
    isBelow_iff] at hp ⊢
  rcases hp with (rfl | ⟨e, he, hfront⟩) | ⟨f, hf, hfront, hshort⟩
  · exact .inl (.inl (List.prefix_nil.mp h))
  · exact .inl (.inr ⟨e, he, h.trans hfront⟩)
  · exact .inr ⟨f, hf, h.trans hfront, Nat.lt_of_le_of_lt h.length_le hshort⟩

theorem get?_put (d : Disk) (p q : Path) (text : String) :
    (d.put p text).get? q = if q = p then some text else d.get? q :=
  Entries.lookup_put

theorem put_put {text' : String} : (d.put p text).put p text' = d.put p text' := by
  simp only [put, Entries.put_put]

/-- A file that was not there can be put and taken away. -/
theorem erase_put (text : String) (h : d.isTaken p = false) : (d.put p text).erase p = d := by
  have hnone : d.get? p = none := by
    rw [isTaken, Bool.or_eq_false_iff] at h
    simpa using h.1
  simp only [put, erase, Entries.erase_put_of_notMem (Entries.lookup_eq_none_iff.mp hnone)]

theorem erase_of_get?_none (h : d.get? p = none) : d.erase p = d := by
  simp only [erase, Entries.erase_of_notMem (Entries.lookup_eq_none_iff.mp h)]

/-- A file that is put is one more place with a file. -/
theorem any_put (place : Path → Bool) (d : Disk) (p : Path) (text : String) :
    ((d.put p text).files.any fun f => place f.1) = (place p || d.files.any fun f => place f.1) := by
  have hany : ∀ files : List (Path × String),
      ((Entries.put (· == ·) p text files).any fun f => place f.1) = (place p || files.any fun f => place f.1) := by
    intro files
    induction files with
    | nil => simp [Entries.put]
    | cons f files ih =>
      rw [Entries.put]
      split
      next hf => simp [beq_iff_eq.mp hf]
      next =>
        rw [List.any_cons, ih, List.any_cons]
        exact Bool.or_left_comm _ _ _
  exact hany d.files

theorem isDirectory_put : (d.put p text).isDirectory q = (d.isDirectory q || isBelow p q) := by
  unfold isDirectory
  rw [any_put (isBelow · q)]
  simp only [put, Bool.or_assoc, Bool.or_comm (isBelow p q)]

theorem isBlocked_put : (d.put p text).isBlocked q = (isBelow q p || d.isBlocked q) := any_put (isBelow q ·) ..

@[simp] theorem addDirectory_files : (d.addDirectory p).files = d.files := by
  unfold addDirectory
  split <;> rfl

@[simp] theorem get?_addDirectory : (d.addDirectory p).get? q = d.get? q := by rw [get?, addDirectory_files, get?]

@[simp] theorem isBlocked_addDirectory : (d.addDirectory p).isBlocked q = d.isBlocked q := by
  rw [isBlocked, addDirectory_files, isBlocked]

/-- With a directory come the directories it lies in. -/
theorem isDirectory_addDirectory : (d.addDirectory p).isDirectory q = (d.isDirectory q || q.isPrefixOf p) := by
  unfold addDirectory
  split
  next hp =>
    cases hq : q.isPrefixOf p with
    | false => rw [Bool.or_false]
    | true => rw [Bool.or_true, isDirectory_of_prefix (List.isPrefixOf_iff_prefix.mp hq) hp]
  next =>
    simp only [isDirectory, List.any_append, List.any_cons, List.any_nil, Bool.or_false]
    ac_rfl

theorem addDirectory_of_isDirectory (h : d.isDirectory p = true) : d.addDirectory p = d := if_pos h

/-! ## Temporary files -/

/-- What is taken lies at or above a file or a directory that was made. -/
theorem prefix_of_isTaken (hne : p ≠ []) (h : d.isTaken p = true) : ∃ e ∈ d.files.map (·.1) ++ d.directories, p <+: e := by
  simp only [isTaken, isDirectory, Bool.or_eq_true, List.any_eq_true, List.isEmpty_iff, hne, false_or,
    List.isPrefixOf_iff_prefix, isBelow_iff] at h
  rcases h with hfile | ⟨e, he, hfront⟩ | ⟨f, hf, hfront, -⟩
  · obtain ⟨_, htext⟩ := Option.isSome_iff_exists.mp hfile
    exact ⟨p, List.mem_append_left _ (List.mem_map_of_mem (Entries.mem_of_lookup htext)), List.prefix_refl p⟩
  · exact ⟨e, List.mem_append_right _ he, hfront⟩
  · exact ⟨f.1, List.mem_append_left _ (List.mem_map_of_mem hf), hfront⟩

theorem temporary_inj {j k : Nat} (h : temporary q j = temporary q k) : j = k := by
  have hname : ".pw-" ++ intText j ++ ".tmp" = ".pw-" ++ intText k ++ ".tmp" :=
    List.singleton_inj.mp (List.append_cancel_left h)
  have hchars := congrArg String.toList hname
  rw [String.toList_append, String.toList_append (s := ".pw-" ++ intText k)] at hchars
  exact Codegen.ImportTable.numbered_inj (String.toList_inj.mp (List.append_cancel_right hchars))

/-- There is always a name for one more temporary file. -/
theorem exists_freshTemporary (d : Disk) (q : Path) :
    ∃ k, d.freshTemporary? q = some (temporary q k) ∧ d.isTaken (temporary q k) = false := by
  cases hfind : d.freshTemporary? q with
  | some t =>
    obtain ⟨k, -, rfl⟩ := List.mem_map.mp (List.mem_of_find?_eq_some hfind)
    exact ⟨k, rfl, by simpa using List.find?_some hfind⟩
  | none =>
    -- As many names as files and directories and one more: two would be taken by one of them.
    exfalso
    have htaken := List.find?_eq_none.mp hfind
    have hnodup := List.nodup_range (n := d.files.length + d.directories.length + 1)
      |>.map fun _ _ => temporary_inj (q := q)
    have hsubset : (List.range (d.files.length + d.directories.length + 1)).map (temporary q) ⊆
        (d.files.map (·.1) ++ d.directories).map (·.take (q.length + 1)) := by
      intro t ht
      obtain ⟨k, -, rfl⟩ := List.mem_map.mp ht
      have hk : d.isTaken (temporary q k) = true := by simpa using htaken _ ht
      obtain ⟨e, he, hfront⟩ := prefix_of_isTaken (List.append_ne_nil_of_right_ne_nil q (List.cons_ne_nil _ _)) hk
      refine List.mem_map.mpr ⟨e, he, ?_⟩
      have hlength : (temporary q k).length = q.length + 1 := List.length_append
      exact hlength ▸ (List.prefix_iff_eq_take.mp hfront).symm
    have hlength := (hnodup.subperm hsubset).length_le
    simp only [List.length_map, List.length_range, List.length_append] at hlength
    omega

/-! ## Operations -/

section Run

variable {α : Type} {x : DiskOp α} {handler : DiskFault → DiskOp α} {a : α} {e : DiskFault} {d' : Disk}

/-- An operation begins with the disk that is there. -/
theorem get_eq (d : Disk) : (get : DiskOp Disk) d = .ok d d := rfl

theorem tryCatch_of_ok (h : x d = .ok a d') : tryCatch x handler d = .ok a d' := by
  show EStateM.tryCatch x handler d = _
  rw [EStateM.tryCatch, h]

/-- A fault is caught on the disk that it left. -/
theorem tryCatch_of_error (h : x d = .error e d') : tryCatch x handler d = handler e d' := by
  show EStateM.tryCatch x handler d = _
  rw [EStateM.tryCatch, h]
  rfl

end Run

theorem makeDirectories_eq (p : Path) (d : Disk) : makeDirectories p d =
    if (d.get? p).isSome || d.isBlocked p then .error .notDirectory d else .ok () (d.addDirectory p) := by
  show (if _ then _ else _ : DiskOp Unit) d = _
  split <;> rfl

/-- A temporary file is made beside the files that are there. -/
theorem createTemporary_eq (h : d.isDirectory q = true) :
    ∃ k, createTemporary q d = .ok (temporary q k) (d.put (temporary q k) "") ∧ d.isTaken (temporary q k) = false := by
  obtain ⟨k, hfind, hfree⟩ := exists_freshTemporary d q
  refine ⟨k, ?_, hfree⟩
  rw [createTemporary, bind_of_ok (get_eq d)]
  simp only [h, hfind, Bool.not_true, Bool.false_eq_true, if_false]
  rfl

theorem fill_eq (h : (d.get? p).isSome = true) : fill p text d = .ok () (d.put p text) := by
  obtain ⟨old, hold⟩ := Option.isSome_iff_exists.mp h
  show (if (d.get? p).isNone then _ else _ : DiskOp Unit) d = _
  rw [hold]
  rfl

/-- The text of a file that was put is written over. -/
theorem fill_put (p : Path) (old text : String) (d : Disk) : fill p text (d.put p old) = .ok () (d.put p text) := by
  rw [fill_eq (by rw [get?_put, if_pos rfl]; rfl), put_put]

theorem replace_eq (h : d.get? t = some text) : replace t p d =
    if d.isDirectory p then .error .isDirectory d
    else if d.isBlocked p then .error .notDirectory d
    else .ok () ((d.erase t).put p text) := by
  rw [replace, bind_of_ok (get_eq d)]
  simp only [h]
  cases d.isDirectory p with
  | true => rfl
  | false => cases d.isBlocked p <;> rfl

theorem remove_eq (p : Path) (d : Disk) :
    remove p d = if (d.get? p).isNone then .error .missing d else .ok () (d.erase p) := by
  show (if (d.get? p).isNone then _ else _ : DiskOp Unit) d = _
  split <;> rfl

/-- A file that is discarded is gone, whether it was there or not. -/
theorem discard_eq (p : Path) (d : Disk) : discard p d = .ok () (d.erase p) := by
  have hremove := remove_eq p d
  split at hremove
  next hnone =>
    rw [discard, tryCatch_of_error hremove, erase_of_get?_none (Option.isNone_iff_eq_none.mp hnone)]
    rfl
  next => exact tryCatch_of_ok hremove

/-! ## A write -/

/-- A file can be written at a path: no directory is there, and no file stands on the way. -/
def Free (d : Disk) (p : Path) : Prop := d.isDirectory p = false ∧ d.isBlocked p = false

instance (d : Disk) (p : Path) : Decidable (d.Free p) := inferInstanceAs (Decidable (_ ∧ _))

/-- Neither path lies below the other. -/
def Apart (p q : Path) : Prop := isBelow p q = false ∧ isBelow q p = false

theorem Apart.symm (h : Apart p q) : Apart q p := ⟨h.2, h.1⟩

/-- The disk with a file, and the directories that it lies in. -/
def install (d : Disk) (p : Path) (text : String) : Disk := (d.addDirectory p.dropLast).put p text

theorem Free.ne_nil (h : d.Free p) : p ≠ [] := by
  rintro rfl
  exact Bool.false_ne_true (h.1.symm.trans d.isDirectory_nil)

/-- A file stands on the way to a path when one is in place of its directory or on the way there. -/
theorem isBlocked_eq (hp : p ≠ []) : d.isBlocked p = ((d.get? p.dropLast).isSome || d.isBlocked p.dropLast) := by
  rw [Bool.eq_iff_iff, Bool.or_eq_true, isBlocked, isBlocked, List.any_eq_true, List.any_eq_true]
  simp only [isBelow_eq hp, isBelow_iff, List.isPrefixOf_iff_prefix]
  constructor
  · rintro ⟨f, hf, hfront⟩
    rcases Nat.lt_or_ge f.1.length p.dropLast.length with hshort | hlong
    · exact .inr ⟨f, hf, hfront, hshort⟩
    · rw [← hfront.eq_of_length_le hlong, Option.isSome_iff_ne_none, ne_eq, get?, Entries.lookup_eq_none_iff,
        Classical.not_not]
      exact .inl (List.mem_map_of_mem hf)
  · rintro (hfile | ⟨f, hf, hfront, -⟩)
    · obtain ⟨text, htext⟩ := Option.isSome_iff_exists.mp hfile
      exact ⟨_, Entries.mem_of_lookup htext, List.prefix_refl _⟩
    · exact ⟨f, hf, hfront⟩

theorem isBelow_temporary (hp : p ≠ []) (k : Nat) :
    isBelow (temporary p.dropLast k) p = false ∧ isBelow p (temporary p.dropLast k) = false := by
  have hlength : (temporary p.dropLast k).length = p.length := by
    have := List.length_pos_iff.mpr hp
    simp only [temporary, List.length_append, List.length_dropLast, List.length_singleton]
    omega
  simp [isBelow, hlength]

/-- **The steps of a write at a free path.** Until the temporary file takes its place, every other path has the text it
had before. -/
theorem writeFile_steps (text : String) (h : d.Free p) : ∃ k,
    (d.addDirectory p.dropLast).isTaken (temporary p.dropLast k) = false ∧
    makeDirectories p.dropLast d = .ok () (d.addDirectory p.dropLast) ∧
    createTemporary p.dropLast (d.addDirectory p.dropLast) =
      .ok (temporary p.dropLast k) ((d.addDirectory p.dropLast).put (temporary p.dropLast k) "") ∧
    fill (temporary p.dropLast k) text ((d.addDirectory p.dropLast).put (temporary p.dropLast k) "") =
      .ok () ((d.addDirectory p.dropLast).put (temporary p.dropLast k) text) ∧
    replace (temporary p.dropLast k) p ((d.addDirectory p.dropLast).put (temporary p.dropLast k) text) =
      .ok () (d.install p text) := by
  have hp := h.ne_nil
  have hway := h.2
  rw [isBlocked_eq hp] at hway
  have hmake := makeDirectories_eq p.dropLast d
  rw [hway, if_neg Bool.false_ne_true] at hmake
  have hthere : (d.addDirectory p.dropLast).isDirectory p.dropLast = true := by simp [isDirectory_addDirectory]
  obtain ⟨k, hcreate, htaken⟩ := createTemporary_eq hthere
  refine ⟨k, htaken, hmake, hcreate, fill_put .., ?_⟩
  obtain ⟨hbelow, habove⟩ := isBelow_temporary hp k
  have hlast : p.isPrefixOf p.dropLast = false := by rw [← isBelow_eq hp]; simp [isBelow]
  have hdirectory : ((d.addDirectory p.dropLast).put (temporary p.dropLast k) text).isDirectory p = false := by
    rw [isDirectory_put, hbelow, isDirectory_addDirectory, h.1, hlast]
    rfl
  have hblocked : ((d.addDirectory p.dropLast).put (temporary p.dropLast k) text).isBlocked p = false := by
    rw [isBlocked_put, habove, isBlocked_addDirectory, h.2]
    rfl
  rw [replace_eq (get?_put .. ▸ if_pos rfl), hdirectory, hblocked, if_neg Bool.false_ne_true,
    if_neg Bool.false_ne_true, erase_put text htaken]
  rfl

/-- **A write at a free path** puts the file there. -/
theorem writeFile_of_free (h : d.Free p) : writeFile p text d = .ok () (d.install p text) := by
  obtain ⟨k, -, hmake, hcreate, hfill, hreplace⟩ := writeFile_steps text h
  rw [writeFile, bind_of_ok hmake, bind_of_ok hcreate]
  exact tryCatch_of_ok ((bind_of_ok hfill).trans hreplace)

/-- **A write at any other path** fails, and leaves the disk as it was. -/
theorem writeFile_of_not_free (text : String) (h : ¬ d.Free p) :
    ∃ f, writeFile p text d = .error f d := by
  have hmake := makeDirectories_eq p.dropLast d
  split at hmake
  next => exact ⟨_, bind_eq_error.mpr (.inl hmake)⟩
  next hway =>
    -- No file is on the way, so that a directory is at the path.
    rw [Bool.not_eq_true] at hway
    have hdirectory : d.isDirectory p = true := by
      rcases eq_or_ne p [] with rfl | hp
      · exact isDirectory_nil d
      · rw [Free, isBlocked_eq hp, hway, eq_self_iff_true, and_true, Bool.not_eq_false] at h
        exact h
    have hparent := isDirectory_of_prefix (List.dropLast_prefix p) hdirectory
    rw [addDirectory_of_isDirectory hparent] at hmake
    obtain ⟨k, hcreate, htaken⟩ := createTemporary_eq hparent
    have hreplace : replace (temporary p.dropLast k) p (d.put (temporary p.dropLast k) text) =
        .error .isDirectory (d.put (temporary p.dropLast k) text) := by
      rw [replace_eq (get?_put .. ▸ if_pos rfl), isDirectory_put, hdirectory, Bool.true_or, if_pos rfl]
    refine ⟨.isDirectory, ?_⟩
    rw [writeFile, bind_of_ok hmake, bind_of_ok hcreate, tryCatch_of_error ((bind_of_ok (fill_put ..)).trans hreplace),
      bind_of_ok (discard_eq ..), erase_put text htaken]
    rfl

/-! ## What a write leaves -/

theorem get?_install : (d.install p text).get? q = if q = p then some text else d.get? q := by
  rw [install, get?_put, get?_addDirectory]

/-- The directories that a file lies in are there with it. -/
theorem isDirectory_install (hp : p ≠ []) : (d.install p text).isDirectory q = (d.isDirectory q || isBelow p q) := by
  rw [install, isDirectory_put, isDirectory_addDirectory, isBelow_eq hp, Bool.or_assoc, Bool.or_self]

theorem free_install (hp : p ≠ []) (h : Apart p q) : (d.install p text).Free q ↔ d.Free q := by
  rw [Free, isDirectory_install hp, h.1, Bool.or_false, install, isBlocked_put, h.2, isBlocked_addDirectory,
    Bool.false_or, Free]

end ProtoBind.Output.Disk
