/-
Names of files below directories.

A name is read along its parts, so a name below a directory is read from there
(`read?_below`). The name that an input file gets leads back to the file from
one of the include directories (`originName_finds`).
-/
import ProtoBind.Files.Load
import ProtoBind.Proofs.Codegen.Plan
import ProtoBind.Proofs.Entries
import ProtoBind.Proofs.Output.Generate
import ProtoBind.Proofs.Schema.Loaded

namespace ProtoBind.Files

open Output (Disk Path)
open Source (splitAtChar_eq)
open Codegen (IsPart)

/-- The name of a file or a directory: a part of a path that is none of the two that lead elsewhere. -/
structure IsName (s : String) : Prop extends IsPart s where
  ne_dot : s ≠ "."
  ne_dots : s ≠ ".."

/-- A working directory with a proper path, on a disk without a file in place of the top. -/
structure Workspace.Proper (w : Workspace) : Prop where
  here : ∀ part ∈ w.here, IsName part
  top : w.disk.get? [] = none

variable {w : Workspace} {p q : Path} {name d : String} {names : List String} {text : String}

/-! ## Parts -/

theorem parts_append (a b : String) : parts (a ++ "/" ++ b) = parts a ++ parts b := by
  have hlist : (a ++ "/" ++ b).toList = a.toList ++ '/' :: b.toList := by simp
  rw [parts, parts, parts, Text.splitOnChar, Text.splitOnChar, Text.splitOnChar, splitAtChar_eq, splitAtChar_eq,
    splitAtChar_eq, hlist, List.splitOn_append_cons_self, List.map_append]

theorem parts_join (h : ∀ name ∈ names, IsPart name) (hne : names ≠ []) : parts (Text.join "/" names) = names := by
  rw [parts, Text.splitOnChar, splitAtChar_eq, Codegen.splitOn_join h hne, List.map_map]
  simp [Function.comp_def]

theorem parts_no_slash (name : String) : ∀ part ∈ parts name, '/' ∉ part.toList := by
  intro part hpart
  obtain ⟨piece, hpiece, rfl⟩ := List.mem_map.mp hpart
  rw [String.toList_ofList]
  exact Schema.Load.not_mem_splitAtChar hpiece

theorem not_isRooted_join (h : ∀ name ∈ names, IsPart name) (hne : names ≠ []) :
    isRooted (Text.join "/" names) = false := by
  obtain ⟨first, rest, rfl⟩ := List.exists_cons_of_ne_nil hne
  have hfirst := h first List.mem_cons_self
  cases hchars : first.toList with
  | nil => exact absurd (String.toList_eq_nil_iff.mp hchars) hfirst.ne_empty
  | cons c cs =>
    have hc : c ≠ '/' := fun he => hfirst.no_slash (by rw [hchars, he]; exact List.mem_cons_self)
    have hjoin : ∃ tail, (Text.join "/" (first :: rest)).toList = c :: tail := by
      cases rest with
      | nil => exact ⟨cs, by simp [Text.join, hchars]⟩
      | cons second rest => exact ⟨_, by rw [Text.join, String.toList_intercalate]; simp [List.intercalate, hchars]; rfl⟩
    obtain ⟨tail, htail⟩ := hjoin
    rw [isRooted, Text.startsWith, htail]
    exact Bool.and_eq_false_iff.mpr (.inl (beq_false_of_ne hc.symm))

theorem isRooted_append (hd : d ≠ "") (name : String) : isRooted (d ++ name) = isRooted d := by
  rw [isRooted, isRooted, Text.startsWith, Text.startsWith, String.toList_append]
  cases hchars : d.toList with
  | nil => exact absurd (String.toList_eq_nil_iff.mp hchars) hd
  | cons c cs => exact (Bool.and_true _).trans (Bool.and_true _).symm

theorem follow_name (h : IsName name) : follow p name = p ++ [name] := by
  rw [follow, if_neg (by simp [h.ne_empty, h.ne_dot]), if_neg (by simp [h.ne_dots])]

theorem follow_names (hp : ∀ part ∈ p, IsName part) (hname : '/' ∉ name.toList) : ∀ part ∈ follow p name, IsName part := by
  unfold follow
  split
  · exact hp
  next hempty =>
    split
    · exact fun part hpart => hp part (List.mem_of_mem_dropLast hpart)
    next hdots =>
      simp only [Bool.or_eq_true, beq_iff_eq, not_or] at hempty hdots
      refine List.forall_mem_append.mpr ⟨hp, fun part hpart => ?_⟩
      rw [List.mem_singleton.mp hpart]
      exact ⟨⟨hempty.1, hname⟩, hempty.2, hdots⟩

namespace Workspace

theorem absolute_names (hw : w.Proper) (name : String) : ∀ part ∈ w.absolute name, IsName part := by
  have hfold : ∀ (names : List String) {p : Path}, (∀ part ∈ p, IsName part) → (∀ name ∈ names, '/' ∉ name.toList) →
      ∀ part ∈ names.foldl follow p, IsName part := by
    intro names
    induction names with
    | nil => exact fun hp _ => hp
    | cons name names ih =>
      intro p hp hnames
      exact ih (follow_names hp (hnames name List.mem_cons_self)) fun x hx => hnames x (List.mem_cons_of_mem _ hx)
  refine hfold _ ?_ (parts_no_slash name)
  unfold start
  split
  · exact nofun
  · exact hw.here

/-! ## Walking -/

theorem walk_append : ∀ (names : List String) {p : Path} {more : List String},
    w.walk p (names ++ more) = (w.walk p names).bind (w.walk · more)
  | [], _, _ => rfl
  | name :: names, p, more => by
    rw [List.cons_append, walk, walk]
    split
    · exact walk_append names
    · rfl

theorem walk_eq : ∀ {names : List String} {p q : Path}, w.walk p names = some q → q = names.foldl follow p
  | [], _, _, h => (Option.some.inj h).symm
  | name :: names, p, q, h => by
    rw [walk] at h
    split at h
    · exact @walk_eq names _ _ h
    · cases h

/-- What a file lies below is a directory. -/
theorem isDirectory_of_get? (h : w.disk.get? (p ++ q) = some text) (hq : q ≠ []) : w.isDirectory p = true := by
  have hmem : (p ++ q, text) ∈ w.disk.files := Entries.mem_of_lookup h
  rw [isDirectory, Bool.or_eq_true, Disk.isDirectory, Bool.or_eq_true, List.any_eq_true (l := w.disk.files)]
  refine .inr (.inr ⟨(p ++ q, text), hmem, ?_⟩)
  have hlength : 0 < q.length := List.length_pos_iff.mpr hq
  simp [Disk.isBelow, hlength]

/-- Names on the way to a file are followed. -/
theorem walk_names : ∀ {names : List String} {p q : Path}, (∀ name ∈ names, IsName name) →
    w.disk.get? (p ++ names ++ q) = some text → w.walk p names = some (p ++ names)
  | [], p, _, _, _ => by rw [walk, List.append_nil]
  | name :: names, p, q, hnames, h => by
    rw [List.append_assoc] at h
    rw [walk, if_pos (isDirectory_of_get? h (List.cons_ne_nil name _)), follow_name (hnames name List.mem_cons_self),
      List.append_cons p name names]
    refine walk_names (q := q) (fun x hx => hnames x (List.mem_cons_of_mem _ hx)) ?_
    simpa using h

/-- A directory can be gone to. -/
def There (w : Workspace) (d : String) : Prop := w.walk (w.start d) (parts d) = some (w.absolute d)

instance : Decidable (w.There d) := inferInstanceAs (Decidable (_ = _))

/-- The text of a file that is read with line feeds only. -/
def normal (text : String) : String := String.ofList (Text.normalizeNewlines text.toList)

theorem read?_eq_some (h : w.read? name = some text) :
    ∃ raw, w.disk.get? (w.absolute name) = some raw ∧ text = normal raw := by
  rw [read?] at h
  split at h
  · cases h
  next q hq =>
    obtain ⟨raw, hraw, rfl⟩ := Option.map_eq_some_iff.mp h
    obtain rfl : q = w.absolute name := walk_eq hq
    exact ⟨raw, hraw, rfl⟩

/-- A file below a directory is read by the name of the one below that of the other. -/
theorem read?_below (hd : w.There d) (hnames : ∀ name ∈ names, IsName name) (hne : names ≠ [])
    (h : w.disk.get? (w.absolute d ++ names) = some text) :
    w.read? (below d (Text.join "/" names)) = some (normal text) := by
  have hparts : ∀ name ∈ names, IsPart name := fun name hname => (hnames name hname).toIsPart
  have hwalk : w.walk (w.absolute d) names = some (w.absolute d ++ names) :=
    walk_names (q := []) hnames (by rwa [List.append_nil])
  -- However the two names are put together, the way leads through the directory.
  suffices hway : w.walk (w.start (below d (Text.join "/" names))) (parts (below d (Text.join "/" names))) =
      some (w.absolute d ++ names) by
    rw [read?, hway]
    simp [h, normal]
  have hrelative := not_isRooted_join hparts hne
  have hstart : ∀ base, base ≠ "" → w.start (base ++ Text.join "/" names) = w.start base := fun base hbase => by
    rw [start, start, isRooted_append hbase]
  rw [below, hrelative, Bool.false_or]
  split
  next hempty =>
    obtain rfl : d = "" := by simpa using hempty
    rw [start, hrelative, parts_join hparts hne]
    exact hwalk
  next hempty =>
    have hne' : d ≠ "" := by simpa using hempty
    split
    next hslash =>
      obtain ⟨cs, hcs⟩ := List.getLast?_eq_some_iff.mp hslash
      obtain rfl : d = String.ofList cs ++ "/" := String.toList_injective (by simpa using hcs)
      have hempty : parts (String.ofList cs ++ "/") = parts (String.ofList cs) ++ [""] := by
        rw [← String.append_empty (s := String.ofList cs ++ "/"), parts_append]
        rfl
      rw [There, hempty, walk_append, Option.bind_eq_some_iff] at hd
      obtain ⟨q, hq, hlast⟩ := hd
      have hsame : w.absolute (String.ofList cs ++ "/") = q := @walk_eq _ [""] _ _ hlast
      rw [hstart _ hne', parts_append, walk_append, hq, Option.bind_some, parts_join hparts hne, ← hsame]
      exact hwalk
    next =>
      have hslash : d ++ "/" ≠ "" := by simp
      rw [hstart _ hslash, start, isRooted_append hne', ← start, parts_append, parts_join hparts hne, walk_append, hd]
      exact hwalk

end Workspace

/-! ## Names of input files -/

open Workspace

/-- A name from the top leads to what a file lies below. -/
theorem Workspace.there_rootedName (hp : ∀ part ∈ p, IsName part) (h : w.disk.get? (p ++ q) = some text) :
    w.There (rootedName p) ∧ w.absolute (rootedName p) = p := by
  have hstart : w.start (rootedName p) = [] := by
    have hrooted : isRooted (rootedName p) = true := (isRooted_append (by simp) _).trans rfl
    rw [start, hrooted, if_pos rfl]
  have htop : w.isDirectory [] = true := by simp [isDirectory]
  have hwalk : w.walk [] (parts (rootedName p)) = some p := by
    rw [rootedName, ← String.empty_append (s := "/"), parts_append]
    show w.walk [] ("" :: parts (Text.join "/" p)) = some p
    rw [walk, if_pos htop]
    by_cases hne : p = []
    · subst hne
      show w.walk [] [""] = some []
      rw [walk, if_pos htop]
      rfl
    · rw [parts_join (fun part hpart => (hp part hpart).toIsPart) hne]
      exact walk_names (p := []) (q := q) hp h
  have habsolute : w.absolute (rootedName p) = p := by
    rw [absolute, hstart]
    exact (walk_eq hwalk).symm
  exact ⟨by rw [There, hstart, habsolute, hwalk], habsolute⟩

/-- **The name of an input file leads back to it from one of the include directories.** -/
theorem originName_finds {includes : List String} {file : String} (hw : w.Proper) (hdirs : ∀ d ∈ includes, w.There d)
    (h : w.read? file = some text) :
    (∀ d ∈ (originName w includes file).2, w.There d) ∧
      ∃ d ∈ (originName w includes file).2, w.read? (below d (originName w includes file).1) = some text := by
  obtain ⟨raw, hraw, rfl⟩ := read?_eq_some h
  have hnames := w.absolute_names hw file
  have hparts : ∀ {p q : Path}, p ++ q = w.absolute file → (∀ part ∈ p, IsName part) ∧ ∀ part ∈ q, IsName part :=
    fun hsplit => List.forall_mem_append.mp (hsplit ▸ hnames)
  rw [originName]
  split
  next name hfirst =>
    obtain ⟨d, hd, hbelow⟩ := List.exists_of_findSome?_eq_some hfirst
    rw [nameBelow?] at hbelow
    split at hbelow
    next hlies =>
      obtain rfl := Option.some.inj hbelow
      simp only [Disk.isBelow, Bool.and_eq_true, List.isPrefixOf_iff_prefix, decide_eq_true_eq] at hlies
      obtain ⟨-, ⟨rest, hrest⟩, hlength⟩ := hlies
      rw [← hrest, List.length_append] at hlength
      rw [← hrest, List.drop_left]
      refine ⟨hdirs, d, hd, read?_below (hdirs d hd) (hparts hrest).2 (List.length_pos_iff.mp (by omega)) ?_⟩
      rwa [hrest]
    · cases hbelow
  next =>
    -- No directory contains the file: its own becomes the last.
    have hne : w.absolute file ≠ [] := fun he => by
      rw [he, hw.top] at hraw
      cases hraw
    have hlast : (w.absolute file).dropLast ++ [(w.absolute file).getLastD ""] = w.absolute file := by
      rw [List.getLastD_eq_getLast?, List.getLast?_eq_some_getLast hne, Option.getD_some,
        List.dropLast_concat_getLast]
    obtain ⟨hthere, habsolute⟩ := there_rootedName (hparts hlast).1 (hlast ▸ hraw)
    refine ⟨List.forall_mem_append.mpr ⟨hdirs, by simpa using hthere⟩, _, List.mem_append_right _ List.mem_cons_self, ?_⟩
    have hbelow := read?_below hthere (hparts hlast).2 (List.cons_ne_nil _ _) (by rw [habsolute, hlast]; exact hraw)
    rwa [show Text.join "/" [(w.absolute file).getLastD ""] = _ from String.intercalate_singleton] at hbelow

end ProtoBind.Files
