/-
Loading files with their imports.

Files are in order when each can be entered after those before it, and its
imports are among these (`Ordered`). What a successful load leaves are files
in order (`load_sound`): a file is entered after the files it imports, and
while it is being loaded it is not loaded again. Conversely, where all files
have an order, every load succeeds, whatever was loaded before
(`load_complete`): what a file imports stands before it, so no way through
the imports comes back to a file that it passed. So it is for the texts alone
to say whether they can be loaded together (`loadEach_iff`).
-/
import Mathlib.Data.List.Pairwise
import Mathlib.Data.List.Perm.Subperm
import ProtoBind.Proofs.Entries
import ProtoBind.Proofs.Schema.Files

namespace ProtoBind.Schema

open Schema.Graph Load
open Source (ProperAll)

variable [Source.CharacterNames]

/-- The file of a name among the texts. -/
def fileAt (find : String → Option String) (name : String) : Option SchemaFile :=
  (find name).bind (SchemaFile.ofText name)

/-- A file that need not be present and is not. -/
def Skipped (find : String → Option String) (name : String) : Prop :=
  find name = none ∧ Text.startsWith name wellKnown = true

/-- Files in an order in which they can be entered one after the other. -/
inductive Ordered (find : String → Option String) : List SchemaFile → Prop
  | nil : Ordered find []
  | snoc {files : List SchemaFile} {f : SchemaFile} (before : Ordered find files)
      (read : fileAt find f.name = some f) (new : f.name ∉ files.map (·.name)) (valid : f.Valid)
      (apart : ∀ f' ∈ files, f.Apart f') (imports : ∀ i ∈ f.imports, i ∈ files.map (·.name) ∨ Skipped find i) :
      Ordered find (files ++ [f])

variable {find : String → Option String} {files more more' : List SchemaFile} {f : SchemaFile}
  {s s' s'' : Loader} {fuel : Nat} {file : String} {importer : Option String}

theorem fileAt_name (h : fileAt find file = some f) : f.name = file := by
  obtain ⟨text, -, htext⟩ := Option.bind_eq_some_iff.mp h
  exact SchemaFile.ofText_name htext

/-- The declarations of a file are those that its text was parsed to. -/
theorem fileAt_parsed (h : fileAt find file = some f) :
    ∃ text comments, Source.parse text = .ok (f.decls, comments) := by
  obtain ⟨text, -, htext⟩ := Option.bind_eq_some_iff.mp h
  obtain ⟨parsed, hparsed, rfl⟩ := Option.map_eq_some_iff.mp htext
  cases hp : Source.parse text with
  | error e =>
    rw [hp] at hparsed
    cases hparsed
  | ok p =>
    rw [hp] at hparsed
    cases hparsed
    exact ⟨text, _, hp⟩

theorem fileAt_proper (h : fileAt find file = some f) : ProperAll f.decls :=
  (fileAt_parsed h).elim fun _ ⟨_, hp⟩ => Source.parse_proper hp

omit [Source.CharacterNames] in
theorem Loader.Holds.congr (h : s.Holds files) (hg : s'.graph = s.graph) (hl : s'.loaded = s.loaded) :
    s'.Holds files where
  arena := hg ▸ h.arena
  mem := hg ▸ h.mem
  declared := hg ▸ h.declared
  loaded := hl.trans h.loaded
  entered := hg ▸ h.entered

/-! ## One file -/

namespace Load

/-- Loads the imports of a file. -/
def loadImports (find : String → Option String) (fuel : Nat) (f : SchemaFile) : Load Unit :=
  forIn f.imports () fun i _ => do
    load find fuel i (some f.name)
    pure (.yield ())

/-- The loader as it goes on to the imports of a file. -/
def opened (s : Loader) (file : String) : Loader :=
  { s with
    loading := s.loading ++ [file]
    log := s.log ++ ["[PWLOAD DEBUG] " ++ ("Loading " ++ file)] }

theorem load_loaded (h : file ∈ s.loaded) : load find (fuel + 1) file importer s = .ok () s := by
  have hc : s.loaded.contains file = true := by simpa using h
  unfold load
  refine bind_eq_ok.mpr ⟨s, s, rfl, ?_⟩
  simp only [hc, if_true]
  rfl

/-- What is done with the text of a file, if there is one. -/
def loadText (find : String → Option String) (fuel : Nat) (file : String) : Option String → Load Unit
  | none => pure ()
  | some text => do
    report ("Loading " ++ file)
    modify fun s => { s with loading := s.loading ++ [file] }
    let parsed ← ofParse file (Source.parse text)
    loadImports find fuel (.ofParsed file text parsed)
    enter (.ofParsed file text parsed)

/-- A file that is neither loaded nor being loaded is looked for. -/
theorem load_fresh (hl : file ∉ s.loaded) (hg : file ∉ s.loading) :
    load find (fuel + 1) file importer s = (readFile find file importer >>= loadText find fuel file) s := by
  have hcl : ¬ s.loaded.contains file = true := by simpa using hl
  have hcg : ¬ s.loading.contains file = true := by simpa using hg
  unfold load
  rw [bind_of_ok (show (get : Load Loader) s = .ok s s from rfl), if_neg hcl, if_neg hcg]
  refine congrFun (congrArg _ (funext fun text => ?_)) s
  cases text <;> rfl

theorem load_skipped {i : String} (hl : file ∉ s.loaded) (hg : file ∉ s.loading) (hs : Skipped find file) :
    ∃ s', load find (fuel + 1) file (some i) s = .ok () s' ∧ s'.graph = s.graph ∧ s'.loaded = s.loaded ∧
      s'.loading = s.loading := by
  let s' : Loader :=
    { s with log := s.log ++ ["[PWLOAD DEBUG] " ++ ("Skipping well-known import " ++ file ++ " from " ++ i)] }
  have hread : readFile find file (some i) s = .ok none s' := by
    unfold readFile
    simp only [hs.1, hs.2, if_true]
    rfl
  refine ⟨s', ?_, rfl, rfl, rfl⟩
  rw [load_fresh hl hg, bind_of_ok hread]
  rfl

theorem load_read (hl : file ∉ s.loaded) (hg : file ∉ s.loading) (hf : fileAt find file = some f) :
    load find (fuel + 1) file importer s =
      (do loadImports find fuel f; enter f : Load Unit) (opened s file) := by
  obtain ⟨text, htext, hf⟩ := Option.bind_eq_some_iff.mp hf
  obtain ⟨parsed, hparsed, rfl⟩ := Option.map_eq_some_iff.mp hf
  have hread : readFile find file importer s = .ok (some text) s := by
    unfold readFile
    simp only [htext]
    rfl
  have hparse : ofParse file (Source.parse text) (opened s file) = .ok parsed (opened s file) := by
    cases hp : Source.parse text with
    | error e =>
      rw [hp] at hparsed
      cases hparsed
    | ok p =>
      rw [hp] at hparsed
      cases hparsed
      rfl
  have hreport : report ("Loading " ++ file) s =
      .ok () { s with log := s.log ++ ["[PWLOAD DEBUG] " ++ ("Loading " ++ file)] } := rfl
  have hopen : (modify fun s => { s with loading := s.loading ++ [file] } : Load Unit)
      { s with log := s.log ++ ["[PWLOAD DEBUG] " ++ ("Loading " ++ file)] } = .ok () (opened s file) := rfl
  rw [load_fresh hl hg, bind_of_ok hread, loadText, bind_of_ok hreport, bind_of_ok hopen, bind_of_ok hparse]

/-- A load that succeeded came to a loaded file, to one to skip, or to one that it read. -/
theorem load_cases {u : Unit} (h : load find fuel file importer s = .ok u s') :
    ∃ k, fuel = k + 1 ∧ (file ∈ s.loaded ∨ file ∉ s.loaded ∧ file ∉ s.loading ∧
      ((Skipped find file ∧ importer.isSome) ∨ ∃ f, fileAt find file = some f)) := by
  cases fuel with
  | zero =>
    obtain ⟨_, _, -, h⟩ := bind_eq_ok.mp h
    cases h
  | succ k =>
    refine ⟨k, rfl, ?_⟩
    by_cases hl : file ∈ s.loaded
    · exact .inl hl
    have hcl : ¬ s.loaded.contains file = true := by simpa using hl
    have hg : file ∉ s.loading := by
      intro hg
      have hcg : s.loading.contains file = true := by simpa using hg
      unfold load at h
      rw [bind_of_ok (show (get : Load Loader) s = .ok s s from rfl), if_neg hcl, if_pos hcg] at h
      cases h
    refine .inr ⟨hl, hg, ?_⟩
    rw [load_fresh hl hg] at h
    obtain ⟨text, s₁, hread, h⟩ := bind_eq_ok.mp h
    cases hfind : find file with
    | none =>
      refine .inl ?_
      unfold readFile at hread
      cases importer with
      | none =>
        simp only [hfind] at hread
        cases hread
      | some i =>
        by_cases hw : Text.startsWith file wellKnown = true
        · exact ⟨⟨hfind, hw⟩, rfl⟩
        · simp only [hfind, hw] at hread
          cases hread
    | some text' =>
      refine .inr ?_
      obtain rfl : some text' = text := by
        unfold readFile at hread
        simp only [hfind] at hread
        cases hread
        rfl
      rw [loadText] at h
      obtain ⟨_, _, -, h⟩ := bind_eq_ok.mp h
      obtain ⟨_, _, -, h⟩ := bind_eq_ok.mp h
      obtain ⟨parsed, _, hparse, -⟩ := bind_eq_ok.mp h
      obtain ⟨hparse, -⟩ := ofParse_eq_ok hparse
      refine ⟨.ofParsed file text' parsed, ?_⟩
      rw [fileAt, hfind, Option.bind_some, SchemaFile.ofText, hparse]
      rfl

/-! ## What a load leaves -/

/-- A load entered the files `more`, which were not being loaded, and kept a condition on the files. -/
structure Loads (kept : List SchemaFile → Prop) (s : Loader) (files : List SchemaFile) (s' : Loader)
    (more : List SchemaFile) : Prop where
  holds : s'.Holds (files ++ more)
  keeps : kept (files ++ more)
  loading : s'.loading = s.loading
  outside : ∀ f ∈ more, f.name ∉ s.loading

variable {kept : List SchemaFile → Prop}

omit [Source.CharacterNames] in
theorem Loads.refl (h : s.Holds files) (hk : kept files) : Loads kept s files s [] where
  holds := by rwa [List.append_nil]
  keeps := by rwa [List.append_nil]
  loading := rfl
  outside := by simp

omit [Source.CharacterNames] in
theorem Loads.trans (h : Loads kept s files s' more) (h' : Loads kept s' (files ++ more) s'' more') :
    Loads kept s files s'' (more ++ more') where
  holds := by
    rw [← List.append_assoc]
    exact h'.holds
  keeps := by
    rw [← List.append_assoc]
    exact h'.keeps
  loading := h'.loading.trans h.loading
  outside f hf := by
    rcases List.mem_append.mp hf with hf | hf
    · exact h.outside f hf
    · rw [← h.loading]
      exact h'.outside f hf

omit [Source.CharacterNames] in
/-- A loop of loads. `key` is the file of a round, and `absent` says that it need not be there. -/
theorem loop_sound {β : Type} {body : β → Load Unit} {key : β → String} {absent : β → Prop}
    (hbody : ∀ x {u : Unit} {s s' : Loader} {files : List SchemaFile}, s.Holds files → kept files →
      body x s = .ok u s' → ∃ more, Loads kept s files s' more ∧
        (key x ∈ (files ++ more).map (·.name) ∨ absent x)) :
    ∀ (xs : List β) {u : Unit} {s s' : Loader} {files : List SchemaFile}, s.Holds files → kept files →
      (forIn xs () fun x _ => do body x; pure (.yield ()) : Load Unit) s = .ok u s' →
      ∃ more, Loads kept s files s' more ∧ ∀ x ∈ xs, key x ∈ (files ++ more).map (·.name) ∨ absent x
  | [], u, s, s', files, h, ho, hr => by
    cases hr
    exact ⟨[], .refl h ho, by simp⟩
  | x :: xs, u, s, s', files, h, ho, hr => by
    rw [List.forIn_cons] at hr
    obtain ⟨step, s₁, hx, hr⟩ := bind_eq_ok.mp hr
    obtain ⟨_, s₂, hx, hstep⟩ := bind_eq_ok.mp hx
    cases hstep
    obtain ⟨more, hloads, hkey⟩ := hbody x h ho hx
    obtain ⟨more', hloads', hkeys⟩ := loop_sound hbody xs hloads.holds hloads.keeps hr
    refine ⟨more ++ more', hloads.trans hloads', ?_⟩
    rw [← List.append_assoc]
    refine List.forall_mem_cons.mpr ⟨hkey.imp_left fun hin => ?_, hkeys⟩
    rw [List.map_append]
    exact List.mem_append_left _ hin

omit [Source.CharacterNames] in
/-- A file that is being loaded is not among those that its imports brought. -/
theorem Loads.notMem_of_opened (h : Loads kept (opened s file) files s' more) (hs : s.Holds files)
    (hl : file ∉ s.loaded) : file ∉ (files ++ more).map (·.name) := by
  rw [List.map_append, List.mem_append, ← hs.loaded]
  rintro (hin | hin)
  · exact hl hin
  · obtain ⟨f', hf', he⟩ := List.mem_map.mp hin
    exact h.outside f' hf' (by simp [he, opened])

/-- A condition on files is kept when a file is entered that was read, that can be entered after those before it,
and whose imports are among these. -/
def Keeps (find : String → Option String) (kept : List SchemaFile → Prop) : Prop :=
  ∀ {files : List SchemaFile} {f : SchemaFile}, kept files → fileAt find f.name = some f →
    f.name ∉ files.map (·.name) → f.Valid → (∀ f' ∈ files, f.Apart f') →
    (∀ i ∈ f.imports, i ∈ files.map (·.name) ∨ Skipped find i) → kept (files ++ [f])

/-- The file of a successful load is loaded then, or it was to be skipped, and all that it needs was
entered before it. -/
theorem load_keeps (hkeeps : Keeps find kept) : ∀ {fuel : Nat} {file : String} {importer : Option String} {u : Unit}
    {s s' : Loader} {files : List SchemaFile}, s.Holds files → kept files →
    load find fuel file importer s = .ok u s' → ∃ more, Loads kept s files s' more ∧
      (file ∈ (files ++ more).map (·.name) ∨ Skipped find file ∧ importer.isSome) := by
  intro fuel
  induction fuel with
  | zero =>
    intro file importer u s s' files h ho hr
    obtain ⟨k, hk, -⟩ := load_cases hr
    cases hk
  | succ fuel ih =>
    intro file importer u s s' files h ho hr
    obtain ⟨k, hk, hcases⟩ := load_cases hr
    cases hk
    rcases hcases with hl | ⟨hl, hg, hskip | ⟨f, hf⟩⟩
    · rw [load_loaded hl] at hr
      cases hr
      refine ⟨[], .refl h ho, .inl ?_⟩
      rw [List.append_nil, ← h.loaded]
      exact hl
    · obtain ⟨i, rfl⟩ := Option.isSome_iff_exists.mp hskip.2
      obtain ⟨s₁, hrun, hgraph, hloaded, hloading⟩ := @load_skipped _ find s fuel file i hl hg hskip.1
      rw [hrun] at hr
      cases hr
      exact ⟨[], ⟨by simpa using h.congr hgraph hloaded, by simpa using ho, hloading, by simp⟩, .inr hskip⟩
    · rw [load_read hl hg hf] at hr
      obtain ⟨_, s₁, himports, henter⟩ := bind_eq_ok.mp hr
      have hopened : (opened s file).Holds files := h.congr rfl rfl
      obtain ⟨more, hloads, hall⟩ := loop_sound (fun i _ _ _ _ hs hos hload => ih hs hos hload) f.imports
        hopened ho himports
      have hname : f.name = file := fileAt_name hf
      have hnew : f.name ∉ (files ++ more).map (·.name) := hname ▸ hloads.notMem_of_opened h hl
      obtain ⟨⟨hvalid, hapart⟩, hholds, hloading⟩ := (enter_succeeds hloads.holds hnew).only henter
      refine ⟨more ++ [f], ⟨?_, ?_, ?_, ?_⟩, .inl ?_⟩
      · rw [← List.append_assoc]
        exact hholds
      · rw [← List.append_assoc]
        exact hkeeps hloads.keeps (hname ▸ hf) hnew hvalid hapart fun i hi => (hall i hi).imp_right And.left
      · rw [hloading, hloads.loading]
        simp [opened]
      · intro f' hf' hin
        rcases List.mem_append.mp hf' with hf' | hf'
        · exact hloads.outside f' hf' (List.mem_append_left _ hin)
        · obtain rfl := List.mem_singleton.mp hf'
          exact hg (hname ▸ hin)
      · simp [hname]

/-- Files in order stay so. -/
theorem load_sound {u : Unit} (h : s.Holds files) (ho : Ordered find files)
    (hr : load find fuel file importer s = .ok u s') : ∃ more, Loads (Ordered find) s files s' more ∧
      (file ∈ (files ++ more).map (·.name) ∨ Skipped find file ∧ importer.isSome) :=
  load_keeps .snoc h ho hr

end Load

/-! ## Orders -/

namespace Ordered

theorem names_nodup (h : Ordered find files) : (files.map (·.name)).Nodup := by
  induction h with
  | nil => exact List.nodup_nil
  | @snoc files f before read new valid apart imports ih =>
    rw [List.map_append, List.nodup_append]
    refine ⟨ih, by simp, fun a ha b hb he => new ?_⟩
    obtain rfl : b = f.name := by simpa using hb
    exact he ▸ ha

theorem read (h : Ordered find files) : ∀ f ∈ files, fileAt find f.name = some f ∧ f.Valid := by
  induction h with
  | nil => simp
  | @snoc files f before read new valid apart imports ih =>
    intro f' hf'
    rcases List.mem_append.mp hf' with hf' | hf'
    · exact ih f' hf'
    · obtain rfl := List.mem_singleton.mp hf'
      exact ⟨read, valid⟩

theorem pairwise (h : Ordered find files) : files.Pairwise SchemaFile.Apart := by
  induction h with
  | nil => exact .nil
  | @snoc files f before read new valid apart imports ih =>
    rw [List.pairwise_append]
    refine ⟨ih, by simp, fun a ha b hb => ?_⟩
    obtain rfl := List.mem_singleton.mp hb
    exact (apart a ha).symm

instance : Std.Symm SchemaFile.Apart := ⟨fun _ _ h => h.symm⟩

theorem apart (h : Ordered find files) {f f' : SchemaFile} (hf : f ∈ files) (hf' : f' ∈ files) (hne : f ≠ f') :
    f.Apart f' :=
  h.pairwise.forall hf hf' hne

/-- A file of an order is read as it stands there. -/
theorem present (h : Ordered find files) {name : String} (hname : name ∈ files.map (·.name)) :
    ∃ f ∈ files, f.name = name ∧ fileAt find name = some f := by
  obtain ⟨f, hf, rfl⟩ := List.mem_map.mp hname
  exact ⟨f, hf, rfl, (h.read f hf).1⟩

/-- A file of an order is apart from other files of it that were read. -/
theorem apart_of_read (h : Ordered find files) (hf : f ∈ files) (ho : Ordered find more)
    (hin : ∀ f' ∈ more, f'.name ∈ files.map (·.name)) (hnew : f.name ∉ more.map (·.name)) :
    ∀ f' ∈ more, f.Apart f' := by
  intro f' hf'
  obtain ⟨t, ht, -, hread⟩ := h.present (hin f' hf')
  rw [(ho.read f' hf').1, Option.some.injEq] at hread
  refine h.apart hf (hread ▸ ht) fun he => hnew ?_
  rw [he]
  exact List.mem_map_of_mem hf'

/-- The imports of a file stand before it. -/
theorem import_lt (h : Ordered find files) : ∀ f ∈ files, ∀ i ∈ f.imports,
    (i ∈ files.map (·.name) ∧ (files.map (·.name)).idxOf i < (files.map (·.name)).idxOf f.name) ∨
      Skipped find i := by
  induction h with
  | nil => simp
  | @snoc files f before read new valid apart imports ih =>
    intro f' hf' i hi
    rw [List.map_append]
    rcases List.mem_append.mp hf' with hf' | hf'
    · refine (ih f' hf' i hi).imp_left fun hlt => ⟨List.mem_append_left _ hlt.1, ?_⟩
      rw [List.idxOf_append_of_mem hlt.1, List.idxOf_append_of_mem (List.mem_map_of_mem hf')]
      exact hlt.2
    · obtain rfl := List.mem_singleton.mp hf'
      refine (imports i hi).imp_left fun hin => ⟨List.mem_append_left _ hin, ?_⟩
      rw [List.idxOf_append_of_mem hin, List.idxOf_append_of_notMem new]
      exact Nat.lt_of_lt_of_le (List.idxOf_lt_length_of_mem hin) (Nat.le_add_right _ _)

end Ordered

namespace Load

variable {target : List SchemaFile}

/-- The place of a file in an order. -/
def rank (target : List SchemaFile) (name : String) : Nat := (target.map (·.name)).idxOf name

/-- A load goes on: it has fuel, and nothing that is being loaded stands before the file. -/
structure Ready (find : String → Option String) (target : List SchemaFile) (s : Loader) (fuel : Nat)
    (file : String) : Prop where
  loaded : ∀ name ∈ s.loaded, name ∈ target.map (·.name)
  loading : ∀ name ∈ s.loading, name ∈ target.map (·.name)
  way : (file ∈ target.map (·.name) ∧ rank target file + 2 ≤ fuel ∧
      ∀ name ∈ s.loading, rank target file < rank target name) ∨ Skipped find file ∧ 1 ≤ fuel

/-- A loop of loads that all succeed. -/
theorem loop_complete {β : Type} {body : β → Load Unit} {key : β → String} {absent : β → Prop}
    {loading : List String} (hsound : ∀ x {u : Unit} {s s' : Loader} {files : List SchemaFile}, s.Holds files →
      Ordered find files → body x s = .ok u s' → ∃ more, Loads (Ordered find) s files s' more ∧
        (key x ∈ (files ++ more).map (·.name) ∨ absent x)) :
    ∀ (xs : List β), (∀ x ∈ xs, ∀ {s : Loader} {files : List SchemaFile}, s.Holds files → Ordered find files →
        (∀ name ∈ s.loaded, name ∈ target.map (·.name)) → s.loading = loading →
        ∃ s', body x s = .ok () s' ∧ ∀ name ∈ s'.loaded, name ∈ target.map (·.name)) →
      ∀ {s : Loader} {files : List SchemaFile}, s.Holds files → Ordered find files →
        (∀ name ∈ s.loaded, name ∈ target.map (·.name)) → s.loading = loading →
        ∃ s', (forIn xs () fun x _ => do body x; pure (.yield ()) : Load Unit) s = .ok () s' ∧
          ∀ name ∈ s'.loaded, name ∈ target.map (·.name)
  | [], _, s, files, h, ho, hin, hl => ⟨s, rfl, hin⟩
  | x :: xs, hbody, s, files, h, ho, hin, hl => by
    obtain ⟨s₁, hrun, hin₁⟩ := hbody x (by simp) h ho hin hl
    obtain ⟨more, hloads, -⟩ := hsound x h ho hrun
    obtain ⟨s₂, hrest, hin₂⟩ := loop_complete hsound xs (fun y hy => hbody y (by simp [hy])) hloads.holds
      hloads.keeps hin₁ (hloads.loading.trans hl)
    refine ⟨s₂, ?_, hin₂⟩
    rw [List.forIn_cons]
    have hround : (do body x; pure (ForInStep.yield ()) : Load (ForInStep Unit)) s = .ok (.yield ()) s₁ :=
      bind_eq_ok.mpr ⟨(), s₁, hrun, rfl⟩
    rw [bind_of_ok hround]
    exact hrest

/-- The load of a file that is in the order can go on to its imports. -/
theorem Ready.of_import (ht : Ordered find target) {fuel : Nat} {s s₁ : Loader} (hf : f ∈ target)
    (h : Ready find target s (fuel + 1) f.name) (hfuel : rank target f.name + 2 ≤ fuel + 1)
    (hway : ∀ name ∈ s.loading, rank target f.name < rank target name) {i : String} (hi : i ∈ f.imports)
    (hloaded : ∀ name ∈ s₁.loaded, name ∈ target.map (·.name)) (hloading : s₁.loading = s.loading ++ [f.name]) :
    Ready find target s₁ fuel i where
  loaded := hloaded
  loading := by
    rw [hloading, List.forall_mem_append]
    exact ⟨h.loading, fun name hname => List.mem_singleton.mp hname ▸ List.mem_map_of_mem hf⟩
  way := by
    rw [hloading]
    refine (ht.import_lt f hf i hi).imp (fun hlt => ⟨hlt.1, ?_, ?_⟩) fun hskip => ⟨hskip, by omega⟩
    · have : rank target i < rank target f.name := hlt.2
      omega
    · rw [List.forall_mem_append]
      refine ⟨fun name hname => Nat.lt_trans hlt.2 (hway name hname), fun name hname => ?_⟩
      rw [List.mem_singleton.mp hname]
      exact hlt.2

/-- **Where all files have an order, every load succeeds.** -/
theorem load_complete (ht : Ordered find target) : ∀ {fuel : Nat} {file : String} {importer : Option String}
    {s : Loader} {files : List SchemaFile}, s.Holds files → Ordered find files → Ready find target s fuel file →
    (Skipped find file → importer.isSome) →
    ∃ s', load find fuel file importer s = .ok () s' ∧ ∀ name ∈ s'.loaded, name ∈ target.map (·.name) := by
  intro fuel
  induction fuel with
  | zero =>
    intro file importer s files h ho hready hskip
    rcases hready.way with hway | hway <;> omega
  | succ fuel ih =>
    intro file importer s files h ho hready hskip
    by_cases hl : file ∈ s.loaded
    · exact ⟨s, load_loaded hl, hready.loaded⟩
    rcases hready.way with ⟨hin, hfuel, hway⟩ | ⟨hskipped, -⟩
    · -- The file has a text: its imports stand before it, and before all that is being loaded.
      have hg : file ∉ s.loading := fun hg => Nat.lt_irrefl _ (hway file hg)
      obtain ⟨f, hf, rfl, hread⟩ := ht.present hin
      have hopened : (opened s f.name).Holds files := h.congr rfl rfl
      have hsound : ∀ i {u : Unit} {s s' : Loader} {files : List SchemaFile}, s.Holds files → Ordered find files →
          load find fuel i (some f.name) s = .ok u s' → ∃ more, Loads (Ordered find) s files s' more ∧
            (i ∈ (files ++ more).map (·.name) ∨ Skipped find i ∧ (some f.name).isSome) :=
        fun i _ _ _ _ hs hos hload => load_sound hs hos hload
      obtain ⟨s₁, himports, hin₁⟩ : ∃ s₁, loadImports find fuel f (opened s f.name) = .ok () s₁ ∧
          ∀ name ∈ s₁.loaded, name ∈ target.map (·.name) := by
        refine loop_complete hsound f.imports (fun i hi s₂ files₂ h₂ ho₂ hin₂ hl₂ => ?_) hopened ho hready.loaded rfl
        exact ih h₂ ho₂ (hready.of_import ht hf hfuel hway hi hin₂ hl₂) fun _ => rfl
      obtain ⟨more, hloads, -⟩ := loop_sound hsound f.imports hopened ho himports
      have hnew : f.name ∉ (files ++ more).map (·.name) := hloads.notMem_of_opened h hl
      -- What was loaded is in the order too, so the file is apart from it.
      have hapart := ht.apart_of_read hf hloads.keeps
        (fun f' hf' => hin₁ f'.name (hloads.holds.loaded ▸ List.mem_map_of_mem hf')) hnew
      obtain ⟨_, s₂, henter⟩ := (enter_succeeds hloads.holds hnew).run ⟨(ht.read f hf).2, hapart⟩
      refine ⟨s₂, ?_, ?_⟩
      · rw [load_read hl hg hread, bind_of_ok himports]
        exact henter
      · have hholds := ((enter_succeeds hloads.holds hnew).only henter).2.1
        rw [hholds.loaded, List.map_append, ← hloads.holds.loaded, List.forall_mem_append]
        exact ⟨hin₁, fun name hname => List.mem_singleton.mp hname ▸ hin⟩
    · -- Nothing that is being loaded is to be skipped, for it was read.
      have hg : file ∉ s.loading := by
        intro hg
        obtain ⟨f, -, -, hread⟩ := ht.present (hready.loading file hg)
        rw [fileAt, hskipped.1] at hread
        cases hread
      obtain ⟨i, rfl⟩ := Option.isSome_iff_exists.mp (hskip hskipped)
      obtain ⟨s₁, hrun, -, hloaded, -⟩ := @load_skipped _ find s fuel file i hl hg hskipped
      exact ⟨s₁, hrun, hloaded ▸ hready.loaded⟩

/-! ## All sources -/

/-- The text of a file among the sources. -/
def textOf (sources : Sources) (file : String) : Option String := (sourceMap sources).lookup file

/-- Loads every source in order. -/
def loadEach (sources : Sources) : Load Unit :=
  forIn (sourceMap sources) () fun p _ => do
    loadOne sources p.1
    pure (.yield ())

theorem loadSources_eq (sources : Sources) : loadSources sources = (do loadEach sources; finish) := rfl

omit [Source.CharacterNames] in
theorem loadFuel_ge (sources : Sources) : sources.length + 2 ≤ loadFuel sources := by
  have hfold : ∀ (rest : Sources) (n : Nat), n ≤ rest.foldl (fun n s => n + s.2.length) n := by
    intro rest
    induction rest with
    | nil => exact fun n => Nat.le_refl n
    | cons s rest ih => exact fun n => Nat.le_trans (Nat.le_add_right _ _) (ih _)
  exact hfold sources _

theorem loadOne_sound (sources : Sources) (p : String × String) {u : Unit} {s s' : Loader}
    {files : List SchemaFile} (h : s.Holds files) (ho : Ordered (textOf sources) files)
    (hr : loadOne sources p.1 s = .ok u s') : ∃ more, Loads (Ordered (textOf sources)) s files s' more ∧
      (p.1 ∈ (files ++ more).map (·.name) ∨ False) := by
  obtain ⟨more, hloads, hin⟩ := load_sound h ho hr
  refine ⟨more, hloads, hin.imp_right ?_⟩
  rintro ⟨-, hnone⟩
  cases hnone

/-- The files of the sources are those that are loaded. -/
theorem loadEach_sound {sources : Sources} {u : Unit} (hr : loadEach sources .empty = .ok u s) :
    ∃ files, s.Holds files ∧ Ordered (textOf sources) files ∧
      ∀ p ∈ sourceMap sources, p.1 ∈ files.map (·.name) := by
  obtain ⟨files, hloads, hall⟩ := loop_sound (loadOne_sound sources) (sourceMap sources) holds_empty .nil hr
  exact ⟨files, hloads.holds, hloads.keeps, fun p hp => (hall p hp).resolve_right id⟩

/-- **The sources can be loaded exactly when their files have an order.** -/
theorem loadEach_iff (sources : Sources) : (∃ s, loadEach sources .empty = .ok () s) ↔
    ∃ target, Ordered (textOf sources) target ∧ ∀ p ∈ sourceMap sources, p.1 ∈ target.map (·.name) := by
  constructor
  · rintro ⟨s, hr⟩
    obtain ⟨files, -, ho, hall⟩ := loadEach_sound hr
    exact ⟨files, ho, hall⟩
  · rintro ⟨target, ht, hall⟩
    have hlength : target.length ≤ sources.length := by
      have hsub : (target.map (·.name)).Subset (sources.map (·.1)) := by
        intro name hname
        obtain ⟨f, hf, rfl⟩ := List.mem_map.mp hname
        obtain ⟨text, htext, -⟩ := Option.bind_eq_some_iff.mp (ht.read f hf).1
        exact List.mem_map_of_mem (f := (·.1)) (Entries.mem_ofList (Entries.mem_of_lookup htext))
      simpa using (List.Nodup.subperm ht.names_nodup hsub).length_le
    have hfuel := loadFuel_ge sources
    have hbody : ∀ p ∈ sourceMap sources, ∀ {s : Loader} {files : List SchemaFile}, s.Holds files →
        Ordered (textOf sources) files → (∀ name ∈ s.loaded, name ∈ target.map (·.name)) → s.loading = [] →
        ∃ s', loadOne sources p.1 s = .ok () s' ∧ ∀ name ∈ s'.loaded, name ∈ target.map (·.name) := by
      intro p hp s files h ho hin hl
      have hmem := hall p hp
      refine load_complete ht h ho ⟨hin, by simp [hl], .inl ⟨hmem, ?_, by simp [hl]⟩⟩ ?_
      · have hlt : rank target p.1 < (target.map (·.name)).length := List.idxOf_lt_length_of_mem hmem
        rw [List.length_map] at hlt
        omega
      · rintro ⟨hnone, -⟩
        exact absurd (List.mem_map_of_mem hp) (Entries.lookup_eq_none_iff.mp hnone)
    obtain ⟨s, hs, -⟩ := loop_complete (loadOne_sound sources) (sourceMap sources) hbody holds_empty .nil
      (fun name hname => nomatch hname) rfl
    exact ⟨s, hs⟩

end Load

end ProtoBind.Schema
