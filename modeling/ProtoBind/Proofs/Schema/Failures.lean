/-
How loads fail.

A file is taken off the files being loaded only when it is loaded. So when a
load fails, the files on the way of imports to the fault are still being
loaded (`load_ends`), and further calls of the same loader take them for the
way to their own file. A cycle that such a call reports may then end in a
file that an earlier call left (`Calls.cycles`); only while no call has
failed the imports of the files have the cycle that is reported.
-/
import Mathlib.Data.List.Chain
import ProtoBind.Proofs.Schema.LoadOrder
import ProtoBind.Proofs.Schema.Steady
import ProtoBind.Proofs.Source.Layout

namespace ProtoBind.Schema

open Schema.Graph Load
open Relation (TransGen)

variable {find : String → Option String} {s s' : Loader} {fuel : Nat} {file i name text : String}
  {importer : Option String} {loading stack way : List String} {e : LoadFault} {f : SchemaFile}

section Names

variable [Source.CharacterNames]

/-! ## Ways of imports -/

/-- More fuel than there are files on any way of imports that does not come back to one of them. -/
def Ample (find : String → Option String) (fuel : Nat) : Prop :=
  ∀ way : List String, way.Nodup → way.IsChain (Imports find) → (∀ x ∈ way, (find x).isSome) → way.length < fuel

/-- More fuel than there are files on a way from a file that meets none of those being loaded. -/
structure Enough (find : String → Option String) (loading : List String) (file : String) (fuel : Nat) : Prop where
  pos : 0 < fuel
  way : ∀ l : List String, (file :: l).Nodup → (file :: l).IsChain (Imports find) →
    (∀ x ∈ file :: l, (find x).isSome ∧ x ∉ loading) → l.length + 1 < fuel

theorem Ample.pos (h : Ample find fuel) : 0 < fuel := h [] List.nodup_nil .nil (by simp)

theorem Ample.enough (h : Ample find fuel) : Enough find loading file fuel where
  pos := h.pos
  way l hl hchain hfound := h (file :: l) hl hchain fun x hx => (hfound x hx).1

/-- One unit of fuel pays for one file. -/
theorem Enough.next (h : Enough find loading file (fuel + 1)) (hf : fileAt find file = some f) (hi : i ∈ f.imports)
    (hfound : (find file).isSome) (hnew : file ∉ loading) : Enough find (loading ++ [file]) i fuel where
  pos := by
    have := h.way [] (List.nodup_singleton file) (.singleton file) (by simpa using ⟨hfound, hnew⟩)
    simpa using this
  way l hl hchain hin := by
    have hfresh : file ∉ i :: l := fun hmem => (hin file hmem).2 (by simp)
    have himports : Imports find file i := ⟨f, hf, hi, (hin i List.mem_cons_self).1⟩
    have hlength := h.way (i :: l) (List.nodup_cons.mpr ⟨hfresh, hl⟩)
      (List.isChain_cons_cons.mpr ⟨himports, hchain⟩) <| List.forall_mem_cons.mpr
      ⟨⟨hfound, hnew⟩, fun x hx => ⟨(hin x hx).1, fun hmem => (hin x hx).2 (List.mem_append_left _ hmem)⟩⟩
    rw [List.length_cons] at hlength
    omega

/-- Files of which each imports the next, the first of them `file`. -/
structure Way (find : String → Option String) (file : String) (way : List String) : Prop where
  head : ∀ x ∈ way.head?, x = file
  chain : way.IsChain (Imports find)

theorem Way.nil : Way find file [] := ⟨by simp, .nil⟩

theorem Way.singleton : Way find file [file] := ⟨by simp, .singleton file⟩

theorem Way.cons (h : Way find i way) (hf : fileAt find file = some f) (hi : i ∈ f.imports)
    (hfound : ∀ x ∈ way.head?, (find x).isSome) : Way find file (file :: way) where
  head x hx := (Option.some.inj hx).symm
  chain := List.isChain_cons.mpr ⟨fun x hx => by
    have hfind := hfound x hx
    obtain rfl := h.head x hx
    exact ⟨f, hf, hi, hfind⟩, h.chain⟩

/-- A way that comes back to one of its files is a cycle of imports. -/
theorem Way.transGen (h : Way find file (way ++ [name])) (hname : name ∈ way) : TransGen (Imports find) name name := by
  obtain ⟨before, after, rfl⟩ := List.append_of_mem hname
  have hback : (name :: (after ++ [name])).IsChain (Imports find) := h.chain.infix ⟨before, [], by simp⟩
  obtain ⟨x, rest, hrest⟩ := List.exists_cons_of_ne_nil (List.concat_ne_nil name after)
  have hlast : (x :: rest).getLast (List.cons_ne_nil x rest) = name := by simp only [← hrest, List.getLast_concat]
  rw [hrest, List.isChain_cons_cons] at hback
  exact TransGen.head' hback.1 (List.relationReflTransGen_of_exists_isChain_cons rest hback.2 hlast)

/-! ## What a load leaves -/

/-- What a loader keeps however loads end: its graph is well formed, and the files being loaded have texts and are not
loaded. -/
structure Standing (find : String → Option String) (s : Loader) : Prop where
  shaped : s.graph.Shaped
  found : ∀ x ∈ s.loading, (find x).isSome
  unloaded : ∀ x ∈ s.loading, x ∉ s.loaded

omit [Source.CharacterNames] in
theorem standing_empty : Standing find .empty where
  shaped := empty_formed.toShaped
  found x hx := by cases hx
  unloaded x hx := by cases hx

omit [Source.CharacterNames] in
theorem Standing.opened (h : Standing find s) (hfound : (find file).isSome) (hl : file ∉ s.loaded) :
    Standing find (opened s file) where
  shaped := h.shaped
  found := List.forall_mem_append.mpr ⟨h.found, by simpa using hfound⟩
  unloaded := List.forall_mem_append.mpr ⟨h.unloaded, fun x hx => List.mem_singleton.mp hx ▸ hl⟩

/-- The last file of a way has a declaration that asks for the text of a number that is too long. -/
def OverlongAt (find : String → Option String) (way : List String) : Prop :=
  ∃ name f, way.getLast? = some name ∧ fileAt find name = some f ∧ ∃ d ∈ f.decls, DeclOverlong d

/-- Why a load of a file fails. `stack` are the files that are being loaded then, and the last of them are those of the
way from the file on. -/
inductive Cause (find : String → Option String) (file : String) (stack way : List String) : LoadFault → Prop
  | misplaced {name text : String} {fault : Source.SyntaxFault} (last : way.getLast? = some name)
      (read : find name = some text) (parse : Source.parse text = .error (.misplaced fault)) :
      Cause find file stack way (.misplaced name fault)
  | literal {name text : String} {fault : Source.LiteralFault} (last : way.getLast? = some name)
      (read : find name = some text) (parse : Source.parse text = .error (.literal fault)) :
      Cause find file stack way (.literal fault)
  | missingFile {name : String} {importer : Option String} (missing : find name = none) :
      Cause find file stack way (.missingFile name importer)
  | taken {e : LoadFault} (taken : Taken (OverlongAt find way) e) : Cause find file stack way e
  | cycle {name : String} (back : Way find file (way ++ [name])) (again : name ∈ stack) :
      Cause find file stack way (.cycle (stack ++ [name]))

/-- What a load of a file that fails leaves: the files that it was loading are still being loaded. -/
structure Fails (find : String → Option String) (file : String) (loading : List String) (e : LoadFault) (s' : Loader) :
    Prop where
  standing : Standing find s'
  left : ∃ way, s'.loading = loading ++ way ∧ Way find file way ∧ Cause find file s'.loading way e

/-- The load of an import failed: so does that of the file. -/
theorem Fails.of_import (h : Fails find i (loading ++ [file]) e s') (hf : fileAt find file = some f)
    (hi : i ∈ f.imports) : Fails find file loading e s' := by
  obtain ⟨way, hleft, hway, hcause⟩ := h.left
  have hfound : ∀ x ∈ way.head?, (find x).isSome := fun x hx =>
    h.standing.found x (hleft ▸ List.mem_append_right _ (List.mem_of_mem_head? hx))
  have hlast {name : String} (hlast : way.getLast? = some name) : (file :: way).getLast? = some name := by
    rw [List.getLast?_cons, hlast]
    rfl
  refine ⟨h.standing, file :: way, by simpa using hleft, hway.cons hf hi hfound, ?_⟩
  cases hcause with
  | misplaced last read parse => exact .misplaced (hlast last) read parse
  | literal last read parse => exact .literal (hlast last) read parse
  | missingFile missing => exact .missingFile missing
  | taken taken => exact .taken (taken.mono fun ⟨name, g, last, hrest⟩ => ⟨name, g, hlast last, hrest⟩)
  | @cycle name back again =>
    refine .cycle (back.cons hf hi fun x hx => ?_) again
    cases way with
    | nil =>
      obtain rfl := Option.some.inj hx
      exact h.standing.found _ again
    | cons y way => exact hfound x hx

namespace Load

/-- A load ends with the files being loaded that were so before, or it fails. -/
structure Ends (find : String → Option String) (x : Load Unit) (file : String) (loading : List String) (s : Loader) :
    Prop where
  ok : ∀ {u s'}, x s = .ok u s' → Standing find s' ∧ s'.loading = loading
  error : ∀ {e s'}, x s = .error e s' → Fails find file loading e s'

theorem Ends.of_ok (hs : Standing find s') (hl : s'.loading = loading) {x : Load Unit} (hx : x s = .ok () s') :
    Ends find x file loading s where
  ok hr := by
    rw [hx] at hr
    cases hr
    exact ⟨hs, hl⟩
  error hr := by
    rw [hx] at hr
    cases hr

theorem Ends.of_error (hfails : Fails find file loading e s') {x : Load Unit} (hx : x s = .error e s') :
    Ends find x file loading s where
  ok hr := by
    rw [hx] at hr
    cases hr
  error hr := by
    rw [hx] at hr
    cases hr
    exact hfails

/-- A file that is being loaded is not loaded again. -/
theorem load_again (hl : file ∉ s.loaded) (hg : file ∈ s.loading) :
    load find (fuel + 1) file importer s = .error (.cycle (s.loading ++ [file])) s := by
  have hcl : ¬ s.loaded.contains file = true := by simpa using hl
  have hcg : s.loading.contains file = true := by simpa using hg
  unfold load
  rw [bind_of_ok (show (get : Load Loader) s = .ok s s from rfl), if_neg hcl, if_pos hcg]
  rfl

/-- A file that has no text is skipped or missed. -/
theorem load_absent (hs : Standing find s) (hl : file ∉ s.loaded) (hg : file ∉ s.loading) (hfind : find file = none) :
    Ends find (load find (fuel + 1) file importer) file s.loading s := by
  have hmissing : readFile find file importer s = .error (.missingFile file importer) s →
      Ends find (load find (fuel + 1) file importer) file s.loading s := by
    intro hread
    have hrun : load find (fuel + 1) file importer s = .error (.missingFile file importer) s := by
      rw [load_fresh hl hg]
      exact bind_eq_error.mpr (.inl hread)
    exact .of_error ⟨hs, [], by simp, .nil, .missingFile hfind⟩ hrun
  cases importer with
  | none =>
    refine hmissing ?_
    unfold readFile
    simp only [hfind]
    rfl
  | some i =>
    by_cases hw : Text.startsWith file wellKnown = true
    · obtain ⟨s', hrun, hgraph, hloaded, hloading⟩ := @load_skipped _ find s fuel file i hl hg ⟨hfind, hw⟩
      refine .of_ok ⟨hgraph ▸ hs.shaped, ?_, ?_⟩ hloading hrun
      · rw [hloading]
        exact hs.found
      · rw [hloading, hloaded]
        exact hs.unloaded
    · refine hmissing ?_
      unfold readFile
      simp only [hfind, hw]
      rfl

/-- A file whose text is no schema stays among those being loaded. -/
theorem load_unparsed (hl : file ∉ s.loaded) (hg : file ∉ s.loading) (hfind : find file = some text)
    (hparse : ofParse file (Source.parse text) (opened s file) = .error e (opened s file)) :
    load find (fuel + 1) file importer s = .error e (opened s file) := by
  have hread : readFile find file importer s = .ok (some text) s := by
    unfold readFile
    simp only [hfind]
    rfl
  have hreport : report ("Loading " ++ file) s =
      .ok () { s with log := s.log ++ ["[PWLOAD DEBUG] " ++ ("Loading " ++ file)] } := rfl
  have hopen : (modify fun s => { s with loading := s.loading ++ [file] } : Load Unit)
      { s with log := s.log ++ ["[PWLOAD DEBUG] " ++ ("Loading " ++ file)] } = .ok () (opened s file) := rfl
  rw [load_fresh hl hg, bind_of_ok hread, loadText, bind_of_ok hreport, bind_of_ok hopen]
  exact bind_eq_error.mpr (.inl hparse)

/-- The imports of a file are loaded one after the other. -/
theorem forIn_ends {body : String → Load Unit} (hf : fileAt find file = some f)
    (hbody : ∀ i ∈ f.imports, ∀ s₁, Standing find s₁ → s₁.loading = loading ++ [file] →
      Ends find (body i) i (loading ++ [file]) s₁) :
    ∀ {xs : List String} {s : Loader}, (∀ i ∈ xs, i ∈ f.imports) → Standing find s → s.loading = loading ++ [file] →
      (∀ {u s'}, (forIn xs () fun i _ => do body i; pure (.yield ()) : Load Unit) s = .ok u s' →
        Standing find s' ∧ s'.loading = loading ++ [file]) ∧
      ∀ {e s'}, (forIn xs () fun i _ => do body i; pure (.yield ()) : Load Unit) s = .error e s' →
        Fails find file loading e s'
  | [], s, _, hs, hl => by
    refine ⟨fun hr => ?_, fun hr => ?_⟩
    · cases hr
      exact ⟨hs, hl⟩
    · cases hr
  | i :: xs, s, hin, hs, hl => by
    have hi := hin i List.mem_cons_self
    have hends := hbody i hi s hs hl
    have hrest {u : Unit} {s₁ : Loader} (hrun : body i s = .ok u s₁) :=
      @forIn_ends body hf hbody xs s₁ (fun i hi => hin i (List.mem_cons_of_mem _ hi)) (hends.ok hrun).1
        (hends.ok hrun).2
    have hround {step : ForInStep Unit} {s₁ : Loader}
        (hr : (do body i; pure (.yield ()) : Load (ForInStep Unit)) s = .ok step s₁) :
        step = .yield () ∧ body i s = .ok () s₁ := by
      obtain ⟨_, _, hrun, hr⟩ := bind_eq_ok.mp hr
      cases hr
      exact ⟨rfl, hrun⟩
    simp only [List.forIn_cons]
    refine ⟨fun hr => ?_, fun hr => ?_⟩
    · obtain ⟨_, s₁, hstep, hr⟩ := bind_eq_ok.mp hr
      obtain ⟨rfl, hrun⟩ := hround hstep
      exact (hrest hrun).1 hr
    · rcases bind_eq_error.mp hr with hr | ⟨_, s₁, hstep, hr⟩
      · rcases bind_eq_error.mp hr with hr | ⟨_, _, -, hr⟩
        · exact (hends.error hr).of_import hf hi
        · cases hr
      · obtain ⟨rfl, hrun⟩ := hround hstep
        exact (hrest hrun).2 hr

/-- What is done behind the imports of a file. -/
theorem enter_ends (hs : Standing find s) (hf : fileAt find f.name = some f) (hl : s.loading = loading ++ [f.name])
    (hnew : f.name ∉ loading) : Ends find (enter f) f.name loading s := by
  have hadd := @addDeclarations_steady { s with graph := s.graph.addFile f.name } f.context (packageOf f.decls) f.decls
    (shaped_addFile hs.shaped f.name) (fileAt_proper hf)
  constructor
  · intro u s' hr
    obtain ⟨_, _, hset, hr⟩ := bind_eq_ok.mp hr
    cases hset
    obtain ⟨_, s₁, hrun, hr⟩ := bind_eq_ok.mp hr
    cases hr
    have hgrown := (hadd.ok hrun).1
    have hback : s₁.loading.dropLast = loading := by
      rw [show s₁.loading = loading ++ [f.name] from hgrown.loading.trans hl, List.dropLast_concat]
    have hin : ∀ x ∈ loading, x ∈ s.loading := fun x hx => hl ▸ List.mem_append_left _ hx
    refine ⟨⟨hgrown.shaped, fun x hx => hs.found x (hin x (hback ▸ hx)), fun x hx hmem => ?_⟩, hback⟩
    replace hx : x ∈ loading := hback ▸ hx
    rcases List.mem_append.mp hmem with hmem | hmem
    · exact hs.unloaded x (hin x hx) (hgrown.loaded ▸ hmem)
    · exact hnew (List.mem_singleton.mp hmem ▸ hx)
  · intro e s' hr
    rcases bind_eq_error.mp hr with hr | ⟨_, _, hset, hr⟩
    · cases hr
    cases hset
    rcases bind_eq_error.mp hr with hr | ⟨_, _, -, hr⟩
    · obtain ⟨hgrown, htaken⟩ := hadd.error hr
      have hloading : s'.loading = s.loading := hgrown.loading
      have hloaded : s'.loaded = s.loaded := hgrown.loaded
      refine ⟨⟨hgrown.shaped, ?_, ?_⟩, [f.name], hloading.trans hl, .singleton,
        .taken (htaken.mono fun hlong => ⟨f.name, f, rfl, hf, hlong⟩)⟩
      · rw [hloading]
        exact hs.found
      · rw [hloading, hloaded]
        exact hs.unloaded
    · cases hr

/-- A file that is a schema is loaded when its imports are and it can be entered behind them. -/
theorem load_parsed (hs : Standing find (opened s file)) (hl : file ∉ s.loaded) (hg : file ∉ s.loading)
    (hf : fileAt find file = some f) (himports : ∀ i ∈ f.imports, ∀ s₁, Standing find s₁ →
      s₁.loading = s.loading ++ [file] → Ends find (load find fuel i (some f.name)) i (s.loading ++ [file]) s₁) :
    Ends find (load find (fuel + 1) file importer) file s.loading s := by
  obtain rfl := fileAt_name hf
  obtain ⟨hok, herror⟩ := forIn_ends hf himports (fun i hi => hi) hs rfl
  have hrun := @load_read _ find f s fuel f.name importer hl hg hf
  constructor
  · intro u s' hr
    rw [hrun] at hr
    obtain ⟨_, s₁, hloads, henter⟩ := bind_eq_ok.mp hr
    obtain ⟨hs₁, hl₁⟩ := hok hloads
    exact (enter_ends hs₁ hf hl₁ hg).ok henter
  · intro e s' hr
    rw [hrun] at hr
    rcases bind_eq_error.mp hr with hloads | ⟨_, s₁, hloads, henter⟩
    · exact herror hloads
    · obtain ⟨hs₁, hl₁⟩ := hok hloads
      exact (enter_ends hs₁ hf hl₁ hg).error henter

/-- **When a load fails, the files on the way to the fault are still being loaded.** -/
theorem load_ends : ∀ {fuel : Nat} {file : String} {importer : Option String} {s : Loader}, Standing find s →
    Enough find s.loading file fuel → Ends find (load find fuel file importer) file s.loading s := by
  intro fuel
  induction fuel with
  | zero => exact fun _ henough => absurd henough.pos (Nat.lt_irrefl 0)
  | succ fuel ih =>
    intro file importer s hs henough
    by_cases hl : file ∈ s.loaded
    · exact .of_ok hs rfl (load_loaded hl)
    by_cases hg : file ∈ s.loading
    · exact .of_error ⟨hs, [], by simp, .nil, .cycle .singleton hg⟩ (load_again hl hg)
    cases hfind : find file with
    | none => exact load_absent hs hl hg hfind
    | some text =>
      have hfound : (find file).isSome := by rw [hfind]; rfl
      have hopened := hs.opened hfound hl
      cases hparse : Source.parse text with
      | error fault =>
        cases fault with
        | misplaced fault =>
          refine .of_error ⟨hopened, [file], rfl, .singleton, .misplaced rfl hfind hparse⟩ ?_
          exact load_unparsed hl hg hfind (by rw [hparse]; rfl)
        | literal fault =>
          refine .of_error ⟨hopened, [file], rfl, .singleton, .literal rfl hfind hparse⟩ ?_
          exact load_unparsed hl hg hfind (by rw [hparse]; rfl)
      | ok parsed =>
        have hf : fileAt find file = some (.ofParsed file text parsed) := by
          rw [fileAt, hfind, Option.bind_some, SchemaFile.ofText, hparse]
          rfl
        exact load_parsed hopened hl hg hf fun i hi s₁ hs₁ hl₁ =>
          hl₁ ▸ ih hs₁ (hl₁ ▸ henough.next hf hi hfound hg)

end Load

/-! ## Calls -/

/-- Calls of a loader one after the other, each with the fault that it failed with, and the loader behind them. -/
inductive Calls (find : String → Option String) (fuel : Nat) : List (String × Option LoadFault) → Loader → Prop
  | nil : Calls find fuel [] .empty
  | ok {calls : List (String × Option LoadFault)} {s s' : Loader} {file : String} (before : Calls find fuel calls s)
      (run : load find fuel file none s = .ok () s') : Calls find fuel (calls ++ [(file, none)]) s'
  | error {calls : List (String × Option LoadFault)} {s s' : Loader} {file : String} {e : LoadFault}
      (before : Calls find fuel calls s) (run : load find fuel file none s = .error e s') :
      Calls find fuel (calls ++ [(file, some e)]) s'

/-- What a call leaves among the files being loaded: the way to its fault, or nothing. -/
structure Leaves (find : String → Option String) (call : String × Option LoadFault) (left : List String) : Prop where
  way : Way find call.1 left
  ok : call.2 = none → left = []

namespace Calls

variable {calls : List (String × Option LoadFault)}

/-- The files being loaded between calls are those that the calls left. -/
theorem standing (hfuel : Ample find fuel) (h : Calls find fuel calls s) :
    Standing find s ∧ ∃ ways, s.loading = ways.flatten ∧ List.Forall₂ (Leaves find) calls ways := by
  induction h with
  | nil => exact ⟨standing_empty, [], rfl, .nil⟩
  | ok before run ih =>
    obtain ⟨hs, ways, hloading, hways⟩ := ih
    obtain ⟨hs', hsame⟩ := (load_ends hs hfuel.enough).ok run
    refine ⟨hs', ways ++ [[]], by simpa [hsame] using hloading, ?_⟩
    exact List.rel_append hways (.cons ⟨.nil, fun _ => rfl⟩ .nil)
  | error before run ih =>
    obtain ⟨hs, ways, hloading, hways⟩ := ih
    obtain ⟨hs', way, hleft, hway, -⟩ := (load_ends hs hfuel.enough).error run
    refine ⟨hs', ways ++ [way], by simp [hleft, hloading], ?_⟩
    exact List.rel_append hways (.cons ⟨hway, fun he => by cases he⟩ .nil)

/-- **What a loader takes for a cycle.** Between calls the files on the ways of the calls that failed are still being
loaded, and a call for one of them reports a cycle at once. Whatever cycle a call reports, it came to a file that is on
its own way, and then the imports have this cycle, or to one that an earlier call left. While no call has failed every
reported cycle is one of the imports. -/
theorem cycles (hfuel : Ample find fuel) (h : Calls find fuel calls s) :
    (∃ ways, s.loading = ways.flatten ∧ List.Forall₂ (Leaves find) calls ways) ∧
    (∀ name ∈ s.loading, load find fuel name none s = .error (.cycle (s.loading ++ [name])) s) ∧
    ∀ file chain s', load find fuel file none s = .error (.cycle chain) s' →
      ∃ way name, s'.loading = s.loading ++ way ∧ chain = s'.loading ++ [name] ∧ Way find file (way ++ [name]) ∧
        (name ∈ way ∧ TransGen (Imports find) name name ∨ name ∈ s.loading) ∧
        ((∀ call ∈ calls, call.2 = none) → TransGen (Imports find) name name) := by
  obtain ⟨hs, ways, hloading, hways⟩ := h.standing hfuel
  refine ⟨⟨ways, hloading, hways⟩, fun name hname => ?_, fun file chain s' hrun => ?_⟩
  · obtain ⟨k, rfl⟩ := Nat.exists_eq_succ_of_ne_zero (Nat.ne_of_gt hfuel.pos)
    exact load_again (hs.unloaded name hname) hname
  · obtain ⟨-, way, hleft, -, hcause⟩ := (load_ends hs hfuel.enough).error hrun
    generalize hstack : s'.loading = stack at hcause
    generalize he : LoadFault.cycle chain = e at hcause
    cases hcause with
    | misplaced | literal | missingFile => cases he
    | taken taken =>
      subst he
      cases taken
    | @cycle name back again =>
      cases he
      rw [← hstack, hleft, List.mem_append] at again
      have hcases : name ∈ way ∧ TransGen (Imports find) name name ∨ name ∈ s.loading :=
        again.symm.imp_left fun hname => ⟨hname, back.transGen hname⟩
      refine ⟨way, name, hstack ▸ hleft, rfl, back, hcases, fun hall => ?_⟩
      refine (hcases.resolve_right fun hname => ?_).2
      -- Calls that succeed leave nothing.
      obtain ⟨left, hin, hmem⟩ := List.mem_flatten.mp (hloading ▸ hname)
      obtain ⟨call, hcall, hleaves⟩ := forall₂_mem hways.flip hin
      rw [hleaves.ok (hall call hcall)] at hmem
      cases hmem

end Calls

/-- The fuel of sources is enough for every way through them. -/
theorem ample_sources (sources : Sources) : Ample (textOf sources) (loadFuel sources) := by
  intro way hnodup _ hfound
  have hsub : way ⊆ sources.map (·.1) := by
    intro x hx
    obtain ⟨text, htext⟩ := Option.isSome_iff_exists.mp (hfound x hx)
    exact List.mem_map_of_mem (f := (·.1)) (Entries.mem_ofList (Entries.mem_of_lookup htext))
  have hlength := (List.Nodup.subperm hnodup hsub).length_le
  have hfuel := loadFuel_ge sources
  rw [List.length_map] at hlength
  omega

end Names

/-- A file that begins with no token. -/
def straySources : Sources := [("a.proto", "?")]

/-- The file is called once, fails, and stays among the files being loaded. -/
theorem calls_stray : ∃ fault, Source.parse "?" = .error (.misplaced fault) ∧
    Calls (textOf straySources) (loadFuel straySources) [("a.proto", some (.misplaced "a.proto" fault))]
      (opened .empty "a.proto") := by
  have hfind : textOf straySources "a.proto" = some "?" := by decide
  obtain ⟨fault, hparse⟩ := @Source.parse_unmatched _ "?" (by decide) fun t => by cases t <;> rfl
  have hload : load (textOf straySources) (3 + 1) "a.proto" none .empty =
      .error (.misplaced "a.proto" fault) (opened .empty "a.proto") :=
    load_unparsed (by decide) (by decide) hfind (by rw [hparse]; rfl)
  exact ⟨fault, hparse, Calls.nil.error hload⟩

theorem Calls.cycles_stray : ∃ calls, Ample (textOf straySources) (loadFuel straySources) ∧
    Calls (textOf straySources) (loadFuel straySources) calls (opened .empty "a.proto") ∧
    load (textOf straySources) (loadFuel straySources) "a.proto" none (opened .empty "a.proto") =
      .error (.cycle ["a.proto", "a.proto"]) (opened .empty "a.proto") := by
  obtain ⟨fault, -, hcalls⟩ := calls_stray
  have hfuel := ample_sources straySources
  exact ⟨_, hfuel, hcalls, (Calls.cycles hfuel hcalls).2.1 "a.proto" (by decide)⟩

/-- A cycle is reported where nothing is imported at all: called again, the file meets itself. -/
theorem reported_cycle_false : ¬ ∀ (sources : Sources) (calls : List (String × Option LoadFault)) (s s' : Loader)
    (file name : String) (before : List String), Calls (textOf sources) (loadFuel sources) calls s →
      loadOne sources file s = .error (.cycle (before ++ [name])) s' →
      TransGen (Imports (textOf sources)) name name := by
  intro h
  obtain ⟨fault, hparse, hcalls⟩ := calls_stray
  have hagain : loadOne straySources "a.proto" (opened .empty "a.proto") =
      .error (.cycle (["a.proto"] ++ ["a.proto"])) (opened .empty "a.proto") :=
    load_again (by decide) (by decide)
  have hcycle := h straySources _ _ _ _ _ _ hcalls hagain
  obtain ⟨b, ⟨f, hf, -⟩, -⟩ := TransGen.head'_iff.mp hcycle
  obtain ⟨text, htext, hf⟩ := Option.bind_eq_some_iff.mp hf
  obtain rfl : "?" = text := Option.some.inj ((by decide : textOf straySources "a.proto" = some "?").symm.trans htext)
  rw [SchemaFile.ofText, hparse] at hf
  cases hf

end ProtoBind.Schema
