/-
What is read for the files that are to be loaded.

An input gets a name, and the file is looked for again by this name, in the
include directories as they are then. They only grow, so nothing that was found
is lost (`find?_mono`), and every file that a run loads is the one that its name
finds in the directories of the end (`loadAll_reads`). Each input is among the
files that its name finds there, but the first of them is loaded: another file
of the same name in a directory before is read in its place (`loadFiles_reads`).
-/
import ProtoBind.Proofs.Files.Paths
import ProtoBind.Proofs.Schema.Declared
import ProtoBind.Proofs.Schema.Printed

namespace ProtoBind.Files

open Schema (Graph Load Loader SchemaFile fileAt)
open Schema.Load (Keeps load_keeps finish_iff holds_empty)

/-- The inputs with the names they get. -/
def origins (w : Workspace) : (includes files : List String) → List (String × String)
  | _, [] => []
  | includes, file :: rest =>
    (file, (originName w includes file).1) :: origins w (originName w includes file).2 rest

/-- The include directories after all inputs. -/
def directories (w : Workspace) : (includes files : List String) → List String
  | includes, [] => includes
  | includes, file :: rest => directories w (originName w includes file).2 rest

variable {w : Workspace} {includes more files : List String} {file name text : String}

/-! ## Include directories -/

theorem originName_extends (w : Workspace) (includes : List String) (file : String) :
    includes <+: (originName w includes file).2 := by
  rw [originName]
  split
  · exact List.prefix_refl _
  · exact List.prefix_append _ _

theorem directories_extends (w : Workspace) : ∀ (includes files : List String), includes <+: directories w includes files
  | _, [] => List.prefix_refl _
  | includes, file :: rest => (originName_extends w includes file).trans (directories_extends w _ rest)

/-- A file stays found when there are more directories to look in after the others. -/
theorem find?_mono (hmore : includes <+: more) (h : w.find? includes name = some text) :
    w.find? more name = some text := by
  obtain ⟨rest, rfl⟩ := hmore
  rw [Workspace.find?, List.findSome?_append]
  exact Option.or_eq_some_iff.mpr (.inl h)

/-- The first directory that has a file of a name, beside one that has it. -/
theorem find?_cases {d : String} (hd : d ∈ includes) (hread : w.read? (below d name) = some text) :
    ∃ before after, includes = before ++ d :: after ∧ ∃ found, w.find? includes name = some found ∧
      (found = text ∨ ∃ e ∈ before, w.read? (below e name) = some found) := by
  obtain ⟨before, after, rfl⟩ := List.append_of_mem hd
  refine ⟨before, after, rfl, ?_⟩
  cases hbefore : before.findSome? fun e => w.read? (below e name) with
  | none => exact ⟨text, by simp [Workspace.find?, hbefore, hread], .inl rfl⟩
  | some found =>
    exact ⟨found, find?_mono (List.prefix_append _ _) hbefore, .inr (List.exists_of_findSome?_eq_some hbefore)⟩

/-! ## Loading the inputs -/

/-- Every file is the one that its name finds. -/
def Found [Source.CharacterNames] (find : String → Option String) (loaded : List SchemaFile) : Prop :=
  ∀ f ∈ loaded, fileAt find f.name = some f

theorem keeps_found [Source.CharacterNames] (hmore : includes <+: more) : Keeps (w.find? includes)
    (Found (w.find? more)) := by
  intro loaded f hloaded hread _ _ _ _
  refine List.forall_mem_append.mpr ⟨hloaded, List.forall_mem_singleton.mpr ?_⟩
  obtain ⟨text, htext, hf⟩ := Option.bind_eq_some_iff.mp hread
  exact Option.bind_eq_some_iff.mpr ⟨text, find?_mono hmore htext, hf⟩

/-- **All files that are loaded for the inputs are those that their names find in the directories of the end.** -/
theorem loadAll_reads [Source.CharacterNames] : ∀ {files includes : List String} {u : Unit} {s s' : Loader}
    {loaded : List SchemaFile}, s.Holds loaded → directories w includes files <+: more → Found (w.find? more) loaded →
    loadAll w includes files s = .ok u s' →
    ∃ loaded', s'.Holds (loaded ++ loaded') ∧ Found (w.find? more) (loaded ++ loaded') ∧
      ∀ o ∈ origins w includes files, o.2 ∈ (loaded ++ loaded').map (·.name)
  | [], includes, u, s, s', loaded, h, _, hfound, hr => by
    cases hr
    exact ⟨[], by rwa [List.append_nil], by rwa [List.append_nil], nofun⟩
  | file :: rest, includes, u, s, s', loaded, h, hmore, hfound, hr => by
    obtain ⟨_, s₁, hload, hr⟩ := bind_eq_ok.mp hr
    have hdirs : (originName w includes file).2 <+: more := (directories_extends w _ rest).trans hmore
    obtain ⟨first, hloads, hin⟩ := load_keeps (keeps_found hdirs) h hfound hload
    have hin := hin.resolve_right fun hskip => Bool.noConfusion hskip.2
    obtain ⟨others, hholds, hothers, hall⟩ :=
      @loadAll_reads _ rest (originName w includes file).2 _ _ _ _ hloads.holds hmore hloads.keeps hr
    refine ⟨first ++ others, ?_⟩
    rw [← List.append_assoc]
    refine ⟨hholds, hothers, List.forall_mem_cons.mpr ⟨?_, hall⟩⟩
    rw [List.map_append]
    exact List.mem_append_left _ hin

/-- The directories that inputs add are there, and each input is found from one of them. -/
theorem origins_found (hw : w.Proper) : ∀ {files includes : List String}, (∀ d ∈ includes, w.There d) →
    (∀ file ∈ files, (w.read? file).isSome) → ∀ o ∈ origins w includes files,
      ∃ text, w.read? o.1 = some text ∧ ∃ d ∈ directories w includes files, w.read? (below d o.2) = some text
  | [], _, _, _ => nofun
  | file :: rest, includes, hdirs, hfiles => by
    obtain ⟨text, htext⟩ := Option.isSome_iff_exists.mp (hfiles file List.mem_cons_self)
    obtain ⟨hdirs', d, hd, hread⟩ := originName_finds hw hdirs htext
    refine List.forall_mem_cons.mpr ⟨⟨text, htext, d, (directories_extends w _ rest).subset hd, hread⟩, ?_⟩
    exact origins_found hw hdirs' fun file hfile => hfiles file (List.mem_cons_of_mem _ hfile)

/-- **What is loaded for an input is the first file of its name in the include directories.** The input is one of the
files of this name, and the declarations of the first of them are in the graph. So where another text is parsed than that
of the input, it is that of a file in a directory before. -/
theorem loadFiles_reads [Source.CharacterNames] {g : Graph} {s : Loader} (hw : w.Proper)
    (hdirs : ∀ d ∈ includes, w.There d)
    (hfiles : ∀ file ∈ files, (w.read? file).isSome) (hload : loadFiles w includes files .empty = .ok g s) :
    ∀ o ∈ origins w includes files, ∃ text parsed f, w.read? o.1 = some text ∧
      w.find? (directories w includes files) o.2 = some parsed ∧ SchemaFile.ofText o.2 parsed = some f ∧
      (∀ x ∈ f.contents, ∃ n ∈ g.nodes, n.fullName = x.1 ∧ n.kind = x.2.body.kind ∧ n.file = some o.2) ∧
      ∃ before d after, directories w includes files = before ++ d :: after ∧ w.read? (below d o.2) = some text ∧
        (parsed = text ∨ ∃ e ∈ before, w.read? (below e o.2) = some parsed) := by
  intro o ho
  obtain ⟨_, s₁, hall, hfinish⟩ := bind_eq_ok.mp hload
  obtain ⟨missing, hf⟩ := finish_iff.mp ⟨s, hfinish⟩
  obtain ⟨loaded, hholds, hfound, hin⟩ := loadAll_reads holds_empty (List.prefix_refl _) nofun hall
  rw [List.nil_append] at hholds hfound hin
  obtain ⟨f, hfile, hname⟩ := List.mem_map.mp (hin o ho)
  obtain ⟨parsed, hparsed, hofText⟩ := Option.bind_eq_some_iff.mp (hfound f hfile)
  obtain ⟨text, htext, d, hd, hread⟩ := origins_found hw hdirs hfiles o ho
  obtain ⟨before, after, hsplit, found, hfirst, hcases⟩ := find?_cases hd hread
  rw [hname] at hparsed hofText
  obtain rfl : found = parsed := Option.some.inj (hfirst.symm.trans hparsed)
  refine ⟨text, found, f, htext, hparsed, hofText, fun x hx => ?_, before, d, after, hsplit, hread, hcases⟩
  obtain ⟨n, hn, hfull, hkind, hnfile⟩ := hholds.contents_mem hf hfile hx
  refine ⟨n, hn, hfull, hkind, ?_⟩
  exact hnfile.trans ((SchemaFile.contents_belongs x hx).file.trans (congrArg some hname))

/-- Two files of one name in different directories. -/
def shadowed : Workspace where
  disk := .ofFiles [("work/a/x.proto", "message A \x7b \x7d"), ("work/b/x.proto", "message B \x7b \x7d")]
  here := ["work"]

theorem shadowed_declared : succeedsWith (loadFiles shadowed ["a", "b"] ["b/x.proto"]) .empty
    (fun g => g.nodes.map (·.fullName) == ["", "A"]) = true := by
  unfold loadFiles loadAll loadAll
  rw [Load.load_eq_known [("a/x.proto", [.message "A" [] 1])] (by decide)]
  decide

theorem shadowed_loads : ∃ g s, loadFiles shadowed ["a", "b"] ["b/x.proto"] .empty = .ok g s ∧
    g.nodes.map (·.fullName) = ["", "A"] := by
  obtain ⟨g, s, hload, htest⟩ := exists_of_succeedsWith shadowed_declared
  exact ⟨g, s, hload, eq_of_beq htest⟩

theorem shadowed_proper : shadowed.Proper where
  here := List.forall_mem_singleton.mpr ⟨⟨by decide, by decide⟩, by decide, by decide⟩
  top := by decide

/-- The second of two files of one name is an input, and the first is parsed: it is in a directory before. -/
theorem loadFiles_reads_shadowed : ∃ g s, loadFiles shadowed ["a", "b"] ["b/x.proto"] .empty = .ok g s ∧
    ∃ text parsed f, shadowed.read? "b/x.proto" = some text ∧ text ≠ parsed ∧
      SchemaFile.ofText "x.proto" parsed = some f ∧
      (∀ x ∈ f.contents, ∃ n ∈ g.nodes, n.fullName = x.1 ∧ n.kind = x.2.body.kind ∧ n.file = some "x.proto") := by
  obtain ⟨g, s, hload, -⟩ := shadowed_loads
  have horigins : origins shadowed ["a", "b"] ["b/x.proto"] = [("b/x.proto", "x.proto")] := by decide
  obtain ⟨text, parsed, f, htext, hparsed, hf, hnodes, -⟩ := loadFiles_reads shadowed_proper
    (by decide : ∀ d ∈ ["a", "b"], shadowed.There d) (by decide) hload ("b/x.proto", "x.proto")
    (horigins ▸ List.mem_cons_self)
  refine ⟨g, s, hload, text, parsed, f, htext, ?_, hf, hnodes⟩
  have hB : shadowed.read? "b/x.proto" = some "message B \x7b \x7d" := by decide
  have hA : shadowed.find? (directories shadowed ["a", "b"] ["b/x.proto"]) "x.proto" = some "message A \x7b \x7d" := by
    decide
  rw [← Option.some.inj (hB.symm.trans htext), ← Option.some.inj (hA.symm.trans hparsed)]
  decide

/-- What an input file declares is not in the graph: another file is parsed under its name. -/
theorem input_shadowed : ∃ g s, loadFiles shadowed ["a", "b"] ["b/x.proto"] .empty = .ok g s ∧
    origins shadowed ["a", "b"] ["b/x.proto"] = [("b/x.proto", "x.proto")] ∧
    shadowed.read? "b/x.proto" = some "message B \x7b \x7d" ∧
    shadowed.find? (directories shadowed ["a", "b"] ["b/x.proto"]) "x.proto" = some "message A \x7b \x7d" ∧
    "B" ∉ g.nodes.map (·.fullName) := by
  obtain ⟨g, s, hload, hnames⟩ := shadowed_loads
  refine ⟨g, s, hload, by decide, by decide, by decide, ?_⟩
  rw [hnames]
  decide

end ProtoBind.Files
