/-
Sources in any order.

Which files can be loaded together is for their texts to say, and the entries
of the graph are those of the files. So two lists of the same sources are
loaded alike (`loadSources_perm`): both fail, or both give one graph up to the
numbers of nodes and the order of files and of what is in a package.
-/
import ProtoBind.Proofs.Schema.Imports
import ProtoBind.Proofs.Schema.Renumbered

namespace ProtoBind.Schema

open Schema.Graph Load

variable {files files' : List SchemaFile} {s s' : Loader} {find : String → Option String}

/-! ## Entries of files -/

namespace Load

theorem packageEntries_under : ∀ {parts : List String} {current : String}, ∀ x ∈ packageEntries current parts,
    ∃ parent, x.1 = childName parent x.2.name ∧
      (parent = current ∨ parent ∈ (packageEntries current parts).map (·.1))
  | [], current, x, hx => by cases hx
  | part :: rest, current, x, hx => by
    rcases List.mem_cons.mp hx with rfl | hx
    · exact ⟨current, rfl, .inl rfl⟩
    · obtain ⟨parent, hname, hparent⟩ := packageEntries_under x hx
      refine ⟨parent, hname, .inr ?_⟩
      rcases hparent with rfl | hin
      · exact List.mem_cons_self
      · exact List.mem_cons_of_mem _ hin

theorem foldl_childName : ∀ {parts : List String} {current : String},
    parts.foldl childName current = current ∨
      parts.foldl childName current ∈ (packageEntries current parts).map (·.1)
  | [], current => .inl rfl
  | part :: rest, current => by
    refine .inr ?_
    rcases @foldl_childName rest (childName current part) with he | hin
    · rw [List.foldl_cons, he]
      exact List.mem_cons_self
    · exact List.mem_cons_of_mem _ hin

end Load

namespace Loader.Holds

theorem unique (h : s.Holds files) {x y : Listed} (hx : x ∈ s.graph.listing) (hy : y ∈ s.graph.listing)
    (he : x.1 = y.1) : x = y := by
  obtain ⟨n, hn, hname, hentry⟩ := mem_listing.mp hx
  obtain ⟨m, hm, hname', hentry'⟩ := mem_listing.mp hy
  have hsame : n = m := h.arena.unique hn hm (by rw [hname, hname', he])
  rw [hsame] at hentry
  exact Prod.ext he (hentry.symm.trans hentry')

theorem bare (h : s.Holds files) : ∀ x ∈ s.graph.listing, x.2.body.extendeeTarget? = none := by
  intro x hx
  rcases h.mem.mp hx with rfl | ⟨f, -, hx | hx⟩
  · rfl
  · obtain ⟨p, a, -, rfl⟩ := SchemaFile.packages_isPackage hx
    rfl
  · exact (SchemaFile.contents_belongs x hx).bare

/-- The name of a package of one of the files, or of the root. -/
def IsSpace (files : List SchemaFile) (name : String) : Prop :=
  name = "" ∨ ∃ f ∈ files, name ∈ f.packages.map (·.1)

/-- A declaration has not the name of a package. -/
theorem not_isSpace (h : s.Holds files) {x : Listed} (hx : x ∈ s.graph.listing) (hk : x.2.body.kind ≠ .package) :
    ¬ IsSpace files x.1 := by
  rintro (he | ⟨f, hf, hin⟩)
  · have hsame := h.unique hx (h.mem.mpr (.inl rfl)) he
    rw [hsame] at hk
    exact hk rfl
  · obtain ⟨y, hy, he⟩ := List.mem_map.mp hin
    have hsame := h.unique hx (h.mem.mpr (.inr ⟨f, hf, .inl hy⟩)) he.symm
    rw [hsame] at hk
    exact hk (SchemaFile.packages_isPackage hy).kind

/-- What stands in a declaration is in its file. -/
theorem inside (h : s.Holds files) : ∀ x ∈ s.graph.listing, x.2.body.kind ≠ .package →
    ∃ file, x.2.file = some file ∧ ∀ y ∈ s.graph.listing, IsUnder x.1 y → y.2.file = some file := by
  intro x hx hk
  have hspace := h.not_isSpace hx hk
  obtain ⟨f, hf, hxf⟩ : ∃ f ∈ files, x ∈ f.contents := by
    rcases h.mem.mp hx with rfl | ⟨f, hf, hx | hx⟩
    · exact absurd rfl hk
    · exact absurd (SchemaFile.packages_isPackage hx).kind hk
    · exact ⟨f, hf, hx⟩
  refine ⟨f.name, (SchemaFile.contents_belongs x hxf).file, fun y hy hu => ?_⟩
  rcases h.mem.mp hy with rfl | ⟨f', hf', hy' | hy'⟩
  · exact absurd rfl hu.1
  · -- A package stands in a package.
    obtain ⟨parent, hname, hparent⟩ := packageEntries_under y hy'
    obtain rfl : x.1 = parent := childName_left (hu.2.symm.trans hname)
    exact absurd (hparent.imp_right fun hin => ⟨f', hf', hin⟩) hspace
  · have hbelongs := SchemaFile.contents_belongs y hy'
    obtain ⟨parent, hname, hparent⟩ := hbelongs.under
    obtain rfl : x.1 = parent := childName_left (hu.2.symm.trans hname)
    rcases hparent with he | hin
    · have hroot : IsSpace files f'.space := foldl_childName.imp_right fun hin => ⟨f', hf', hin⟩
      exact absurd (he ▸ hroot) hspace
    · obtain ⟨z, hz, he⟩ := List.mem_map.mp hin
      obtain rfl := h.unique hx (h.mem.mpr (.inr ⟨f', hf', .inr hz⟩)) he.symm
      rw [hbelongs.file, ← (SchemaFile.contents_belongs x hz).file, (SchemaFile.contents_belongs x hxf).file]
      rfl

end Loader.Holds

/-! ## Orders of the same files -/

/-- At most one file has a name. -/
theorem Ordered.filter_name [Source.CharacterNames] (h : Ordered find files) (name : String) :
    files.filter (·.name = name) = if name ∈ files.map (·.name) then (fileAt find name).toList else [] := by
  induction h with
  | nil => simp
  | @snoc files f before read new valid apart imports ih =>
    rw [List.filter_append, ih, List.map_append]
    by_cases hname : f.name = name
    · subst hname
      simp [new, read]
    · have hne : name ≠ f.name := Ne.symm hname
      simp [hname, hne]

theorem Ordered.perm [Source.CharacterNames] (h : Ordered find files) (h' : Ordered find files')
    (hnames : ∀ name, name ∈ files.map (·.name) ↔ name ∈ files'.map (·.name)) : files.Perm files' := by
  have hsub {l l' : List SchemaFile} (hl : Ordered find l) (hl' : Ordered find l')
      (hin : ∀ name, name ∈ l.map (·.name) → name ∈ l'.map (·.name)) : ∀ f ∈ l, f ∈ l' := by
    intro f hf
    obtain ⟨f', hf', he⟩ := List.mem_map.mp (hin f.name (List.mem_map_of_mem hf))
    have hread := (hl'.read f' hf').1
    rw [he, (hl.read f hf).1, Option.some.injEq] at hread
    exact hread ▸ hf'
  refine (List.perm_ext_iff_of_nodup h.names_nodup.of_map h'.names_nodup.of_map).mpr fun f => ?_
  exact ⟨hsub h h' (fun name => (hnames name).mp) f, hsub h' h (fun name => (hnames name).mpr) f⟩

/-- Where all sources are in order, nothing else is. -/
theorem Ordered.perm_sources [Source.CharacterNames] {sources : Sources} (h : Ordered (textOf sources) files)
    (hall : ∀ p ∈ sourceMap sources, p.1 ∈ files.map (·.name)) :
    (files.map (·.name)).Perm ((sourceMap sources).map (·.1)) := by
  refine (List.perm_ext_iff_of_nodup h.names_nodup (Entries.keys_ofList_nodup sources)).mpr fun name => ⟨?_, ?_⟩
  · intro hname
    obtain ⟨f, hf, rfl⟩ := List.mem_map.mp hname
    obtain ⟨text, htext, -⟩ := Option.bind_eq_some_iff.mp (h.read f hf).1
    exact List.mem_map_of_mem (f := (·.1)) (Entries.mem_of_lookup htext)
  · intro hname
    obtain ⟨p, hp, rfl⟩ := List.mem_map.mp hname
    exact hall p hp

/-- Loaders that hold the same files have the same entries. -/
theorem Loader.Holds.twins [Source.CharacterNames] (h : s.Holds files) (h' : s'.Holds files') (ho : Ordered find files)
    (ho' : Ordered find files') (hnames : ∀ name, name ∈ files.map (·.name) ↔ name ∈ files'.map (·.name)) :
    Twins s.graph s'.graph := by
  have hperm := ho.perm ho' hnames
  refine ⟨h.arena, h'.arena, ?_, h.bare, fun file => ?_, h.inside⟩
  · refine (List.perm_ext_iff_of_nodup h.arena.fullNames_nodup.of_map h'.arena.fullNames_nodup.of_map).mpr
      fun x => ?_
    rw [h.mem, h'.mem]
    simp only [hperm.mem_iff]
  · rw [h.order, h'.order, ho.filter_name, ho'.filter_name]
    simp only [hnames file]

/-! ## Results -/

namespace Load

/-- Reports never fail. -/
theorem forIn_report {β : Type} (message : β → String) : ∀ (xs : List β) (s : Loader),
    ∃ s', (forIn xs () fun x _ => do report (message x); pure (.yield ()) : Load Unit) s = .ok () s'
  | [], s => ⟨s, rfl⟩
  | x :: xs, s => by
    obtain ⟨s', hrest⟩ := forIn_report message xs
      { s with log := s.log ++ ["[PWLOAD DEBUG] " ++ message x] }
    refine ⟨s', ?_⟩
    rw [List.forIn_cons]
    exact hrest

theorem finish_iff {g : Graph} : (∃ s', finish s = .ok g s') ↔ ∃ missing, s.graph.finalize = (g, .ok missing) := by
  constructor
  · rintro ⟨s', h⟩
    obtain ⟨_, _, hget, h⟩ := bind_eq_ok.mp h
    cases hget
    generalize hf : s.graph.finalize = r at h
    obtain ⟨g', result⟩ := r
    obtain ⟨_, s₁, hset, h⟩ := bind_eq_ok.mp h
    cases hset
    cases result with
    | error e => cases h
    | ok missing =>
      obtain ⟨_, s₂, -, h⟩ := bind_eq_ok.mp h
      cases h
      exact ⟨missing, rfl⟩
  · rintro ⟨missing, hf⟩
    obtain ⟨s', hreport⟩ := forIn_report (fun p : Node × String => "Unresolved reference '" ++ p.2 ++ "' in " ++
      p.1.fullName ++ " (" ++ fileText p.1.file ++ ")") missing { s with graph := g }
    refine ⟨s', ?_⟩
    unfold finish
    rw [bind_of_ok (show (get : Load Loader) s = .ok s s from rfl), hf]
    exact bind_eq_ok.mpr ⟨(), _, rfl, bind_eq_ok.mpr ⟨(), s', hreport, rfl⟩⟩

/-- A graph is loaded when the files can be loaded and the graph that holds them can be resolved. -/
theorem loadSources_eq_ok [Source.CharacterNames] {sources : Sources} {g : Graph} :
    (∃ s', loadSources sources .empty = .ok g s') ↔
    ∃ s, loadEach sources .empty = .ok () s ∧ ∃ missing, s.graph.finalize = (g, .ok missing) := by
  rw [loadSources_eq]
  constructor
  · rintro ⟨s', hr⟩
    obtain ⟨_, s, heach, hfinish⟩ := bind_eq_ok.mp hr
    exact ⟨s, heach, finish_iff.mp ⟨s', hfinish⟩⟩
  · rintro ⟨s, heach, hfinish⟩
    obtain ⟨s', hfinish⟩ := finish_iff.mpr hfinish
    exact ⟨s', bind_eq_ok.mpr ⟨(), s, heach, hfinish⟩⟩

end Load

section Permuted

variable {a b : Sources}

theorem textOf_perm (h : (sourceMap a).Perm (sourceMap b)) : textOf a = textOf b :=
  funext (Entries.lookup_perm h (Entries.keys_ofList_nodup a))

theorem loadEach_perm [Source.CharacterNames] (h : (sourceMap a).Perm (sourceMap b)) :
    (∃ s, loadEach a .empty = .ok () s) ↔ ∃ s, loadEach b .empty = .ok () s := by
  rw [loadEach_iff, loadEach_iff, textOf_perm h]
  simp only [h.mem_iff]

theorem loadEach_twins [Source.CharacterNames] (h : (sourceMap a).Perm (sourceMap b))
    (ha : loadEach a .empty = .ok () s)
    (hb : loadEach b .empty = .ok () s') : Twins s.graph s'.graph ∧ s.graph.files.Perm s'.graph.files := by
  obtain ⟨files, hs, ho, hall⟩ := loadEach_sound ha
  obtain ⟨files', hs', ho', hall'⟩ := loadEach_sound hb
  rw [← textOf_perm h] at ho'
  have hall'' : ∀ p ∈ sourceMap a, p.1 ∈ files'.map (·.name) := fun p hp => hall' p (h.mem_iff.mp hp)
  have hnames : ∀ name, name ∈ files.map (·.name) ↔ name ∈ files'.map (·.name) := fun name =>
    ((ho.perm_sources hall).trans (ho'.perm_sources hall'').symm).mem_iff
  refine ⟨hs.twins hs' ho ho' hnames, ?_⟩
  rw [hs.entered, hs'.entered]
  exact (ho.perm ho' hnames).map _

/-- What is loaded of the same entries is one graph up to the numbers of its nodes. -/
theorem renumbered_of_perm [Source.CharacterNames] {g g' : Graph} {t t' : Loader} (h : (sourceMap a).Perm (sourceMap b))
    (hg : loadSources a .empty = .ok g t) (hg' : loadSources b .empty = .ok g' t') : g.Renumbered g' := by
  obtain ⟨s₁, ha, missing, hf⟩ := loadSources_eq_ok.mp ⟨t, hg⟩
  obtain ⟨s₂, hb, missing', hf'⟩ := loadSources_eq_ok.mp ⟨t', hg'⟩
  obtain ⟨htwins, hfiles⟩ := loadEach_twins h ha hb
  exact htwins.renumbered hfiles hf hf'

/-- **The loaded graph does not depend on the order of the sources.** Two mappings with the same entries are
loaded both or not at all, and what is loaded is one graph up to the numbers of its nodes and the order of
files and of what is in a package. -/
theorem loadSources_perm [Source.CharacterNames] (h : (sourceMap a).Perm (sourceMap b)) :
    ((∃ g s, loadSources a .empty = .ok g s) ↔ ∃ g s, loadSources b .empty = .ok g s) ∧
    ∀ g s g' s', loadSources a .empty = .ok g s → loadSources b .empty = .ok g' s' → g.Renumbered g' := by
  have hhalf {a b : Sources} (h : (sourceMap a).Perm (sourceMap b)) (hok : ∃ g s, loadSources a .empty = .ok g s) :
      ∃ g s, loadSources b .empty = .ok g s := by
    obtain ⟨g, hok⟩ := hok
    obtain ⟨s₁, ha, missing, hf⟩ := loadSources_eq_ok.mp hok
    obtain ⟨s₂, hb⟩ := (loadEach_perm h).mp ⟨s₁, ha⟩
    obtain ⟨g', missing', hf'⟩ := (loadEach_twins h ha hb).1.finalize_iff.mp ⟨g, missing, hf⟩
    exact ⟨g', loadSources_eq_ok.mpr ⟨s₂, hb, missing', hf'⟩⟩
  exact ⟨⟨hhalf h, hhalf h.symm⟩, fun g s g' s' hg hg' => renumbered_of_perm h hg hg'⟩

end Permuted

/-- Two files, one of which imports the other, in both orders. -/
theorem loadSources_perm_imports :
    let a : Sources := [("a.proto", "import 'b.proto'; package p; message A \x7b optional p.B b = 1; \x7d"),
      ("b.proto", "package p; message B \x7b\x7d")]
    let b : Sources := [("b.proto", "package p; message B \x7b\x7d"),
      ("a.proto", "import 'b.proto'; package p; message A \x7b optional p.B b = 1; \x7d")]
    (sourceMap a).Perm (sourceMap b) ∧
      ((∃ g s, loadSources a .empty = .ok g s) ↔ ∃ g s, loadSources b .empty = .ok g s) ∧
      ∀ g s g' s', loadSources a .empty = .ok g s → loadSources b .empty = .ok g' s' → g.Renumbered g' := by
  intro a b
  have h : (sourceMap a).Perm (sourceMap b) := by decide
  exact ⟨h, loadSources_perm h⟩

end ProtoBind.Schema
