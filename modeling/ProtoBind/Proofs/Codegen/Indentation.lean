/-
The indentation of generated modules.

An alias is quiet, as the names of the modules are for which it stands, and so
are the expressions that code refers to declarations with (`Site.Sound.classRef`).
So all declarations become proper code (`Site.Sound.emitDeclarations`), and the
text of a module of a graph without documentation is laid out in blocks
(`module_in_blocks`).
-/
import ProtoBind.Proofs.Codegen.Bodies
import ProtoBind.Proofs.Codegen.Exports
import ProtoBind.Proofs.Codegen.Lasting

namespace ProtoBind.Codegen

open Schema Schema.Graph
open Code (Begun Blocks Filled Line Proper Quiet Single Usable opensBlock_append quiet_of_word textLines writtenLines)
open Source (Dotted Identifier)

variable {s : Site} {o : Options} {n : Node}

/-! ## Imports -/

/-- The imports have no colon and no line feed in their names. -/
def ImportTable.Quiet (t : ImportTable) : Prop := ∀ i ∈ t.entries, Code.Quiet i.module ∧ Code.Quiet i.name

namespace ImportTable

variable {t t' : ImportTable} {module base name : String}

theorem candidate_quiet (h : Code.Quiet base) : Code.Quiet (candidate base) := by
  unfold candidate
  split
  · exact h
  · exact (.literal rfl rfl : Code.Quiet "_").append h

theorem baseName_quiet (h : Code.Quiet module) : Code.Quiet (baseName module) := by
  intro c hc
  rw [baseName, String.toList_ofList, List.mem_reverse] at hc
  exact h c (List.mem_reverse.mp ((List.takeWhile_prefix _).subset hc))

/-- What an import adds is quiet if the module and the name for its alias are. -/
theorem Quiet.use {target : ImportTarget} (h : t.Quiet) (hmodule : Code.Quiet module) (hbase : Code.Quiet base)
    (hu : t.use target module base = .ok (name, t')) : t'.Quiet ∧ Code.Quiet name := by
  unfold ImportTable.use at hu
  split at hu
  next found hfound =>
    cases hu
    obtain ⟨i, hi, rfl⟩ := Option.map_eq_some_iff.mp hfound
    exact ⟨h, (h i (List.mem_of_find?_eq_some hi)).2⟩
  next =>
    split at hu
    next found hfree =>
      cases hu
      have hname : Code.Quiet name := by
        rw [freeAlias?_eq] at hfree
        rcases List.mem_cons.mp (List.mem_of_find?_eq_some hfree) with rfl | hmem
        · exact candidate_quiet hbase
        · obtain ⟨k, -, rfl⟩ := List.mem_map.mp hmem
          exact (candidate_quiet hbase).append (intText_quiet _)
      exact ⟨List.forall_mem_append.mpr ⟨h, List.forall_mem_singleton.mpr ⟨hmodule, hname⟩⟩, hname⟩
    next => cases hu

end ImportTable

/-! ## Computations -/

variable {α β γ : Type} {P : α → Prop} {Q : β → Prop}

/-- With quiet imports, what a computation gives has a property, and the imports are quiet again. -/
def Yields (x : Emit α) (P : α → Prop) : Prop :=
  ∀ d a d', d.imports.Quiet → x d = .ok a d' → d'.imports.Quiet ∧ P a

namespace Yields

theorem pure {a : α} (h : P a) : Yields (Pure.pure a) P := by
  intro d b d' hd hx
  cases hx
  exact ⟨hd, h⟩

theorem fail (e : AssemblyFault) : Yields (throw e : Emit α) P := by
  intro d a d' _ h
  cases h

theorem bind {x : Emit α} {f : α → Emit β} (hx : Yields x P) (hf : ∀ a, P a → Yields (f a) Q) : Yields (x >>= f) Q := by
  intro d b d' hd h
  obtain ⟨a, d₁, ha, h⟩ := bind_eq_ok.mp h
  obtain ⟨hd₁, hP⟩ := hx d a d₁ hd ha
  exact hf a hP d₁ b d' hd₁ h

theorem map {x : Emit α} {f : α → β} (hx : Yields x P) (hf : ∀ a, P a → Q (f a)) :
    Yields (x >>= fun a => Pure.pure (f a)) Q :=
  hx.bind fun a ha => .pure (hf a ha)

theorem mapM {f : γ → Emit β} : ∀ {xs : List γ}, (∀ x ∈ xs, Yields (f x) Q) → Yields (xs.mapM f) (∀ y ∈ ·, Q y)
  | [], _ => by
    rw [List.mapM_nil]
    exact .pure (List.forall_mem_nil _)
  | x :: xs, h => by
    rw [List.mapM_cons]
    exact (h x List.mem_cons_self).bind fun y hy =>
      (mapM fun z hz => h z (List.mem_cons_of_mem _ hz)).map fun ys hys => List.forall_mem_cons.mpr ⟨hy, hys⟩

theorem filterMapM {f : γ → Emit (Option β)} : ∀ {xs : List γ}, (∀ x ∈ xs, Yields (f x) (∀ y ∈ ·, Q y)) →
    Yields (xs.filterMapM f) (∀ y ∈ ·, Q y)
  | [], _ => by
    rw [List.filterMapM_nil]
    exact .pure (List.forall_mem_nil _)
  | x :: xs, h => by
    have hrest := filterMapM fun z hz => h z (List.mem_cons_of_mem x hz)
    rw [List.filterMapM_cons]
    refine (h x List.mem_cons_self).bind fun y hy => ?_
    cases y with
    | none => exact hrest
    | some y => exact hrest.map fun ys hys => List.forall_mem_cons.mpr ⟨hy y rfl, hys⟩

end Yields

theorem importWith_yields {f : ImportTable → Except AliasCollision (String × ImportTable)}
    (hf : ∀ {t name t'}, t.Quiet → f t = .ok (name, t') → t'.Quiet ∧ Quiet name) :
    Yields (Emit.importWith f) Quiet := by
  intro d name d' hd h
  rw [importWith_eq] at h
  cases hr : f d.imports with
  | ok r =>
    rw [hr] at h
    cases h
    exact hf hd hr
  | error c =>
    rw [hr] at h
    cases h

theorem moduleAlias_yields {module short : String} (hmodule : Quiet module) (hshort : Quiet short) :
    Yields (Emit.moduleAlias module short) Quiet :=
  importWith_yields fun ht hu => ht.use hmodule (by split; exacts [ImportTable.baseName_quiet hmodule, hshort]) hu

theorem typingAlias_yields : Yields Emit.typingAlias Quiet := moduleAlias_yields (.literal rfl rfl) (.literal rfl rfl)

/-- Code and bindings that can be laid out in blocks. -/
structure Emitted.Proper (e : Emitted) : Prop where
  code : Code.Proper e.code
  bindings : ∀ line ∈ e.bindings, Line 0 false line

/-- A graph without documentation whose names are identifiers, and modules with quiet names. -/
structure Site.Sound (s : Site) (o : Options) : Prop where
  identified : s.graph.Identified
  undocumented : Undocumented s.graph
  modules : ∀ file, Quiet (s.moduleFor file)
  runtime : Quiet o.runtime
  reflection : Quiet o.reflectionModule

namespace Site.Sound

variable (h : s.Sound o)
include h

theorem runtimeAlias : Yields (Emit.runtimeAlias o) Quiet := moduleAlias_yields h.runtime (.literal rfl rfl)

theorem reflectionAlias : Yields (Emit.reflectionAlias o) Quiet := moduleAlias_yields h.reflection (.literal rfl rfl)

/-! ### References -/

theorem pathTo_quiet (n : Node) {last : String} (hlast : Quiet last) : Quiet (pathTo s.graph n last) := by
  refine Quiet.join (.literal rfl rfl) (List.forall_mem_append.mpr ⟨fun name hname => ?_, ?_⟩)
  · obtain ⟨p, hp, -, rfl⟩ := mem_outerClasses hname
    exact className_quiet h.identified hp
  · exact List.forall_mem_singleton.mpr hlast

theorem expression {target : Node} {path : String} (hpath : Quiet path) : Yields (s.expression target path) Quiet := by
  unfold Site.expression
  split
  · exact .pure hpath
  · split
    · exact .fail _
    next f _ =>
      have hmodule := h.modules f
      refine (importWith_yields fun ht hu => ?_).map fun name hname => (hname.lit rfl rfl).append hpath
      exact ht.use hmodule (ImportTable.baseName_quiet hmodule) hu

theorem classRef {target : Node} (ht : target ∈ s.graph.nodes) : Yields (s.classRef target) Quiet :=
  h.expression (h.pathTo_quiet target (className_quiet h.identified ht))

theorem shapeRef {target : Node} (ht : target ∈ s.graph.nodes) : Yields (s.shapeRef target) Quiet :=
  h.expression (h.pathTo_quiet target (shapeName_quiet h.identified ht))

omit h in
theorem targetOf (n : Node) (r : Reference) : Yields (s.targetOf n r) (∀ target ∈ ·, target ∈ s.graph.nodes) := by
  unfold Site.targetOf
  split
  · exact .pure fun target ht => List.mem_of_getElem? ht
  · intro d a d' hd hx
    cases hx
    exact ⟨hd, by simp⟩

/-! ### Fields and messages -/

theorem emitElement (n : Node) (leaf : Leaf) : Yields (emitElement s n leaf) Element.Quiet := by
  cases leaf with
  | scalar k => exact .pure trivial
  | reference r =>
    refine (targetOf n r).bind fun target ht => ?_
    cases target with
    | none => exact .pure trivial
    | some target =>
      have ht := ht target rfl
      refine (h.classRef ht).bind fun ref href => ?_
      split
      · exact .pure href
      · exact (h.shapeRef ht).map fun shape hshape => ⟨href, hshape⟩

omit h in
theorem arityOf (t : ValueType) : Yields (Codegen.arityOf t) fun _ => True := by
  unfold Codegen.arityOf
  split
  · exact .pure trivial
  · exact .fail _

omit h in
theorem mem_childrenOf {c : Node} (hc : c ∈ s.graph.childrenOf n) : c ∈ s.graph.nodes := by
  obtain ⟨i, -, hi⟩ := List.mem_filterMap.mp hc
  exact List.mem_of_getElem? hi

theorem planFields (n : Node) : Yields (planFields s n) (∀ p ∈ ·, p.Plain) := by
  unfold Codegen.planFields
  refine (Yields.mapM fun x _ => h.emitElement x.1 x.2.type.leaf).bind fun elements helements => ?_
  refine (Yields.mapM fun x _ => arityOf x.2.type).map fun arities _ => List.forall_mem_map.mpr ?_
  rintro ⟨⟨c, f⟩, element, arity⟩ hmem
  obtain ⟨hfield, hzip⟩ := List.of_mem_zip hmem
  obtain ⟨c', hc, hfield⟩ := List.mem_filterMap.mp hfield
  obtain ⟨f', hf, heq⟩ := Option.map_eq_some_iff.mp hfield
  cases heq
  have hk : c.kind ≠ .package := by
    rw [Node.kind, Node.field?_eq_some_iff.mp hf]
    rintro ⟨⟩
  have hc := mem_childrenOf hc
  exact ⟨guard_usable (h.identified.entries c hc hk).name _, h.undocumented.nodes c hc,
    helements element (List.of_mem_zip hzip).1⟩

/-- A path begins with a name that can be used. -/
theorem pathLine (hn : n ∈ s.graph.nodes) (hk : n.kind ≠ .package) :
    Begun false (localPath s.graph n ++ ".reflection = ") := by
  have hparts : ∀ name ∈ outerClasses s.graph s.graph.nodes.length n ++ [className n], Usable name := by
    refine List.forall_mem_append.mpr ⟨fun name hname => ?_, List.forall_mem_singleton.mpr ?_⟩
    · obtain ⟨p, hp, hpk, rfl⟩ := mem_outerClasses hname
      exact identifier_usable h.identified hp (by rw [hpk]; decide)
    · exact identifier_usable h.identified hn hk
  rw [localPath, pathTo]
  rcases hpath : outerClasses s.graph s.graph.nodes.length n ++ [className n] with _ | ⟨first, _ | ⟨second, rest⟩⟩
  · simp at hpath
  all_goals rw [hpath, List.forall_mem_cons] at hparts
  · rw [show Text.join "." [first] = first by simp [Text.join]]
    exact hparts.1.begun (.literal rfl rfl) ⟨'.', _, rfl, by decide⟩
  · have hrest : Quiet (Text.join "." (second :: rest)) := Quiet.join (.literal rfl rfl) fun name hname =>
      (hparts.2 name hname).quiet
    rw [Text.join, String.intercalate_cons_of_ne_nil (List.cons_ne_nil second rest)]
    exact ((hparts.1.begun (.literal rfl rfl) ⟨'.', _, rfl, by decide⟩).append hrest.single).lit rfl rfl

omit h in
theorem checkNumbers (numbers : List Int) : Yields (checkNumbers numbers) fun _ => True := by
  unfold Codegen.checkNumbers
  split
  · exact .fail _
  · exact @Yields.pure Unit (fun _ => True) () trivial

theorem emitEnum (hn : n ∈ s.graph.nodes) (hk : n.kind = .enum) : Yields (emitEnum s o n) Emitted.Proper := by
  have henums : Yields Emit.enumAlias Quiet := moduleAlias_yields (.literal rfl rfl) (.literal rfl rfl)
  refine henums.bind fun enums he => (checkNumbers _).bind fun _ _ => ?_
  refine h.reflectionAlias.map fun reflection hf => ⟨?_, ?_⟩
  · exact enumCode_proper h.identified h.undocumented hn he
  · have hgiven := (h.pathLine hn (by rw [hk]; decide)).append hf.single
    have hpath := path_quiet h.identified hn
    exact List.forall_mem_singleton.mpr (((hgiven.lit rfl rfl).append hpath.single).stop rfl rfl)

omit h in
theorem emitEach {f : Node → Emit Emitted} {ns : List Node} (hf : ∀ n ∈ ns, Yields (f n) Emitted.Proper) :
    Yields (emitEach f ns) Emitted.Proper := by
  suffices hfold : ∀ (ns : List Node) {acc : Emitted}, (∀ n ∈ ns, Yields (f n) Emitted.Proper) → acc.Proper →
      Yields (ns.foldlM (fun acc n => do
        let e ← f n
        return acc.append ⟨.blank 1 :: e.code, e.bindings⟩) acc) Emitted.Proper from
    hfold ns hf ⟨.nil, List.forall_mem_nil _⟩
  intro ns
  induction ns with
  | nil =>
    intro acc _ hacc
    exact .pure hacc
  | cons n ns ih =>
    intro acc hf hacc
    obtain ⟨hn, hns⟩ := List.forall_mem_cons.mp hf
    rw [List.foldlM_cons]
    refine (hn.map fun e he => ?_).bind fun acc hacc => ih hns hacc
    exact ⟨hacc.code.append ((Proper.blank 1).append he.code),
      List.forall_mem_append.mpr ⟨hacc.bindings, he.bindings⟩⟩

theorem emitMessage : ∀ (fuel : Nat) (spacing : Int) {n : Node}, n ∈ s.graph.nodes →
    Yields (emitMessage s o fuel spacing n) Emitted.Proper
  | 0, _, _, _ => .pure ⟨.nil, List.forall_mem_nil _⟩
  | fuel + 1, spacing, n, hn => by
    have hchild {k : Kind} {c : Node} (hc : c ∈ s.graph.childrenOfKind n k) : c ∈ s.graph.nodes ∧ c.kind = k := by
      obtain ⟨hc, hck⟩ := List.mem_filter.mp hc
      exact ⟨mem_childrenOf hc, eq_of_beq hck⟩
    refine typingAlias_yields.bind fun typing ht => (h.planFields n).bind fun plans hp => ?_
    refine h.runtimeAlias.bind fun runtime hr => h.reflectionAlias.bind fun reflection hf => ?_
    refine (emitEach fun c hc => h.emitEnum (hchild hc).1 (hchild hc).2).bind fun enums henums => ?_
    refine (emitEach fun c hc => emitMessage fuel 1 (hchild hc).1).bind fun messages hmessages => ?_
    refine (checkNumbers _).map fun _ _ => ⟨?_, ?_⟩
    · have hshape := messageShapeCode_proper h.identified h.undocumented hn hp ht
      have hnested := henums.code.append hmessages.code
      exact (hshape.append (.blank spacing)).append
        (messageClassCode_proper h.identified h.undocumented hn hp ht hr hf hnested)
    · exact List.forall_mem_append.mpr ⟨henums.bindings, hmessages.bindings⟩

/-! ### Services and declarations -/

theorem messageRefs (method : Node) (r : Reference) :
    Yields (messageRefs s method r) fun refs => Quiet refs.1 ∧ Quiet refs.2 := by
  refine (targetOf method r).bind fun target ht => ?_
  cases target with
  | none => exact .pure ⟨.literal rfl rfl, .literal rfl rfl⟩
  | some target =>
    have ht := ht target rfl
    exact (h.classRef ht).bind fun ref href => (h.shapeRef ht).map fun shape hshape => ⟨href, hshape⟩

theorem emitMethod (hn : n ∈ s.graph.nodes) (m : Method) : Yields (emitMethod s n m) Proper := by
  have hname := quiet_of_dotted (h.identified.names n hn)
  refine typingAlias_yields.bind fun typing ht => (h.messageRefs n m.request).bind fun request hq => ?_
  exact (h.messageRefs n m.response).map fun response hs =>
    methodCode_proper (h.undocumented.nodes n hn) hname ht hq.1 hq.2 hs.1

theorem emitService (hn : n ∈ s.graph.nodes) : Yields (emitService s o n) Proper := by
  refine h.runtimeAlias.bind fun runtime hr => h.reflectionAlias.bind fun reflection hf => ?_
  refine (Yields.filterMapM (Q := Proper) fun c hc => ?_).map fun methods hmethods =>
    serviceCode_proper h.identified h.undocumented hn hr hf hmethods
  split
  · exact (h.emitMethod (mem_childrenOf hc) _).map fun code hcode => by simpa using hcode
  · exact .pure (by simp)

omit h in
theorem withBindings {e : Emitted} (he : e.Proper) : Proper (withBindings e) := by
  unfold Codegen.withBindings
  refine ((Proper.blank 2).append he.code).append ?_
  split
  · exact .nil
  · exact (Proper.blank 2).append (.ofLines he.bindings)

theorem extensionCode (hn : n ∈ s.graph.nodes) (hk : n.kind ≠ .package) {reflection : String}
    (hf : Quiet reflection) : Proper [extensionCode reflection n] := by
  have hname := identifier_usable h.identified hn hk
  have hpath := path_quiet h.identified hn
  have hbegun : Begun false (Naming.identifier n.name ++ " = ") :=
    hname.begun (.literal rfl rfl) ⟨' ', _, rfl, by decide⟩
  exact .line ((((hbegun.append hf.single).lit rfl rfl).append hpath.single).stop rfl rfl)

theorem emitDeclaration (hn : n ∈ s.graph.nodes) (previous : Option Kind) :
    Yields (emitDeclaration s o previous n) Proper := by
  have hkind {b : Body} (hb : n.body = b) : n.kind = b.kind := congrArg Body.kind hb
  unfold Codegen.emitDeclaration
  cases hb : n.body with
  | enum _ => exact (h.emitEnum hn (hkind hb)).map fun _ he => withBindings he
  | message _ _ => exact (h.emitMessage _ 2 hn).map fun _ he => withBindings he
  | service => exact (h.emitService hn).map fun _ hcode => (Proper.blank 2).append hcode
  | field f =>
    have hk : n.kind ≠ .package := by
      rw [hkind hb]
      rintro ⟨⟩
    have hrest : Yields (do
        let reflection ← Emit.reflectionAlias o
        return (if previous == some .field then [] else [.blank 2]) ++ [Codegen.extensionCode reflection n])
        Proper := by
      refine h.reflectionAlias.map fun reflection hf => Proper.append ?_ (h.extensionCode hn hk hf)
      split
      · exact .nil
      · exact .blank 2
    dsimp only
    cases f.type.leaf with
    | reference r => exact ((targetOf n r).map (Q := fun _ => True) fun _ _ => trivial).bind fun _ _ => hrest
    | scalar k => exact hrest
  | package | method => exact .fail _

/-- **The code of declarations is proper.** -/
theorem emitDeclarations : ∀ (previous : Option Kind) {ns : List Node}, (∀ n ∈ ns, n ∈ s.graph.nodes) →
    Yields (emitDeclarations s o previous ns) Proper
  | _, [], _ => .pure .nil
  | previous, n :: _, hns => by
    refine (h.emitDeclaration (hns n List.mem_cons_self) previous).bind fun code hcode => ?_
    have hrest := emitDeclarations (some n.kind) fun m hm => hns m (List.mem_cons_of_mem _ hm)
    exact hrest.map fun rest hrest => hcode.append hrest

end Site.Sound

/-! ## Modules -/

theorem qualified_quiet {module : String} (hpackage : Quiet o.package) (hmodule : Quiet module) :
    Quiet (o.qualified module) := by
  unfold Options.qualified
  split
  · exact hmodule
  · split
    · exact hpackage
    · exact (hpackage.lit rfl rfl).append hmodule

theorem moduleForFile_quiet (hpackage : Quiet o.package) (file : String) : Quiet (o.moduleForFile file) := by
  refine qualified_quiet hpackage (Quiet.join (.literal rfl rfl) fun part hpart => ?_)
  obtain ⟨part, -, rfl⟩ := List.mem_map.mp hpart
  exact quiet_of_word (component_isWord o.naming part)

theorem statement_line {i : Import} (hmodule : Quiet i.module) (hname : Quiet i.name) : Line 0 false i.statement := by
  have hbegun : Begun false "import " := .literal rfl rfl
  unfold Import.statement
  split
  · exact hbegun.quiet rfl hmodule
  · exact ((hbegun.append hmodule.single).lit rfl rfl).quiet (opensBlock_append _ (by decide)) hname

theorem prologue_filled {file : String} {imports : ImportTable} (hfile : Single file) (himports : imports.Quiet) :
    Filled (prologue file imports) := by
  have hheader : Line 0 false (header file) := by
    unfold header
    refine (Begun.append (.literal rfl rfl) ?_).stop rfl rfl
    split
    · exact .literal rfl rfl
    · exact (Single.literal rfl rfl).append hfile
  have hstatements : Proper (Code.ofLines imports.statements) := .ofLines fun statement hmem => by
    obtain ⟨i, hi, rfl⟩ := List.mem_map.mp hmem
    exact statement_line (himports i hi).1 (himports i hi).2
  have hfirst : Filled [.line (header file), .line "from __future__ import annotations", .blank 1] :=
    (Filled.line hheader).append ((Proper.line (.literal rfl rfl)).append (.blank 1))
  exact (hfirst.append hstatements).append (.blank 2)

variable {sources : Sources} {g : Graph} {l : Loader} {groups : List FileGroup} {group : FileGroup} {text : String}

/-- **Generated modules are properly indented blocks.** For a file of a loaded graph without documentation that is
assembled, where neither the name of the file nor those of the package and of the runtime module hold a line feed, and
the latter no colon: the written lines of the text begin at no indentation, all are indented by a multiple of four
blanks, the next one is four blanks further in behind a line that ends with a colon and no further in behind any other,
and the last does not end with one. These lines are just those that begin with a keyword for a block. All other lines
of the text are empty. -/
theorem module_in_blocks [Source.CharacterNames] (hload : loadSources sources .empty = .ok g l)
    (hplan : plan g o = .ok groups)
    (hgroup : group ∈ groups) (hok : assemble g o group = .ok text) (hdocs : Undocumented g)
    (hfile : Single group.file) (hpackage : Quiet o.package) (hruntime : Quiet o.runtime) :
    Blocks 0 (writtenLines text) ∧ ∀ line ∈ textLines text, Code.isWritten line = false → line = "" := by
  have hsound : Site.Sound ⟨g, group.file, o.moduleForFile⟩ o :=
    ⟨loadSources_identified hload, hdocs, moduleForFile_quiet hpackage, hruntime,
      qualified_quiet hpackage (.literal rfl rfl)⟩
  obtain ⟨body, d, hbody, -, -, htext⟩ := emitted_of_assembled (Prod.ext hok rfl)
  obtain ⟨rfl, hk, -, -⟩ := plan_eq_ok hplan
  have hnodes : ∀ n ∈ group.ordered, n ∈ g.nodes := fun n hn =>
    (emittable_of_ordered (loadSources_final empty_formed hload).toShaped hk hgroup n hn).mem
  obtain ⟨himports, hproper⟩ := hsound.emitDeclarations none hnodes (.empty o.maxSuffix) body d
    (List.forall_mem_nil _) hbody
  have hprologue := prologue_filled hfile himports
  have hlays := hprologue.proper.lines.append hproper.lines
  have hne : Code.lines (prologue group.file d.imports) ++ Code.lines body ≠ [] := fun he =>
    hlays.written (hprologue.append hproper).hasLine (by rw [he]; rfl)
  rw [htext]
  refine ⟨?_, fun line hline hblank => ?_⟩
  · rw [Code.writtenLines_moduleText hlays.single hne]
    exact hlays.blocks
  · obtain ⟨k, hk⟩ := Code.textLines_moduleText hlays.single hne
    have hmem := hk ▸ List.mem_append_left (List.replicate k "") hline
    rcases List.mem_append.mp hmem with hmem | hmem
    · exact hlays.blank line hmem hblank
    · exact List.mem_singleton.mp hmem

theorem spread_undocumented : succeedsWith (loadSources spread) .empty (fun g => decide (Undocumented g)) = true := by
  unfold loadSources loadOne
  rw [Load.load_eq_known spreadFiles (by decide +kernel)]
  decide +kernel

/-- The modules of two files, one with a message inside a message. -/
theorem module_in_blocks_spread : ∃ g l groups group text, loadSources spread .empty = .ok g l ∧
    plan g indexed = .ok groups ∧ group ∈ groups ∧ assemble g indexed group = .ok text ∧ Undocumented g ∧
    Blocks 0 (writtenLines text) ∧ ∀ line ∈ textLines text, Code.isWritten line = false → line = "" := by
  obtain ⟨g, l, groups, hload, hplan, hok, hfiles, -⟩ := spread_loads
  obtain ⟨g', l', hload', hdocs⟩ := exists_of_succeedsWith spread_undocumented
  obtain ⟨rfl, rfl⟩ := EStateM.Result.ok.inj (hload.symm.trans hload')
  obtain ⟨group, hgroup, hfile⟩ := List.mem_map.mp (hfiles ▸ List.mem_cons_self : "a.proto" ∈ groups.map (·.file))
  obtain ⟨text, htext⟩ := hok group hgroup
  have hdocs := of_decide_eq_true hdocs
  exact ⟨g, l, groups, group, text, hload, hplan, hgroup, htext, hdocs, module_in_blocks hload hplan hgroup htext hdocs
    (hfile ▸ .literal rfl rfl) (.literal rfl rfl) (.literal rfl rfl)⟩

end ProtoBind.Codegen
