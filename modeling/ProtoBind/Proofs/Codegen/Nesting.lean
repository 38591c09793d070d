/-
References match the nesting of classes.

A reference takes the path of its declaration from the messages around it, going
up; the classes are emitted going down, a message's enums first, then its
messages. Both come to the same: every message and enum of a file has its class
in the classes that its path names (`MessageIn`, `EnumIn`, step by step from a
message to those nested in it), and from another file the path is behind the
alias of the module planned for the file (`references_nested`).
-/
import Mathlib.Data.List.Infix
import ProtoBind.Proofs.Codegen.Exports
import ProtoBind.Proofs.Codegen.Lasting
import ProtoBind.Proofs.Codegen.Layout

namespace ProtoBind.Codegen

open Schema Schema.Graph
open ImportTable (Call afterAll aliases candidate)
open Code (Within HasClass classLine)

variable {g : Graph} {s : Site} {o : Options} {n : Node} {imports : List Import} {body : List Code} {path : List String}

/-! ## Paths -/

/-- As much fuel as there are nodes before is enough. -/
theorem outerClasses_stable (hg : g.Arena) {fuel fuel' : Nat} (hn : n ∈ g.nodes) (h : n.index < fuel)
    (h' : n.index < fuel') : outerClasses g fuel n = outerClasses g fuel' n := by
  induction fuel generalizing fuel' n with
  | zero => omega
  | succ fuel ih =>
    obtain ⟨k, rfl⟩ := Nat.exists_eq_succ_of_ne_zero (by omega : fuel' ≠ 0)
    rw [outerClasses, outerClasses]
    cases hp : g.parentOf n with
    | none => rfl
    | some p =>
      obtain ⟨hpn, hindex⟩ := hg.parentOf_iff.mp hp
      have hlt := hg.parent_lt hn hindex
      dsimp only
      rw [ih hpn (by omega) (by omega : p.index < k)]

/-- The messages around a node, the outermost first, as the classes they become. -/
def outerPath (g : Graph) (n : Node) : List String := outerClasses g g.nodes.length n

theorem outerPath_nested (hg : g.Arena) (hn : n ∈ g.nodes) {p : Node} (hp : g.parentOf n = some p) :
    outerPath g n = if p.kind = .message then outerPath g p ++ [className p] else [] := by
  obtain ⟨hpn, hindex⟩ := hg.parentOf_iff.mp hp
  have hlt := hg.parent_lt hn hindex
  have hlength := hg.lt_length hn
  obtain ⟨k, hk⟩ := Nat.exists_eq_add_of_lt (Nat.lt_of_le_of_lt (Nat.zero_le _) hlength)
  rw [Nat.zero_add] at hk
  have hstable : outerClasses g g.nodes.length p = outerClasses g k p :=
    outerClasses_stable hg hpn (by omega) (by omega)
  rw [outerPath, outerPath, hstable, hk, outerClasses, hp]

theorem outerPath_words (hw : ∀ n ∈ g.nodes, n.kind ≠ .package → Worded n) (n : Node) :
    ∀ name ∈ outerPath g n, ∀ c ∈ name.toList, isWord c = true :=
  outerClasses_isWord hw _ n

/-- The parts of a path. -/
theorem splitOnChar_pathTo (hw : ∀ n ∈ g.nodes, n.kind ≠ .package → Worded n) {last : String}
    (hlast : ∀ c ∈ last.toList, isWord c = true) : Text.splitOnChar '.' (pathTo g n last) = outerPath g n ++ [last] := by
  refine splitOnChar_join (fun part hpart hdot => ?_) (by simp)
  have hword : ∀ c ∈ part.toList, isWord c = true := by
    rcases List.mem_append.mp hpart with hpart | hpart
    · exact outerPath_words hw n part hpart
    · rwa [List.mem_singleton.mp hpart]
  exact absurd (hword '.' hdot) (by decide)

/-! ## Runs -/

/-- The code of each of the nodes is in that of all, and what was imported for it stays. -/
theorem emitEach_run {f : Node → Emit Emitted} (hf : ∀ n old, Keeps (Extends old) (f n)) {ns : List Node} {e : Emitted}
    {d d' : Draft} (h : emitEach f ns d = .ok e d') (hn : n ∈ ns) :
    ∃ e₁, Part (f n) e₁ d'.imports.entries ∧ e₁.code <:+: e.code := by
  have hfold : ∀ (ns : List Node) {acc : Emitted} {d : Draft},
      (ns.foldlM (fun acc n => do
        let e ← f n
        return acc.append ⟨.blank 1 :: e.code, e.bindings⟩) acc : Emit Emitted) d = .ok e d' →
      acc.code <:+: e.code ∧ ∀ n ∈ ns, ∃ e₁, Part (f n) e₁ d'.imports.entries ∧ e₁.code <:+: e.code := by
    intro ns
    induction ns with
    | nil =>
      intro acc d h
      cases h
      exact ⟨List.infix_refl _, List.forall_mem_nil _⟩
    | cons m ns ih =>
      intro acc d h
      rw [List.foldlM_cons] at h
      obtain ⟨acc', d₁, hstep, h⟩ := bind_eq_ok.mp h
      obtain ⟨e₁, d₂, he, hstep⟩ := bind_eq_ok.mp hstep
      cases hstep
      obtain ⟨hacc, hrest⟩ := ih h
      have hlater : d₁.imports.entries <+: d'.imports.entries :=
        Keeps.extends (fun old => Keeps.foldlM (fun _ n => (hf n old).map _) ns _) h
      have hbefore : acc.code <:+: acc.code ++ .blank 1 :: e₁.code := (List.prefix_append _ _).isInfix
      have hlast : e₁.code <:+: acc.code ++ .blank 1 :: e₁.code := ⟨acc.code ++ [.blank 1], [], by simp⟩
      exact ⟨hbefore.trans hacc, List.forall_mem_cons.mpr ⟨⟨e₁, ⟨d, _, he, hlater⟩, hlast.trans hacc⟩, hrest⟩⟩
  exact (hfold ns h).2 n hn

theorem enumCode_class (enums : String) (n : Node) :
    ∃ rest inner, enumCode enums n = [.line (classLine (className n) rest), .block inner] :=
  ⟨enums ++ ".IntEnum):", _, by simp only [enumCode, classLine, String.append_assoc]; rfl⟩

theorem messageShapeCode_class (typing : String) (n : Node) (plans : List FieldPlan) :
    ∃ rest inner, messageShapeCode typing n plans = [.line (classLine (shapeName n) rest), .block inner] :=
  ⟨typing ++ ".TypedDict, total=False):", _, by simp only [messageShapeCode, classLine, String.append_assoc]; rfl⟩

theorem messageClassCode_class (a : Aliases) (n : Node) (plans : List FieldPlan) (nested : List Code) :
    ∃ rest inner, messageClassCode a n plans nested = [.line (classLine (className n) rest), .block inner] ∧
      nested <:+: inner := by
  refine ⟨a.runtime ++ ".Message):", _, by simp only [messageClassCode, classLine, String.append_assoc]; rfl, ?_⟩
  have hbefore {code : List Code} (more : List Code) (h : nested <:+: code) : nested <:+: code ++ more :=
    h.trans (List.prefix_append code more).isInfix
  exact hbefore _ (hbefore _ (hbefore _ (hbefore _ (hbefore _ (hbefore _ (List.suffix_append _ nested).isInfix)))))

/-- What the code of a message is made of: its two classes, and in the second one the code of what is nested in it. -/
theorem emitMessage_run {fuel : Nat} {spacing : Int} {e : Emitted} {d d' : Draft}
    (h : emitMessage s o (fuel + 1) spacing n d = .ok e d') :
    (∃ rest inner, [.line (classLine (shapeName n) rest), .block inner] <:+: e.code) ∧
    ∃ rest inner, [.line (classLine (className n) rest), .block inner] <:+: e.code ∧
      (∀ c ∈ s.graph.childrenOfKind n .enum, ∃ e₁, Part (emitEnum s o c) e₁ d'.imports.entries ∧ e₁.code <:+: inner) ∧
      ∀ c ∈ s.graph.childrenOfKind n .message,
        ∃ e₁, Part (emitMessage s o fuel 1 c) e₁ d'.imports.entries ∧ e₁.code <:+: inner := by
  have hlasting := Extends.lasting s o
  obtain ⟨a, plans, enums, messages, -, ⟨d₁, d₂, henums, hlater⟩, ⟨d₃, d₄, hmessages, hlast⟩, rfl⟩ := emitMessage_ok h
  obtain ⟨rest, inner, hshape⟩ := messageShapeCode_class a.typing n plans
  obtain ⟨rest', inner', hclass, hnested⟩ := messageClassCode_class a n plans (enums.append messages).code
  refine ⟨⟨rest, inner, ?_⟩, rest', inner', ?_, fun c hc => ?_, fun c hc => ?_⟩
  · rw [← hshape]
    exact (List.prefix_append _ _).isInfix.trans (List.prefix_append _ _).isInfix
  · rw [← hclass]
    exact (List.suffix_append _ _).isInfix
  · obtain ⟨e₁, hpart, hcode⟩ := emitEach_run (fun n old => (hlasting old).emitEnum n) henums hc
    exact ⟨e₁, hpart.mono hlater, (hcode.trans (List.prefix_append _ _).isInfix).trans hnested⟩
  · obtain ⟨e₁, hpart, hcode⟩ := emitEach_run (fun n old => (hlasting old).emitMessage fuel 1 n) hmessages hc
    exact ⟨e₁, hpart.mono hlast, (hcode.trans (List.suffix_append _ _).isInfix).trans hnested⟩

/-- The code of each declaration is in that of all. -/
theorem emitDeclarations_run {d' : Draft} : ∀ {ns : List Node} {previous : Option Kind} {code : List Code}
    {d : Draft}, emitDeclarations s o previous ns d = .ok code d' → n ∈ ns →
      ∃ previous code₁, Part (emitDeclaration s o previous n) code₁ d'.imports.entries ∧ code₁ <:+: code
  | [], _, _, _, _, hn => nomatch hn
  | m :: ns, previous, code, d, h, hn => by
    obtain ⟨first, d₁, hfirst, h⟩ := bind_eq_ok.mp h
    obtain ⟨rest, d₂, hrest, h⟩ := bind_eq_ok.mp h
    cases h
    rcases List.mem_cons.mp hn with rfl | hn
    · have hlater := Keeps.extends (fun old => (Extends.lasting s o old).emitDeclarations _ ns) hrest
      exact ⟨previous, first, ⟨d, d₁, hfirst, hlater⟩, (List.prefix_append _ _).isInfix⟩
    · obtain ⟨previous', code₁, hpart, hcode⟩ := emitDeclarations_run hrest hn
      exact ⟨previous', code₁, hpart, hcode.trans (List.suffix_append _ _).isInfix⟩

theorem withBindings_code (e : Emitted) : e.code <:+: withBindings e :=
  ⟨[.blank 2], _, rfl⟩

/-! ## Classes in place -/

/-- The code of a message was emitted, with fuel for all that is nested in it, and it stands in the classes on the
path. -/
def MessageIn (s : Site) (o : Options) (imports : List Import) (body : List Code) (path : List String) (n : Node) : Prop :=
  ∃ fuel spacing e, Part (emitMessage s o fuel spacing n) e imports ∧ s.graph.nodes.length ≤ fuel + n.index ∧
    Within e.code body path

/-- The code of an enum was emitted, and it stands in the classes on the path. -/
def EnumIn (s : Site) (o : Options) (imports : List Import) (body : List Code) (path : List String) (n : Node) : Prop :=
  ∃ e, Part (emitEnum s o n) e imports ∧ Within e.code body path

/-- The code of a node that becomes a class stands in the classes on the path. -/
structure CodeIn (s : Site) (o : Options) (imports : List Import) (body : List Code) (path : List String) (n : Node) :
    Prop where
  message : n.kind = .message → MessageIn s o imports body path n
  enum : n.kind = .enum → EnumIn s o imports body path n

/-- An outermost declaration stands by itself. -/
theorem CodeIn.outermost {ns : List Node} {d d' : Draft} (h : emitDeclarations s o none ns d = .ok body d') (hn : n ∈ ns) :
    CodeIn s o d'.imports.entries body [] n := by
  obtain ⟨previous, code, ⟨d₁, d₂, hrun, hlater⟩, hcode⟩ := emitDeclarations_run h hn
  unfold emitDeclaration at hrun
  refine ⟨fun hk => ?_, fun hk => ?_⟩ <;> unfold Node.kind at hk
  · cases hb : n.body with
    | message dialect groups =>
      rw [hb] at hrun
      obtain ⟨e, d₃, he, hrun⟩ := bind_eq_ok.mp hrun
      cases hrun
      exact ⟨_, 2, e, ⟨d₁, d₂, he, hlater⟩, Nat.le_add_right _ _, .here ((withBindings_code e).trans hcode)⟩
    | _ =>
      rw [hb] at hk
      cases hk
  · cases hb : n.body with
    | enum values =>
      rw [hb] at hrun
      obtain ⟨e, d₃, he, hrun⟩ := bind_eq_ok.mp hrun
      cases hrun
      exact ⟨e, ⟨d₁, d₂, he, hlater⟩, .here ((withBindings_code e).trans hcode)⟩
    | _ =>
      rw [hb] at hk
      cases hk

/-- **What is nested in a message stands in its class.** -/
theorem MessageIn.nested (h : MessageIn s o imports body path n) (hg : s.graph.Arena) (hn : n ∈ s.graph.nodes) (hw : Worded n)
    {c : Node} (hc : c ∈ s.graph.childrenOf n) : CodeIn s o imports body (path ++ [className n]) c := by
  obtain ⟨fuel, spacing, e, ⟨d, d', hrun, hlater⟩, hfuel, hwithin⟩ := h
  have hlength := hg.lt_length hn
  have hlt := hg.child_lt hn hc
  obtain ⟨k, rfl⟩ := Nat.exists_eq_succ_of_ne_zero (by omega : fuel ≠ 0)
  obtain ⟨-, rest, inner, hclass, henums, hmessages⟩ := emitMessage_run hrun
  refine ⟨fun hk => ?_, fun hk => ?_⟩
  · obtain ⟨e₁, hpart, hcode⟩ := hmessages c (List.mem_filter.mpr ⟨hc, beq_iff_eq.mpr hk⟩)
    exact ⟨k, 1, e₁, hpart.mono hlater, by omega, hwithin.into hclass hw.className hcode⟩
  · obtain ⟨e₁, hpart, hcode⟩ := henums c (List.mem_filter.mpr ⟨hc, beq_iff_eq.mpr hk⟩)
    exact ⟨e₁, hpart.mono hlater, hwithin.into hclass hw.className hcode⟩

theorem MessageIn.hasClass (h : MessageIn s o imports body path n) (hg : s.graph.Arena) (hn : n ∈ s.graph.nodes) (hw : Worded n)
    (before : List String) : HasClass (before ++ Code.lines body) path (className n) ∧
      HasClass (before ++ Code.lines body) path (shapeName n) := by
  obtain ⟨fuel, spacing, e, ⟨d, d', hrun, -⟩, hfuel, hwithin⟩ := h
  have hlength := hg.lt_length hn
  obtain ⟨k, rfl⟩ := Nat.exists_eq_succ_of_ne_zero (by omega : fuel ≠ 0)
  obtain ⟨⟨rest, inner, hshape⟩, rest', inner', hclass, -⟩ := emitMessage_run hrun
  exact ⟨hwithin.hasClass hclass hw.className before, hwithin.hasClass hshape hw.shapeName before⟩

theorem EnumIn.hasClass (h : EnumIn s o imports body path n) (hw : Worded n) (before : List String) :
    HasClass (before ++ Code.lines body) path (className n) := by
  obtain ⟨e, ⟨d, d', hrun, -⟩, hwithin⟩ := h
  obtain ⟨enums, d₁, -, hrun⟩ := bind_eq_ok.mp hrun
  obtain ⟨-, d₂, -, hrun⟩ := bind_eq_ok.mp hrun
  obtain ⟨reflection, d₃, -, hrun⟩ := bind_eq_ok.mp hrun
  cases hrun
  obtain ⟨rest, inner, hclass⟩ := enumCode_class enums n
  exact hwithin.hasClass (by rw [hclass]) hw.className before

/-- **Every message and enum of the file stands in the classes of the messages around it.** -/
theorem CodeIn.of_emitted {ns : List Node} {d d' : Draft} (hg : s.graph.Shaped) (hf : s.graph.Filed)
    (hw : ∀ n ∈ s.graph.nodes, n.kind ≠ .package → Worded n)
    (hns : ∀ n, Outermost s.graph n → n.file = some s.file → n ∈ ns)
    (hbody : emitDeclarations s o none ns d = .ok body d') :
    ∀ (i : Nat) {n : Node}, n.index = i → n ∈ s.graph.nodes → n.kind = .message ∨ n.kind = .enum →
      n.file = some s.file → CodeIn s o d'.imports.entries body (outerPath s.graph n) n := by
  intro i
  induction i using Nat.strong_induction_on with
  | _ i ih =>
    rintro n rfl hn hk hfile
    have hpackage : n.kind ≠ .package := by rcases hk with hk | hk <;> rw [hk] <;> decide
    obtain ⟨p, hp⟩ := hg.toArena.exists_parentOf hn hpackage
    obtain ⟨hpn, hindex⟩ := hg.parentOf_iff.mp hp
    rw [outerPath_nested hg.toArena hn hp]
    rcases (hg.placed hn hpn hindex).kinds with ⟨hpk, -⟩ | ⟨hpk, -⟩ | ⟨-, hmethod⟩
    · rw [if_neg (by rw [hpk]; decide)]
      exact .outermost hbody (hns n ⟨hn, hpackage, p, hp, hpk⟩ hfile)
    · have hpk' : p.kind ≠ .package := by rw [hpk]; decide
      have hpfile : p.file = some s.file := hf.inside hn hpn hindex hpk' ▸ hfile
      rw [if_pos hpk]
      exact ((ih p.index (hg.parent_lt hn hindex) rfl hpn (.inl hpk) hpfile).message hpk).nested hg.toArena hpn
        (hw p hpn hpk') ((hg.mem_childrenOf hpn).mpr ⟨hn, hindex⟩)
    · rcases hk with hk | hk <;> exact absurd (hk.symm.trans hmethod) (by decide)

/-! ## References -/

theorem expression_here {target : Node} (h : target.file = some s.file) (path : String) (d : Draft) :
    s.expression target path d = .ok path d := by
  rw [Site.expression, if_pos h]
  rfl

theorem expression_elsewhere {target : Node} {file : String} (h : target.file = some file) (hne : file ≠ s.file)
    (path : String) (d : Draft) : s.expression target path d = match d.imports.useFile file (s.moduleFor file) with
      | .ok (name, t) => .ok (name ++ "." ++ path) { d with imports := t }
      | .error c => .error (.aliasTaken c) d := by
  have hexpression : s.expression target path d =
      (Emit.importWith (·.useFile file (s.moduleFor file)) >>= fun name => pure (name ++ "." ++ path)) d := by
    rw [Site.expression, if_neg (by rw [h]; simpa using hne), h]
  rw [hexpression]
  have himport := importWith_eq (·.useFile file (s.moduleFor file)) d
  cases hr : d.imports.useFile file (s.moduleFor file) with
  | ok r =>
    rw [hr] at himport
    rw [bind_of_ok himport]
    rfl
  | error c =>
    rw [hr] at himport
    exact bind_eq_error.mpr (.inl himport)

/-- An import stays, whatever is asked for later. -/
theorem mem_afterAll {moduleOf : String → String} {i : Import} : ∀ (calls : List Call) {t : ImportTable},
    t.Kept moduleOf → i ∈ t.entries → i ∈ (afterAll moduleOf t calls).entries
  | [], _, _, hi => hi
  | c :: calls, t, ht, hi => by
    obtain ⟨hkept, -, hcase⟩ := ht.after c
    refine mem_afterAll calls hkept ?_
    rcases hcase with ⟨-, hsame⟩ | ⟨j, -, hgrown⟩
    · rwa [hsame]
    · rw [hgrown]
      split
      · exact hi
      · exact List.mem_append_left _ hi

/-- How references to a declaration of a file come out, as the path itself or behind an alias. -/
structure Resolves (o : Options) (group : FileGroup) (ref : (file : String) → Emit String) (path : String) : Prop where
  /-- In the file itself a reference is the path. -/
  here : ∀ d, ref group.file d = .ok path d
  /-- In another file, after any calls for its imports, it is the path behind an alias, which then stands in the imports
  for the module of the group to the end; or there is no import of that module, and all of its aliases are taken. -/
  elsewhere : ∀ file, file ≠ group.file → ∀ calls d, d.imports = afterAll o.moduleForFile (.empty o.maxSuffix) calls →
    (∃ name d', ref file d = .ok (name ++ "." ++ path) d' ∧
      ∀ more, ⟨.file group.file, group.module, name⟩ ∈ (afterAll o.moduleForFile d'.imports more).entries) ∨
    (∃ c d', ref file d = .error (.aliasTaken c) d') ∧
      .file group.file ∉ d.imports.entries.map (·.target) ∧
      ∀ a ∈ aliases o.maxSuffix (candidate (ImportTable.baseName group.module)), a ∈ d.imports.names

theorem Resolves.of_expression {group : FileGroup} (hmodule : group.module = o.moduleForFile group.file)
    (hfile : n.file = some group.file) (path : String) :
    Resolves o group (fun file => Site.expression ⟨g, file, o.moduleForFile⟩ n path) path where
  here d := expression_here hfile path d
  elsewhere file hne calls d hd := by
    obtain ⟨hkept, hmax, -⟩ := ImportTable.afterAll_kept o.moduleForFile o.maxSuffix calls
    rw [← hd] at hkept hmax
    let c : Call := .file group.file
    have hentry (name : String) : c.entry o.moduleForFile name = ⟨.file group.file, group.module, name⟩ := by
      rw [hmodule]
      rfl
    have hexpression := expression_elsewhere (s := ⟨g, file, o.moduleForFile⟩) hfile hne.symm path d
    change _ = match c.perform o.moduleForFile d.imports with | .ok (name, t) => _ | .error c => _ at hexpression
    by_cases htarget : c.target ∈ d.imports.entries.map (·.target)
    · obtain ⟨i, hi, hi'⟩ := List.mem_map.mp htarget
      have hknown : i = ⟨.file group.file, group.module, i.name⟩ := by
        rw [← hentry, Call.entry, ← hi', ← hkept.modules i hi]
      rw [ImportTable.perform_of_known hkept hi hi'] at hexpression
      exact .inl ⟨i.name, _, hexpression, fun more => mem_afterAll more hkept (hknown ▸ hi)⟩
    · have hnew := ImportTable.perform_of_new o.moduleForFile htarget
      cases hfree : (c.tried o.moduleForFile d.imports).find? fun a => !d.imports.names.contains a with
      | some name =>
        rw [hfree] at hnew
        have hkept' := (hkept.after c).1
        rw [Call.after, hnew] at hkept'
        rw [hnew] at hexpression
        refine .inl ⟨name, _, hexpression, fun more => mem_afterAll more hkept' ?_⟩
        rw [hentry]
        exact List.mem_append_right _ (List.mem_singleton_self _)
      | none =>
        rw [hfree] at hnew
        rw [hnew] at hexpression
        refine .inr ⟨⟨_, d, hexpression⟩, htarget, fun a ha => ?_⟩
        rw [hmodule, ← hmax] at ha
        simpa using List.find?_eq_none.mp hfree a ha

/-! ## Modules -/

/-- The lines of a module with these imports and this code. -/
def linesOf (group : FileGroup) (maxSuffix : Int) (imports : List Import) (body : List Code) : List String :=
  Code.lines (prologue group.file ⟨maxSuffix, imports⟩) ++ Code.lines body

/-- The class of a declaration is on these lines where its path says, and so is the dictionary type of a message. -/
structure Nested (g : Graph) (lines : List String) (n : Node) (outer : List String) : Prop where
  path : Text.splitOnChar '.' (localPath g n) = outer ++ [className n]
  named : HasClass lines outer (className n)
  shapePath : n.kind = .message → Text.splitOnChar '.' (localShapePath g n) = outer ++ [shapeName n]
  shape : n.kind = .message → HasClass lines outer (shapeName n)

section Loaded

variable {sources : Sources} {l : Loader} {groups : List FileGroup} {group : FileGroup} {text : String}

/-- **References match the nesting of classes.** The text of a file of a loaded graph that is assembled consists of its
imports, which some calls leave, and of code. For every message and enum of the file a line opens its class, enclosed by
just the classes that its path names before it, and for a message another line opens its dictionary type there. A
reference from the same file is the path. One from another file, whatever that imports before, is the path behind an
alias, which stands in the imports of that file for the planned module of this one. -/
theorem references_nested [Source.CharacterNames] (hload : loadSources sources .empty = .ok g l)
    (hplan : plan g o = .ok groups)
    (hgroup : group ∈ groups) (hok : assembleWithImports g o group = (.ok text, imports)) :
    ∃ body calls, text = textOf group o.maxSuffix imports body ∧
      imports = (afterAll o.moduleForFile (.empty o.maxSuffix) calls).entries ∧
      ∀ n ∈ g.nodes, n.file = some group.file → n.kind = .message ∨ n.kind = .enum →
        (∃ outer, Nested g (linesOf group o.maxSuffix imports body) n outer) ∧
          Resolves o group (fun file => Site.classRef ⟨g, file, o.moduleForFile⟩ n) (localPath g n) ∧
          (n.kind = .message →
            Resolves o group (fun file => Site.shapeRef ⟨g, file, o.moduleForFile⟩ n) (localShapePath g n)) := by
  have hfinal := loadSources_final empty_formed hload
  have hfiled := loadSources_filed hload
  have hw : ∀ n ∈ g.nodes, n.kind ≠ .package → Worded n := fun n hn hk => isWord_of_word (loadSources_word hload hn hk)
  have hplanned := plan_eq_ok hplan
  obtain ⟨calls, hcalls⟩ := imports_of_calls hok
  obtain ⟨body, d, hbody, rfl, -, htext⟩ := emitted_of_assembled hok
  have hmodule : group.module = o.moduleForFile group.file := by
    obtain ⟨file, -, hfile⟩ := List.mem_map.mp (List.mem_of_mem_filter (hplanned.groups_eq ▸ hgroup))
    rw [← hfile]
  have hordered : ∀ n, Outermost g n → n.file = some group.file → n ∈ group.ordered := fun n hn hfile =>
    ((plan_partition hload hplan).ordered group hgroup).1.mem_iff.mpr
      ((mem_group_nodes hfinal.toArena (hplanned.groups_eq ▸ hgroup)).mpr ⟨hn, hfile⟩)
  refine ⟨body, calls, htext, hcalls, fun n hn hfile hk => ?_⟩
  have hcode := CodeIn.of_emitted (s := ⟨g, group.file, o.moduleForFile⟩) hfinal.toShaped hfiled hw hordered hbody
    n.index rfl hn hk hfile
  have hword : Worded n := hw n hn (by rcases hk with hk | hk <;> rw [hk] <;> decide)
  refine ⟨⟨outerPath g n, ?_⟩, .of_expression hmodule hfile (localPath g n),
    fun _ => .of_expression hmodule hfile (localShapePath g n)⟩
  have hclasses (hk : n.kind = .message) := (hcode.message hk).hasClass hfinal.toArena hn hword
    (Code.lines (prologue group.file d.imports))
  refine ⟨splitOnChar_pathTo hw hword.className, ?_, fun hk => splitOnChar_pathTo hw hword.shapeName,
    fun hk => (hclasses hk).2⟩
  rcases hk with hk | hk
  · exact (hclasses hk).1
  · exact (hcode.enum hk).hasClass hword _

end Loaded

/-- A message inside a message, which stands in the class of that. -/
theorem references_nested_spread : ∃ g l groups group text imports body n outer, loadSources spread .empty = .ok g l ∧
    plan g indexed = .ok groups ∧ group ∈ groups ∧ assembleWithImports g indexed group = (.ok text, imports) ∧
    n ∈ g.nodes ∧ n.fullName = "p.A.B" ∧ Nested g (linesOf group indexed.maxSuffix imports body) n outer ∧
    Resolves indexed group (fun file => Site.classRef ⟨g, file, indexed.moduleForFile⟩ n) (localPath g n) := by
  obtain ⟨g, l, groups, hload, hplan, hok, hfiles, -, n, hn, hname, hk, hfile⟩ := spread_loads
  obtain ⟨group, hgroup, hsame⟩ := List.mem_map.mp (hfiles ▸ List.mem_cons_self : "a.proto" ∈ groups.map (·.file))
  obtain ⟨text, htext⟩ := hok group hgroup
  obtain ⟨body, calls, -, -, hall⟩ := references_nested hload hplan hgroup (Prod.ext htext rfl)
  obtain ⟨⟨outer, hnested⟩, hresolves, -⟩ := hall n hn (hsame ▸ hfile) (.inl hk)
  exact ⟨g, l, groups, group, text, _, body, n, outer, hload, hplan, hgroup, Prod.ext htext rfl, hn, hname, hnested, hresolves⟩

end ProtoBind.Codegen
