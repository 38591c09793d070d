/-
Programs, and the expressions in their code.

The modules of a program are what the groups of a plan are assembled to, each
with the imports that its text makes (`Program.ofGraph_eq_ok`). The code of a
message reads and creates the elements of its fields with expressions for their
classes, and such an expression is the path of names that the program looks the
class up by, part for part (`classRef_segments`, `messages_named`).
-/
import ProtoBind.Codegen.Program
import ProtoBind.Proofs.Codegen.Nesting

namespace ProtoBind.Codegen

open Schema Schema.Graph
open Code (Within)

variable {g : Graph} {o : Options} {p : Program} {m : Module} {n : Node} {group : FileGroup} {sources : Sources}
  {l : Loader}

/-! ## Modules -/

/-- The module is what the group is assembled to. -/
structure Module.Of (m : Module) (g : Graph) (o : Options) (group : FileGroup) : Prop where
  file : m.file = group.file
  nodes : m.nodes = group.ordered
  assembled : ∃ text, assembleWithImports g o group = (.ok text, m.imports)

/-- What a program consists of. -/
theorem Program.ofGraph_eq_ok : Program.ofGraph g o = .ok p ↔ p.graph = g ∧ p.options = o ∧
    ∃ groups, plan g o = .ok groups ∧ List.Forall₂ (fun group m => Module.Of m g o group) groups p.modules := by
  constructor
  · intro h
    obtain ⟨groups, hplan, h⟩ := bind_ok_iff.mp h
    obtain ⟨modules, hmodules, h⟩ := bind_ok_iff.mp h
    cases h
    refine ⟨rfl, rfl, groups, mapError_ok_iff.mp hplan, (mapM_ok_iff.mp hmodules).imp fun group m hm => ?_⟩
    split at hm
    next text imports hok =>
      cases hm
      exact ⟨rfl, rfl, text, hok⟩
    next => cases hm
  · rintro ⟨rfl, rfl, groups, hplan, hmodules⟩
    refine bind_ok_iff.mpr ⟨groups, mapError_ok_iff.mpr hplan, bind_ok_iff.mpr ⟨p.modules, ?_, rfl⟩⟩
    refine mapM_ok_iff.mpr (hmodules.imp fun group m hof => ?_)
    obtain ⟨file, imports, nodes⟩ := m
    obtain ⟨rfl, rfl, text, hok⟩ := hof
    rw [hok]

theorem Program.graph_eq (h : Program.ofGraph g o = .ok p) : p.graph = g := (Program.ofGraph_eq_ok.mp h).1

/-- The module of a file is what the group of the file is assembled to. -/
theorem Program.group_of_module (hp : Program.ofGraph g o = .ok p) (hm : m ∈ p.modules) :
    ∃ groups, plan g o = .ok groups ∧ ∃ group ∈ groups, m.Of g o group := by
  obtain ⟨-, -, groups, hplan, hmodules⟩ := Program.ofGraph_eq_ok.mp hp
  obtain ⟨group, hgroup, hof⟩ := forall₂_mem hmodules.flip hm
  exact ⟨groups, hplan, group, hgroup, hof⟩

/-- In a program the fields of messages are single, repeated, or maps with keys of a scalar kind. -/
theorem Program.exists_arity [Source.CharacterNames] (hload : loadSources sources .empty = .ok g l)
    (hp : Program.ofGraph g o = .ok p) (hn : n ∈ g.nodes) (hk : n.kind = .message) {x : Node × Field}
    (hx : x ∈ fieldsIn g n) :
    ∃ arity, x.2.type.arity? = some arity := by
  have hfinal := loadSources_final empty_formed hload
  have hfiled := loadSources_filed hload
  obtain ⟨-, -, groups, hplan, hmodules⟩ := Program.ofGraph_eq_ok.mp hp
  have hreferable := referable_of_final hfinal hfiled
  obtain ⟨hx, hb, hextendee⟩ := hreferable.mem_fields hn hk hx
  obtain ⟨file, -, hfile⟩ := hfiled.declared x.1 hx (by rw [Node.kind, hb]; intro h; cases h)
  obtain ⟨rfl, hkinds, -, -⟩ := plan_eq_ok hplan
  obtain ⟨group, hgroup, rfl⟩ := List.mem_map.mp (mem_files_groups (o := o) hfinal.toArena hfiled hx hfile)
  obtain ⟨m, -, -, -, text, hok⟩ := forall₂_mem hmodules hgroup
  have hgiven : assemble g o group = .ok text := by rw [assemble, hok]
  rw [← Option.ne_none_iff_exists']
  intro hbad
  cases ht : x.2.type with
  | map key leaf =>
    -- A map with other keys stops the assembly of its file, which is given.
    rw [ht, ValueType.arity?, Option.map_eq_none_iff] at hbad
    have hstop := (mem_group_stops hfinal.toShaped hfiled hkinds hgroup (e := .badKey key)).mpr
      (.inl ⟨key, ⟨x.1, hx, hfile, x.2, leaf, hb, hextendee, ht, hbad⟩, rfl⟩)
    obtain ⟨e, -, hfails⟩ := assemble_of_stops hreferable (emittable_of_ordered hfinal.toShaped hkinds hgroup) hstop
      fun c hc => by cases hgiven.symm.trans hc
    cases hgiven.symm.trans hfails
  | _ =>
    rw [ht] at hbad
    cases hbad

/-! ## Expressions -/

/-- An import is found under its alias from then on. -/
theorem ImportTable.find?_use {t t' : ImportTable} {target : ImportTarget} {module base name : String}
    (h : t.use target module base = .ok (name, t')) :
    ∃ i, t'.entries.find? (·.target == target) = some i ∧ i.name = name := by
  unfold ImportTable.use at h
  split at h
  next known hknown =>
    cases h
    exact Option.map_eq_some_iff.mp hknown
  next hnone =>
    split at h
    next free _ =>
      cases h
      refine ⟨⟨target, module, name⟩, ?_, rfl⟩
      rw [List.find?_append, Option.map_eq_none_iff.mp hnone]
      simp
    next => cases h

/-- **The expression for a class is the path of names that a module looks the class up by.** -/
theorem classRef_segments {target : Node} {ref : String} {d d' : Draft}
    (h : Site.classRef ⟨g, m.file, o.moduleForFile⟩ target d = .ok ref d') (hlater : d'.imports.entries <+: m.imports) :
    ∃ segments, m.segments? g target = some segments ∧ ref = Text.join "." segments := by
  unfold Site.classRef localPath pathTo at h
  by_cases hhere : target.file = some m.file
  · rw [expression_here hhere] at h
    cases h
    exact ⟨_, if_pos hhere, rfl⟩
  · cases hfile : target.file with
    | none =>
      rw [Site.expression, if_neg hhere, hfile] at h
      cases h
    | some file =>
      rw [expression_elsewhere hfile fun he => hhere (hfile.trans (congrArg some he))] at h
      split at h
      next name t huse =>
        cases h
        obtain ⟨i, hi, rfl⟩ := ImportTable.find?_use huse
        obtain ⟨more, hmore⟩ := hlater
        have hfound : m.imports.find? (·.target == .file file) = some i := by
          rw [← hmore, List.find?_append, hi]
          rfl
        refine ⟨i.name :: (outerClasses g g.nodes.length target ++ [className target]), ?_, ?_⟩
        · rw [Module.segments?, if_neg hhere, hfile]
          simp only [hfound, Option.bind_eq_bind, Option.bind_some]
          rfl
        · rw [Text.join, Text.join, String.intercalate_cons_of_ne_nil (by simp)]
      next => cases h

/-- The element is read and created with the expression for what a leaf refers to. -/
def Element.Names (g : Graph) (m : Module) : Leaf → Element → Prop
  | .scalar k, e => e = .scalar k
  | .reference r, e => ∀ target, r.target.bind g.node? = some target →
      ∃ segments, m.segments? g target = some segments ∧
        if target.kind = .enum then e = .enum (Text.join "." segments)
        else ∃ shape, e = .message (Text.join "." segments) shape

theorem emitElement_names {c : Node} {leaf : Leaf} {e : Element}
    (h : Part (emitElement ⟨g, m.file, o.moduleForFile⟩ c leaf) e m.imports) : e.Names g m leaf := by
  obtain ⟨d, d', hrun, hlater⟩ := h
  cases leaf with
  | scalar k =>
    cases hrun
    rfl
  | reference r =>
    obtain ⟨target?, d₁, htarget, hrun⟩ := bind_eq_ok.mp hrun
    have hmeant : target? = r.target.bind g.node? := by
      unfold Site.targetOf at htarget
      cases hr : r.target with
      | none =>
        rw [hr] at htarget
        cases htarget
        rfl
      | some i =>
        rw [hr] at htarget
        cases htarget
        rfl
    intro target ht
    cases hmeant.trans ht
    obtain ⟨ref, d₂, href, hrun⟩ := bind_eq_ok.mp hrun
    by_cases hk : target.kind = .enum
    · simp only [hk, if_true] at hrun
      cases hrun
      obtain ⟨segments, hsegments, rfl⟩ := classRef_segments href hlater
      exact ⟨segments, hsegments, by rw [if_pos hk]⟩
    · simp only [hk, if_false] at hrun
      obtain ⟨shape, hshape, rfl⟩ := map_eq_ok.mp hrun
      have hshorter := Keeps.extends (fun old => (Extends.lasting _ o old).expression target _) hshape
      obtain ⟨segments, hsegments, rfl⟩ := classRef_segments href (hshorter.trans hlater)
      exact ⟨segments, hsegments, by rw [if_neg hk]; exact ⟨shape, rfl⟩⟩

/-- The plan is that of the field. -/
structure FieldPlan.Of (plan : FieldPlan) (g : Graph) (m : Module) (x : Node × Field) : Prop where
  attr : plan.attr = Naming.attributeName x.1.name
  tag : plan.tag = x.2.tag
  oneof : plan.oneof = x.2.oneof
  arity : x.2.type.arity? = some plan.arity
  element : plan.element.Names g m x.2.type.leaf

theorem arity?_of_part {type : ValueType} {arity : Arity} {imports : List Import} (h : Part (arityOf type) arity imports) :
    type.arity? = some arity := by
  obtain ⟨d, d', hrun, -⟩ := h
  rw [arityOf] at hrun
  cases ha : type.arity? with
  | some a =>
    rw [ha] at hrun
    cases hrun
    rfl
  | none =>
    rw [ha] at hrun
    cases hrun

theorem planFields_of {plans : List FieldPlan}
    (h : Part (planFields ⟨g, m.file, o.moduleForFile⟩ n) plans m.imports) :
    List.Forall₂ (fun x plan => plan.Of g m x) (fieldsIn g n) plans := by
  obtain ⟨d, d', hrun, hlater⟩ := h
  obtain ⟨elements, d₁, helements, hrun⟩ := bind_eq_ok.mp hrun
  obtain ⟨arities, d₂, harities, hrun⟩ := bind_eq_ok.mp hrun
  cases hrun
  have hmiddle := (Keeps.extends (fun _ => .mapM (fun x : Node × Field => Lasting.arityOf x.2.type) _) harities).trans hlater
  have helement := (Part.mapM (fun (x : Node × Field) old => (Extends.lasting _ o old).emitElement x.1 x.2.type.leaf)
    ⟨d, d₁, helements, hmiddle⟩).imp fun _ _ => emitElement_names
  have harity := (Part.mapM (fun (x : Node × Field) _ => Lasting.arityOf x.2.type) ⟨d₁, _, harities, hlater⟩).imp
    fun _ _ => arity?_of_part
  refine List.forall₂_map_right_iff.mpr ((forall₂_zip helement harity).imp ?_)
  rintro x ⟨y, element, arity⟩ ⟨rfl, hnames, hshape⟩
  exact ⟨rfl, rfl, rfl, hshape, hnames⟩

/-- **The code of a message reads and creates what its fields refer to by the paths that the program looks up.** The text
of a module has the class of every message of its file, inside those of the messages around it, and this class is
written from plans, one for each field of the message. -/
theorem messages_named [Source.CharacterNames] (hload : loadSources sources .empty = .ok g l)
    (hp : Program.ofGraph g o = .ok p)
    (hm : m ∈ p.modules) (hn : n ∈ g.nodes) (hk : n.kind = .message) (hfile : n.file = some m.file) :
    ∃ group text body a plans nested, m.Of g o group ∧ assembleWithImports g o group = (.ok text, m.imports) ∧
      text = textOf group o.maxSuffix m.imports body ∧
      Within (messageClassCode a n plans nested) body (outerPath g n) ∧
      List.Forall₂ (fun x plan => plan.Of g m x) (fieldsIn g n) plans := by
  obtain ⟨groups, hplan, group, hgroup, hof⟩ := p.group_of_module hp hm
  obtain ⟨text, hok⟩ := hof.assembled
  have hfinal := loadSources_final empty_formed hload
  have hw : ∀ n ∈ g.nodes, n.kind ≠ .package → Worded n := fun n hn hk => isWord_of_word (loadSources_word hload hn hk)
  have hplanned := plan_eq_ok hplan
  have hordered : ∀ n, Outermost g n → n.file = some group.file → n ∈ group.ordered := fun n hn hfile =>
    ((plan_partition hload hplan).ordered group hgroup).1.mem_iff.mpr
      ((mem_group_nodes hfinal.toArena (hplanned.groups_eq ▸ hgroup)).mpr ⟨hn, hfile⟩)
  obtain ⟨body, d, hbody, himports, -, htext⟩ := emitted_of_assembled hok
  obtain ⟨fuel, spacing, e, ⟨d₁, d₂, hrun, hlater⟩, hfuel, hwithin⟩ :=
    (CodeIn.of_emitted (s := ⟨g, group.file, o.moduleForFile⟩) hfinal.toShaped (loadSources_filed hload) hw hordered hbody
      n.index rfl hn (.inl hk) (hof.file ▸ hfile)).message hk
  have hlength := hfinal.toArena.lt_length hn
  obtain ⟨more, rfl⟩ := Nat.exists_eq_succ_of_ne_zero (by dsimp only at hfuel; omega : fuel ≠ 0)
  obtain ⟨a, plans, enums, messages, hplans, -, -, rfl⟩ := emitMessage_ok hrun
  rw [himports] at hlater
  refine ⟨group, text, body, a, plans, (enums.append messages).code, hof, hok, ?_,
    hwithin.of_infix (List.suffix_append _ _).isInfix, planFields_of (o := o) ?_⟩
  · rw [htext, textOf, ← himports]
    rfl
  · rw [hof.file]
    exact hplans.mono hlater

end ProtoBind.Codegen
