/-
Programs whose names are clear.

The methods of a class are emitted with expressions for the classes they need, and
an expression stands for whatever its names are bound to where the method runs.
In a clear program (`Clear`) that is the class that was meant, so the classes of
a clear program are those that the schema declares (`Clear.exists_library`): what is
read and created for a field is what the field is declared to hold, and every
oneof group keeps its descriptors. The expressions are those in the text of the
module (`Clear.expressions_stand`).
-/
import ProtoBind.Message.Library
import ProtoBind.Proofs.Codegen.Program
import ProtoBind.Proofs.Entries
import ProtoBind.Reflection.Document

namespace ProtoBind.Message

open Schema (Graph Node)
open Codegen (Module Program Referent Locals nestedNames decodeLocals createLocals callLocals)

/-! ## Clear programs -/

/-- In a method of `n` with the names `own` the expression for the class of `target` stands for it. -/
def Finds (p : Program) (n : Node) (own : Locals) (target : Node) : Prop :=
  (n.file.bind p.module?).bind (p.resolve · own target) = some (.ofType target)

instance (p : Program) (n : Node) (own : Locals) (target : Node) : Decidable (Finds p n own target) :=
  inferInstanceAs (Decidable (_ = _))

/-- If it is an enum, it has members: a class without them takes no number. -/
def TakesNumbers (target : Node) : Prop := target.kind = .enum → hasMembers target = true

instance (target : Node) : Decidable (TakesNumbers target) := inferInstanceAs (Decidable (_ → _))

/-- What a reference means. -/
def targets (g : Graph) (r : Schema.Reference) : List Node := (r.target.bind g.node?).toList

/-- What the leaf of a type refers to. -/
def leafTargets (g : Graph) : Schema.Leaf → List Node
  | .scalar _ => []
  | .reference r => targets g r

/-- No declaration in a message takes the name of one of its descriptors. -/
def KeepsDescriptors (g : Graph) (n : Node) : Prop :=
  ∀ d ∈ n.oneofs.flatMap (groupDescriptors (Codegen.className n) (fieldsOf g n)), d.1 ∉ (nestedNames g n).map (·.1)

instance (g : Graph) (n : Node) : Decidable (KeepsDescriptors g n) := inferInstanceAs (Decidable (∀ _ ∈ _, _))

/-- The texts of the modules are code, no declaration takes a name that this code relies on, the names of every enum can
be members together, and every expression for a class stands for the class that is meant, which for an enum has members. -/
structure Clear (p : Program) : Prop where
  code : isCode p = true
  names : keepsNames p = true
  enums : ∀ n ∈ p.graph.nodes, n.kind = .enum → (enumClass n).toOption.isSome
  fields : ∀ n ∈ p.graph.nodes, n.kind = .message → ∀ x ∈ fieldsOf p.graph n, ∀ target ∈ leafTargets p.graph x.2.type.leaf,
    Finds p n (decodeLocals p.graph n) target ∧ Finds p n (createLocals n x.2.type) target ∧ TakesNumbers target
  methods : ∀ n ∈ p.graph.nodes, n.kind = .service → ∀ x ∈ methodsOf p.graph n,
    (∀ target ∈ targets p.graph x.2.request, Finds p n (callLocals x.2.requestStream) target) ∧
      ∀ target ∈ targets p.graph x.2.response, Finds p n (callLocals false) target
  groups : ∀ n ∈ p.graph.nodes, n.kind = .message → KeepsDescriptors p.graph n

theorem clear_iff {p : Program} : Clear p ↔ isCode p = true ∧ keepsNames p = true ∧
    (∀ n ∈ p.graph.nodes, n.kind = .enum → (enumClass n).toOption.isSome) ∧
    (∀ n ∈ p.graph.nodes, n.kind = .message → ∀ x ∈ fieldsOf p.graph n, ∀ target ∈ leafTargets p.graph x.2.type.leaf,
      Finds p n (decodeLocals p.graph n) target ∧ Finds p n (createLocals n x.2.type) target ∧ TakesNumbers target) ∧
    (∀ n ∈ p.graph.nodes, n.kind = .service → ∀ x ∈ methodsOf p.graph n,
      (∀ target ∈ targets p.graph x.2.request, Finds p n (callLocals x.2.requestStream) target) ∧
        ∀ target ∈ targets p.graph x.2.response, Finds p n (callLocals false) target) ∧
    ∀ n ∈ p.graph.nodes, n.kind = .message → KeepsDescriptors p.graph n :=
  ⟨fun ⟨code, names, enums, fields, methods, groups⟩ => ⟨code, names, enums, fields, methods, groups⟩,
    fun ⟨code, names, enums, fields, methods, groups⟩ => ⟨code, names, enums, fields, methods, groups⟩⟩

instance (p : Program) : Decidable (Clear p) := decidable_of_iff' _ clear_iff

/-! ## Classes as they are declared -/

/-- The codec of a field, with what the field is declared to hold for what is read and created. -/
def declaredCodec? (g : Graph) (owner : String) (c : Node) (f : Schema.Field) : Option FieldCodec := do
  let element ← elementOfLeaf? g f.type.leaf
  let arity ← f.type.arity?
  let attr := Naming.attributeName c.name
  return ⟨attr, privateName owner attr, f.tag, element, arity, some element, some element⟩

/-- The class that the schema declares for a message. -/
def declaredClass (g : Graph) (t : Reflection.Tree) (n : Node) : MessageClass :=
  let owner := Codegen.className n
  let fields := fieldsOf g n
  { fullName := n.fullName
    name := owner
    fields := ((t.index.lookup n.fullName).map (·.fields)).getD []
    codecs := fields.filterMap fun (c, f) => declaredCodec? g owner c f
    descriptors := Entries.ofList (· == ·) (n.oneofs.flatMap (groupDescriptors owner fields)) }

/-- The message that a reference names. -/
def declaredMessage? (g : Graph) (r : Schema.Reference) : Option String := do
  let n ← r.target.bind g.node?
  if n.kind = .message then some n.fullName else none

def declaredMethod (g : Graph) (c : Node) (m : Schema.Method) : ClientMethod :=
  { name := Naming.methodName (Codegen.snakeCase c.name)
    path := c.path
    request := declaredMessage? g m.request
    response := declaredMessage? g m.response
    requestStream := m.requestStream
    responseStream := m.responseStream }

/-- The class that the schema declares for a service. -/
def declaredClient (g : Graph) (n : Node) : ClientClass :=
  { fullName := n.fullName
    methods := (methodsOf g n).map fun x => declaredMethod g x.1 x.2 }

variable {p : Program} {g : Graph} {o : Codegen.Options} {t : Reflection.Tree} {m : Module} {lib : Library} {n : Node}

/-! ## What expressions give -/

/-- A type that is found under its expressions is read and created as what it is. -/
theorem partsOf?_of_finds (hg : p.graph.Arena) {type : Schema.ValueType} {e : Element}
    (he : elementOfLeaf? p.graph type.leaf = some e)
    (hfinds : ∀ target ∈ leafTargets p.graph type.leaf, p.resolve m (decodeLocals p.graph n) target =
      some (.ofType target) ∧ p.resolve m (createLocals n type) target = some (.ofType target) ∧ TakesNumbers target) :
    partsOf? p m n type e = some (some e, some e) := by
  unfold partsOf?
  cases hl : type.leaf with
  | scalar k => rfl
  | reference r =>
    rw [hl] at he hfinds
    obtain ⟨target, htarget, he⟩ := Option.bind_eq_some_iff.mp he
    obtain ⟨hread, hmade, htakes⟩ := hfinds target (by simp [leafTargets, targets, htarget])
    obtain ⟨i, -, hi⟩ := Option.bind_eq_some_iff.mp htarget
    have hnode : p.graph.node? target.index = some target := hg.node?_of_mem (List.mem_of_getElem? hi)
    cases he
    simp only [htarget, hread, hmade, Option.bind_eq_bind, Option.bind_some]
    by_cases hk : target.kind = .enum
    · simp [readAs, madeAs, Referent.ofType, hk, hnode, htakes hk]
    · simp [readAs, madeAs, Referent.ofType, hk, hnode]

/-- The codecs of a clear program are the declared ones. -/
theorem codecOf?_of_finds (hg : p.graph.Arena) {c : Node} {f : Schema.Field}
    (hfinds : ∀ target ∈ leafTargets p.graph f.type.leaf, p.resolve m (decodeLocals p.graph n) target =
      some (.ofType target) ∧ p.resolve m (createLocals n f.type) target = some (.ofType target) ∧
        TakesNumbers target) :
    codecOf? p m n c f = declaredCodec? p.graph (Codegen.className n) c f := by
  unfold codecOf? declaredCodec?
  cases he : elementOfLeaf? p.graph f.type.leaf with
  | none => rfl
  | some e => simp only [Option.bind_eq_bind, Option.bind_some, partsOf?_of_finds hg he hfinds]

/-- What a reference of a method gives where the class it means is found. -/
theorem messageOf?_of_finds (hg : p.graph.Arena) {own : Locals} {r : Schema.Reference} {target : Node}
    (htarget : r.target.bind p.graph.node? = some target) (hfinds : p.resolve m own target = some (.ofType target)) :
    messageOf? p m own r = some (declaredMessage? p.graph r) := by
  obtain ⟨i, -, hi⟩ := Option.bind_eq_some_iff.mp htarget
  have hnode : p.graph.node? target.index = some target := hg.node?_of_mem (List.mem_of_getElem? hi)
  simp only [messageOf?, declaredMessage?, htarget, hfinds, Option.bind_eq_bind, Option.bind_some]
  by_cases hk : target.kind = .message <;> simp [Referent.ofType, hk, hnode]

/-! ## Classes of clear programs -/

/-- An element that names what a leaf refers to has the path of that for its expression. -/
theorem path_of_names {leaf : Schema.Leaf} {e : Codegen.Element} {target : Node} (h : e.Names g m leaf)
    (ht : target ∈ leafTargets g leaf) : ∃ path, m.segments? g target = some path ∧ e.ref = Text.join "." path := by
  cases leaf with
  | scalar k => cases ht
  | reference r =>
    obtain ⟨path, hpath, he⟩ := h target (by simpa [leafTargets, targets] using ht)
    refine ⟨path, hpath, ?_⟩
    split at he
    next => rw [he, Codegen.Element.ref]
    next =>
      obtain ⟨shape, rfl⟩ := he
      rfl

theorem Finds.resolve {own : Locals} {target : Node} (h : Finds p n own target)
    (hm : n.file.bind p.module? = some m) : p.resolve m own target = some (.ofType target) := by
  rwa [Finds, hm] at h

theorem descriptorsOf_eq (h : KeepsDescriptors g n) : descriptorsOf g n = (declaredClass g t n).descriptors :=
  List.filter_eq_self.mpr fun d hd => by simpa using h d (Entries.mem_ofList hd)

/-- A class that exists is the declared one but for what its methods refer to. -/
theorem messageClass_eq (hkeeps : KeepsDescriptors p.graph n) {c : MessageClass}
    (hc : messageClass p t m n = some c) : c = { declaredClass p.graph t n with codecs := c.codecs } := by
  obtain ⟨codecs, -, hc⟩ := Option.bind_eq_some_iff.mp hc
  cases hc
  rw [descriptorsOf_eq (t := t) hkeeps]
  rfl

/-- The reference has a target. -/
def Targeted (g : Graph) (r : Schema.Reference) : Prop := ∃ target, r.target.bind g.node? = some target

/-- The class of a message of a clear program is the declared one. -/
theorem Clear.messageClass_eq (h : Clear p) (hg : p.graph.Arena) (hn : n ∈ p.graph.nodes) (hk : n.kind = .message)
    (hm : n.file.bind p.module? = some m)
    (hcodecs : ∀ x ∈ fieldsOf p.graph n, ∃ c, declaredCodec? p.graph (Codegen.className n) x.1 x.2 = some c) :
    messageClass p t m n = some (declaredClass p.graph t n) := by
  have hmade : (fieldsOf p.graph n).mapM (fun x => codecOf? p m n x.1 x.2) = some (declaredClass p.graph t n).codecs := by
    refine mapM_eq_some_filterMap fun x hx => ?_
    obtain ⟨c, hc⟩ := hcodecs x hx
    refine ⟨c, (codecOf?_of_finds hg fun target ht => ?_).trans hc, hc⟩
    obtain ⟨hread, hmade, htakes⟩ := h.fields n hn hk x hx target ht
    exact ⟨hread.resolve hm, hmade.resolve hm, htakes⟩
  rw [messageClass, hmade, descriptorsOf_eq (t := t) (h.groups n hn hk)]
  rfl

/-- The class of a service of a clear program is the declared one. -/
theorem Clear.clientClass_eq (h : Clear p) (hg : p.graph.Arena) (hn : n ∈ p.graph.nodes) (hk : n.kind = .service)
    (hm : n.file.bind p.module? = some m)
    (htargets : ∀ x ∈ methodsOf p.graph n, Targeted p.graph x.2.request ∧ Targeted p.graph x.2.response) :
    clientClass p m n = some (declaredClient p.graph n) := by
  have hmade : (methodsOf p.graph n).mapM (fun x => clientMethod p m x.1 x.2) =
      some ((methodsOf p.graph n).map fun x => declaredMethod p.graph x.1 x.2) := by
    refine mapM_some_iff.mpr (List.forall₂_map_right_iff.mpr (List.forall₂_same.mpr fun x hx => ?_))
    obtain ⟨⟨request, hrequest⟩, response, hresponse⟩ := htargets x hx
    obtain ⟨hasked, hanswered⟩ := h.methods n hn hk x hx
    rw [clientMethod, messageOf?_of_finds hg hrequest ((hasked request (by simp [targets, hrequest])).resolve hm),
      messageOf?_of_finds hg hresponse ((hanswered response (by simp [targets, hresponse])).resolve hm)]
    rfl
  rw [clientClass, hmade]
  rfl

/-- **In a clear program the expressions in the code of a message stand for what its fields refer to.** The text of the
module of a message has its class, which is written from plans, one for each field; where the field refers to a message
or an enum, its expression is a path of names that stands for the class of it in the methods that decode and create. -/
theorem Clear.expressions_stand [Source.CharacterNames] {sources : Schema.Sources} {s : Schema.Loader}
    (hload : Schema.loadSources sources .empty = .ok g s) (hp : Program.ofGraph g o = .ok p) (h : Clear p)
    (hn : n ∈ g.nodes) (hk : n.kind = .message) (hm : n.file.bind p.module? = some m) :
    ∃ group text body a plans nested, m.Of g o group ∧ Codegen.assembleWithImports g o group = (.ok text, m.imports) ∧
      text = Codegen.textOf group o.maxSuffix m.imports body ∧
      Codegen.Code.Within (Codegen.messageClassCode a n plans nested) body (Codegen.outerPath g n) ∧
      List.Forall₂ (fun x plan => plan.Of g m x ∧ ∀ target ∈ leafTargets g x.2.type.leaf, ∃ path,
        plan.element.ref = Text.join "." path ∧ p.denote m (decodeLocals g n) path = some (.ofType target) ∧
          p.denote m (createLocals n x.2.type) path = some (.ofType target)) (fieldsOf g n) plans := by
  obtain rfl := Program.graph_eq hp
  obtain ⟨file, hfile, hfound⟩ := Option.bind_eq_some_iff.mp hm
  have hof : m.file = file := by simpa using List.find?_some hfound
  obtain ⟨group, text, body, a, plans, nested, hgroup, hok, htext, hwithin, hplans⟩ :=
    Codegen.messages_named hload hp (List.mem_of_find?_eq_some hfound) hn hk (hof ▸ hfile)
  refine ⟨group, text, body, a, plans, nested, hgroup, hok, htext, hwithin, (forall₂_with_mem hplans).imp ?_⟩
  rintro x plan ⟨hx, -, hplan⟩
  refine ⟨hplan, fun target ht => ?_⟩
  obtain ⟨hdecode, hcreate, -⟩ := h.fields n hn hk x hx target ht
  obtain ⟨path, hpath, href⟩ := path_of_names hplan.element ht
  refine ⟨path, href, ?_, ?_⟩
  · simpa [Program.resolve, hpath] using hdecode.resolve hm
  · simpa [Program.resolve, hpath] using hcreate.resolve hm

/-! ## Libraries of clear programs -/

theorem Library.classOf?_eq_ok {α : Type} {make : Module → Node → Option α} {c : α} :
    Library.classOf? p make n = .ok c ↔ ∃ m, n.file.bind p.module? = some m ∧ make m n = some c := by
  rw [Library.classOf?]
  cases n.file.bind p.module? with
  | none => simp
  | some m => cases hmake : make m n <;> simp [hmake]

/-- What a library consists of. -/
theorem Library.ofProgram_eq_ok : Library.ofProgram p t = .ok lib ↔ isCode p = true ∧ keepsNames p = true ∧
    lib.tree = t ∧
    (p.graph.nodes.filter (·.kind = .message)).mapM (classOf? p (messageClass p t)) = .ok lib.messages ∧
    (p.graph.nodes.filter (·.kind = .enum)).mapM (fun n => (enumClass n).mapError LibraryFault.enum) = .ok lib.enums ∧
    (p.graph.nodes.filter (·.kind = .service)).mapM (classOf? p (clientClass p)) = .ok lib.clients := by
  unfold Library.ofProgram
  cases isCode p with
  | false => simp [throw, throwThe, MonadExceptOf.throw, bind, Except.bind]
  | true =>
    cases keepsNames p with
    | false => simp [throw, throwThe, MonadExceptOf.throw, bind, Except.bind]
    | true =>
      simp only [Bool.not_true, Bool.false_eq_true, if_false, true_and]
      constructor
      · intro h
        obtain ⟨-, -, h⟩ := bind_ok_iff.mp h
        obtain ⟨-, -, h⟩ := bind_ok_iff.mp h
        obtain ⟨messages, hmessages, h⟩ := bind_ok_iff.mp h
        obtain ⟨enums, henums, h⟩ := bind_ok_iff.mp h
        obtain ⟨clients, hclients, h⟩ := bind_ok_iff.mp h
        cases h
        exact ⟨rfl, hmessages, henums, hclients⟩
      · rintro ⟨rfl, hmessages, henums, hclients⟩
        rw [hmessages, henums, hclients]
        rfl

/-- The library has the classes that the graph declares, bound to the tree. -/
structure Library.Serves (lib : Library) (g : Graph) (t : Reflection.Tree) : Prop where
  tree : lib.tree = t
  messages : lib.messages = (g.nodes.filter (·.kind = .message)).map (declaredClass g t)
  clients : lib.clients = (g.nodes.filter (·.kind = .service)).map (declaredClient g)

/-- Where names are kept, every declaration has a module. -/
theorem module_of_keepsNames (h : keepsNames p = true) (hn : n ∈ p.graph.nodes) (hk : n.kind ≠ .package) :
    ∃ m, n.file.bind p.module? = some m := by
  have hn := List.all_eq_true.mp ((Bool.and_eq_true _ _).mp h).2 n hn
  rw [beq_false_of_ne hk, Bool.false_or] at hn
  cases hm : n.file.bind p.module? with
  | none =>
    rw [hm] at hn
    cases hn
  | some m => exact ⟨m, rfl⟩

/-- The classes of one kind are the declared ones if each of them is where its module is known. -/
theorem Library.classesOf_eq {α : Type} {make : Module → Node → Option α} {declared : Node → α} {k : Schema.Kind}
    (h : keepsNames p = true) (hk : k ≠ .package)
    (hmade : ∀ n ∈ p.graph.nodes, n.kind = k → ∀ m, n.file.bind p.module? = some m → make m n = some (declared n)) :
    (p.graph.nodes.filter (·.kind = k)).mapM (classOf? p make) =
      .ok ((p.graph.nodes.filter (·.kind = k)).map declared) := by
  refine mapM_ok_iff.mpr (List.forall₂_map_right_iff.mpr (List.forall₂_same.mpr fun n hn => ?_))
  obtain ⟨hmem, hkind⟩ : n ∈ p.graph.nodes ∧ n.kind = k := by simpa using hn
  obtain ⟨m, hm⟩ := module_of_keepsNames h hmem (hkind ▸ hk)
  exact classOf?_eq_ok.mpr ⟨m, hm, hmade n hmem hkind m hm⟩

/-- **A clear program gives the classes that its graph declares.** -/
theorem Clear.exists_library (h : Clear p) (hg : p.graph.Arena) (t : Reflection.Tree)
    (hcodecs : ∀ n ∈ p.graph.nodes, n.kind = .message → ∀ x ∈ fieldsOf p.graph n,
      ∃ c, declaredCodec? p.graph (Codegen.className n) x.1 x.2 = some c)
    (htargets : ∀ n ∈ p.graph.nodes, n.kind = .service → ∀ x ∈ methodsOf p.graph n,
      Targeted p.graph x.2.request ∧ Targeted p.graph x.2.response) :
    ∃ lib, Library.ofProgram p t = .ok lib ∧ lib.Serves p.graph t := by
  obtain ⟨enums, henums⟩ := forall₂_exists fun n (hn : n ∈ p.graph.nodes.filter (·.kind = .enum)) =>
    exists_ok (h.enums n (List.mem_of_mem_filter hn) (by simpa using List.of_mem_filter hn))
  refine ⟨⟨t, _, enums, _⟩, Library.ofProgram_eq_ok.mpr ⟨h.code, h.names, rfl, ?_, ?_, ?_⟩, rfl, rfl, rfl⟩
  · exact Library.classesOf_eq h.names (by decide) fun n hn hk m hm => h.messageClass_eq hg hn hk hm (hcodecs n hn hk)
  · exact mapM_ok_iff.mpr (henums.imp fun n c hc => by rw [hc]; rfl)
  · exact Library.classesOf_eq h.names (by decide) fun n hn hk m hm => h.clientClass_eq hg hn hk hm (htargets n hn hk)

/-- The modules of the graph can be assembled, and their names are clear. -/
def ClearFor (g : Graph) (o : Codegen.Options) : Prop := ∃ p, Program.ofGraph g o = .ok p ∧ Clear p

/-- Whether names are clear can be computed. -/
theorem clearFor_iff : ClearFor g o ↔ (Program.ofGraph g o).toOption.any (fun p => decide (Clear p)) = true := by
  cases hp : Program.ofGraph g o with
  | error e => simp [ClearFor, hp, Except.toOption]
  | ok p => simp [ClearFor, hp, Except.toOption]

instance (g : Graph) (o : Codegen.Options) : Decidable (ClearFor g o) := decidable_of_iff' _ clearFor_iff

theorem Library.ofGraph_eq_ok : Library.ofGraph g o t = .ok lib ↔
    ∃ p, Program.ofGraph g o = .ok p ∧ Library.ofProgram p t = .ok lib := by
  rw [Library.ofGraph, bind_ok_iff]
  cases Program.ofGraph g o <;> simp [Except.mapError]

/-- The classes that are generated for a graph, bound to its reflection document. -/
def Library.GeneratedFrom (lib : Library) (g : Graph) (o : Codegen.Options) : Prop :=
  ∃ d t, Reflection.document g = .ok d ∧ Reflection.Tree.ofJson d = .ok t ∧ Library.ofGraph g o t = .ok lib

end ProtoBind.Message
