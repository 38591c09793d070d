/-
Names that are bound once.

A module binds the aliases of its imports, the classes of its messages, enums
and services and the variables of its extensions; a message class binds the
classes that are nested in it, a client class its methods. The names of the
schema are distinct, but a dictionary type takes the name of its message with
a letter before it, keywords get an underscore and methods are put in lower
case. So a name is bound once under conditions on the names of the schema
(`bindings_nodup_iff`); there are schemas that do not meet them.
-/
import ProtoBind.Proofs.Codegen.Faults
import ProtoBind.Proofs.Codegen.Scopes
import ProtoBind.Proofs.Naming
import ProtoBind.Proofs.Schema.Printed

namespace ProtoBind.Codegen

open Schema Schema.Graph
open Code (classNames methodNames variableNames classBodies)
open Naming (Escaped keywords)

/-! ## Names before they are escaped -/

/-- The names of the classes that a declaration becomes, or of its variable, before they are escaped. -/
def boundBy (n : Node) : List String := if n.kind = .message then ["I" ++ n.name, n.name] else [n.name]

theorem classesOf_eq (n : Node) : classesOf n = (boundBy n).map Naming.identifier := by
  unfold classesOf boundBy shapeName
  split <;> rfl

/-- No declaration has the name of another's dictionary type, or of another one escaped. -/
structure NamesApart (ns : List Node) : Prop where
  shapes : ∀ m ∈ ns, m.kind = .message → ∀ n ∈ ns, n.name ≠ "I" ++ m.name
  escapes : ∀ m ∈ ns, m.name ∈ keywords → ∀ n ∈ ns, n.name ≠ m.name ++ "_"

theorem mem_boundBy {n : Node} {name : String} :
    name ∈ boundBy n ↔ name = n.name ∨ n.kind = .message ∧ name = "I" ++ n.name := by
  unfold boundBy
  split
  next hk => simp [hk, or_comm]
  next hk => simp [hk]

theorem append_ne_self {a b : String} (h : a ≠ "") : b ≠ a ++ b := by
  intro he
  refine h (String.toList_eq_nil_iff.mp (List.eq_nil_of_length_eq_zero ?_))
  have hlen := congrArg (·.toList.length) he
  simp only [String.toList_append, List.length_append] at hlen
  omega

theorem head?_of_keyword {name : String} (h : name ∈ keywords) :
    name.toList.head? ≠ some 'I' ∧ name.toList.head? ≠ some '_' ∧ name ≠ "" := by
  have hall : ∀ name ∈ keywords, name.toList.head? ≠ some 'I' ∧ name.toList.head? ≠ some '_' ∧ name ≠ "" := by
    decide
  exact hall name h

theorem head?_append_of_ne {a b : String} (h : a ≠ "") : (a ++ b).toList.head? = a.toList.head? := by
  rw [String.toList_append, List.head?_append]
  cases ha : a.toList with
  | nil => exact absurd (String.toList_eq_nil_iff.mp ha) h
  | cons c cs => rfl

theorem head?_shape (name : String) : ("I" ++ name).toList.head? = some 'I' := by
  rw [head?_append_of_ne (by decide)]
  rfl

/-- Names with the letter of dictionary types are no keywords. -/
theorem shape_notMem_keywords (name : String) : "I" ++ name ∉ keywords := fun h =>
  (head?_of_keyword h).1 (head?_shape name)

variable {ns : List Node}

theorem boundBy_disjoint {n m : Node} (hname : n.name ≠ m.name) (hshape : n.kind = .message → m.name ≠ "I" ++ n.name)
    (hshape' : m.kind = .message → n.name ≠ "I" ++ m.name) : (boundBy n).Disjoint (boundBy m) := by
  intro name hn hm
  rw [mem_boundBy] at hn hm
  rcases hn with rfl | ⟨hk, rfl⟩ <;> rcases hm with hm | ⟨hk', hm⟩
  · exact hname hm
  · exact hshape' hk' hm
  · exact hshape hk hm.symm
  · exact hname (String.append_right_inj _ |>.mp hm)

/-- **Names that declarations bind are distinct** when those of the declarations are and stay apart. -/
theorem bound_nodup_iff (hnames : (ns.map (·.name)).Nodup) :
    ((ns.flatMap boundBy).map Naming.identifier).Nodup ↔ NamesApart ns := by
  have hinj {n m : Node} (hn : n ∈ ns) (hm : m ∈ ns) (he : n.name = m.name) : n = m :=
    List.inj_on_of_nodup_map hnames hn hm he
  have hmem {name : String} : name ∈ ns.flatMap boundBy ↔
      ∃ n ∈ ns, name = n.name ∨ n.kind = .message ∧ name = "I" ++ n.name := by
    simp only [List.mem_flatMap, mem_boundBy]
  rw [show Naming.identifier = Naming.guard [] from rfl, Naming.map_guard_nodup_iff Naming.stable_nil]
  constructor
  · rintro ⟨hnodup, hescapes⟩
    obtain ⟨-, hpairwise⟩ := List.nodup_flatMap.mp hnodup
    refine ⟨fun m hm hk n hn he => ?_, fun m hm hkeyword n hn he => ?_⟩
    · have hne : m ≠ n := fun hmn => append_ne_self (by decide) (hmn ▸ he)
      have : Std.Symm (Function.onFun List.Disjoint boundBy) := ⟨fun _ _ h _ hn hm => h hm hn⟩
      have hdisjoint : (boundBy m).Disjoint (boundBy n) := hpairwise.forall hm hn hne
      exact hdisjoint (mem_boundBy.mpr (.inr ⟨hk, rfl⟩)) (mem_boundBy.mpr (.inl he.symm))
    · exact hescapes m.name (hmem.mpr ⟨m, hm, .inl rfl⟩) (.inl hkeyword) (hmem.mpr ⟨n, hn, .inl he.symm⟩)
  · intro hapart
    refine ⟨List.nodup_flatMap.mpr ⟨fun n _ => ?_, ?_⟩, fun name hname hescaped hmem' => ?_⟩
    · unfold boundBy
      split
      · simp
      · exact List.nodup_singleton _
    · refine (hnames.of_map _).pairwise_of_forall_ne fun n hn m hm hne => ?_
      exact boundBy_disjoint (fun he => hne (hinj hn hm he)) (fun hk => hapart.shapes n hn hk m hm)
        fun hk => hapart.shapes m hm hk n hn
    · have hkeyword : name ∈ keywords := hescaped.resolve_right nofun
      obtain ⟨n, hn, rfl | ⟨-, rfl⟩⟩ := hmem.mp hname
      · obtain ⟨m, hm, he | ⟨-, he⟩⟩ := hmem.mp hmem'
        · exact hapart.escapes n hn hkeyword m hm he.symm
        · have hhead := congrArg (·.toList.head?) he
          simp only [head?_append_of_ne (head?_of_keyword hkeyword).2.2, head?_shape] at hhead
          exact (head?_of_keyword hkeyword).1 hhead
      · exact shape_notMem_keywords _ hkeyword

/-- An alias is among the bound names only as the name of a declaration. -/
theorem alias_mem_bound_iff {name : String} (hname : name.toList.head? = some '_') :
    name ∈ (ns.flatMap boundBy).map Naming.identifier ↔ ∃ n ∈ ns, n.name = name := by
  have hkeyword {x : String} (hx : x ∈ keywords) : x.toList.head? ≠ some '_' := (head?_of_keyword hx).2.1
  simp only [List.mem_map, List.mem_flatMap, mem_boundBy]
  constructor
  · rintro ⟨x, ⟨n, hn, hx⟩, rfl⟩
    by_cases hescaped : Escaped [] x
    · rw [Naming.identifier, Naming.guard_of_escaped hescaped,
        head?_append_of_ne (head?_of_keyword (hescaped.resolve_right nofun)).2.2] at hname
      exact absurd hname (hkeyword (hescaped.resolve_right nofun))
    · rw [Naming.identifier, Naming.guard_of_not_escaped hescaped] at hname ⊢
      rcases hx with rfl | ⟨-, rfl⟩
      · exact ⟨n, hn, rfl⟩
      · rw [head?_shape] at hname
        cases hname
  · rintro ⟨n, hn, rfl⟩
    refine ⟨n.name, ⟨n, hn, .inl rfl⟩, Naming.guard_of_not_escaped fun hescaped => ?_⟩
    exact hkeyword (hescaped.resolve_right nofun) hname

/-! ## Modules -/

variable {g : Graph} {o : Options} {groups : List FileGroup} {group : FileGroup} {text : String}
  {imports : List Import}

/-- What the text of a module is made of. -/
structure ModuleOf (g : Graph) (group : FileGroup) (imports : List Import) (body : List Code) : Prop where
  aliases : (imports.map (·.name)).Nodup
  underscored : ∀ name ∈ imports.map (·.name), name.toList.head? = some '_'
  reads : Code.Reads body (group.ordered.flatMap outerClassesOf) [] (group.ordered.flatMap (scopesOf g))
  assigns : variableNames body = group.ordered.flatMap variablesOf

/-- The text of a module with these imports and this code. -/
def textOf (group : FileGroup) (maxSuffix : Int) (imports : List Import) (body : List Code) : String :=
  moduleText (Code.lines (prologue group.file ⟨maxSuffix, imports⟩) ++ Code.lines body)

theorem module_of_assembled (hg : Referable g) (hw : ∀ n ∈ g.nodes, n.kind ≠ .package → Worded n)
    (hgroup : ∀ n ∈ group.ordered, Emittable g n) (hok : assembleWithImports g o group = (.ok text, imports)) :
    ∃ body, text = textOf group o.maxSuffix imports body ∧ ModuleOf g group imports body := by
  let s : Site := ⟨g, group.file, o.moduleForFile⟩
  unfold assembleWithImports at hok
  split at hok
  next text' draft hmodule =>
    simp only [Prod.mk.injEq, Except.ok.injEq] at hok
    obtain ⟨rfl, rfl⟩ := hok
    obtain ⟨body, d, hbody, hmodule⟩ := bind_eq_ok.mp hmodule
    have hends := emitDeclarations_emits (s := s) (o := o) hg none hgroup (.empty o.maxSuffix)
    rw [hbody] at hends
    obtain ⟨-, -, hsound⟩ := hends
    have hsound : d.imports.Sound := hsound (ImportTable.empty_sound _)
    obtain ⟨hreads, hassigns⟩ := emitDeclarations_reads (s := s) hg.toArena hw (fun n hn => (hgroup n hn).mem) hbody
    have hprologue : prologue group.file d.imports = prologue group.file ⟨o.maxSuffix, d.imports.entries⟩ := rfl
    obtain ⟨d', d₁, hget, hmodule⟩ := bind_eq_ok.mp hmodule
    obtain ⟨rfl, rfl⟩ := EStateM.Result.ok.inj hget
    split at hmodule
    next =>
      obtain ⟨rfl, rfl⟩ := EStateM.Result.ok.inj hmodule
      refine ⟨body, ?_, hsound.nodup, hsound.underscored, hreads, hassigns⟩
      rw [textOf, ← hprologue]
    next => cases hmodule
  next => cases hok

/-! ## Scopes of a file -/

/-- The names of the rpcs of a service. -/
def rpcNames (g : Graph) (n : Node) : List String := (g.childrenOf n).filterMap fun c => c.method?.map fun _ => c.name

/-- No two rpcs have one name in lower case, and none has that of another one escaped. -/
structure MethodsApart (g : Graph) (n : Node) : Prop where
  names : ((rpcNames g n).map snakeCase).Nodup
  escapes : ∀ name ∈ (rpcNames g n).map snakeCase, Escaped Naming.clientReserved name →
    name ++ "_" ∉ (rpcNames g n).map snakeCase

theorem clientMethods_nodup_iff {n : Node} : (clientMethods g n).Nodup ↔ MethodsApart g n := by
  have hmethods : clientMethods g n = ((rpcNames g n).map snakeCase).map (Naming.guard Naming.clientReserved) := by
    rw [clientMethods, rpcNames, List.map_map, List.map_filterMap]
    refine List.filterMap_congr fun c _ => ?_
    rw [Option.map_map]
    rfl
  rw [hmethods, Naming.map_guard_nodup_iff Naming.stable_clientReserved]
  exact ⟨fun h => ⟨h.1, h.2⟩, fun h => ⟨h.names, h.escapes⟩⟩

theorem nested_nodup_iff (h : g.Arena) {n : Node} (hn : n ∈ g.nodes) :
    ((nested g n).flatMap classesOf).Nodup ↔ NamesApart (nested g n) := by
  have hchildren := h.childNames_nodup hn
  have hkind {k : Kind} : ((g.childrenOfKind n k).map (·.name)).Nodup :=
    hchildren.sublist (List.filter_sublist.map _)
  have hnames : ((nested g n).map (·.name)).Nodup := by
    rw [nested, List.map_append]
    refine List.nodup_append'.mpr ⟨hkind, hkind, fun name henum hmessage => ?_⟩
    obtain ⟨c, hc, rfl⟩ := List.mem_map.mp henum
    obtain ⟨c', hc', he⟩ := List.mem_map.mp hmessage
    obtain ⟨hc, hk⟩ := List.mem_filter.mp hc
    obtain ⟨hc', hk'⟩ := List.mem_filter.mp hc'
    obtain rfl := List.inj_on_of_nodup_map hchildren hc' hc he
    rw [beq_iff_eq] at hk hk'
    rw [hk] at hk'
    cases hk'
  have hbound : (nested g n).flatMap classesOf = ((nested g n).flatMap boundBy).map Naming.identifier := by
    rw [List.map_flatMap]
    exact List.flatMap_congr fun c _ => classesOf_eq c
  rw [hbound, bound_nodup_iff hnames]

theorem mem_below_leaf (h : g.Shaped) {n m : Node} (hn : n ∈ g.nodes) (hk : IsLeaf n) {k : Nat}
    (hm : m ∈ below g.childrenOf k n) : m = n := by
  cases k with
  | zero => cases hm
  | succ k => simpa [below, childrenOf_leaf h hn hk] using hm

/-- What is below a leaf is of its kind. -/
theorem kind_below_leaf (h : g.Shaped) {n m : Node} {kind : Kind} (hn : n ∈ g.nodes) (hk : IsLeaf n)
    (hne : n.kind ≠ kind) {k : Nat} (hm : m ∈ below g.childrenOf k n) : m.kind ≠ kind := by
  rwa [mem_below_leaf h hn hk hm]

/-- Below a service stand its rpcs only. -/
theorem kind_below_service (h : g.Shaped) {n m : Node} (hn : n ∈ g.nodes) (hk : n.kind = .service) {k : Nat}
    (hm : m ∈ below g.childrenOf k n) : m = n ∨ m.kind = .method := by
  cases k with
  | zero => cases hm
  | succ k =>
    rw [below, List.mem_cons, List.mem_flatMap] at hm
    rcases hm with rfl | ⟨c, hc, hm⟩
    · exact .inl rfl
    · have hck := child_of_service h hn hk hc
      obtain rfl := mem_below_leaf h ((h.mem_childrenOf hn).mp hc).1 (.inr (.inr hck)) hm
      exact .inr hck

/-- The messages below a message are reached through messages. -/
theorem mem_below_messages (h : g.Shaped) : ∀ (k : Nat) {n m : Node}, n ∈ g.nodes → n.kind = .message →
    (m ∈ below (g.childrenOfKind · .message) k n ↔ m ∈ below g.childrenOf k n ∧ m.kind = .message)
  | 0, _, _, _, _ => by simp [below]
  | k + 1, n, m, hn, hk => by
    simp only [below, List.mem_cons, List.mem_flatMap]
    constructor
    · rintro (rfl | ⟨c, hc, hm⟩)
      · exact ⟨.inl rfl, hk⟩
      · obtain ⟨hc, hck⟩ := List.mem_filter.mp hc
        have hcn := ((h.mem_childrenOf hn).mp hc).1
        obtain ⟨hm, hmk⟩ := (mem_below_messages h k hcn (beq_iff_eq.mp hck)).mp hm
        exact ⟨.inr ⟨c, hc, hm⟩, hmk⟩
    · rintro ⟨rfl | ⟨c, hc, hm⟩, hmk⟩
      · exact .inl rfl
      · have hcn := ((h.mem_childrenOf hn).mp hc).1
        by_cases hck : c.kind = .message
        · exact .inr ⟨c, List.mem_filter.mpr ⟨hc, beq_iff_eq.mpr hck⟩, (mem_below_messages h k hcn hck).mpr ⟨hm, hmk⟩⟩
        · have hleaf := (child_of_message h hn hk hc).resolve_left hck
          obtain rfl := mem_below_leaf h hcn hleaf hm
          exact absurd hmk hck

theorem messageScopes_classes : ∀ (k : Nat) (n : Node), (∀ x ∈ messageScopes g k n, x.1.Nodup) ↔
    ∀ m ∈ below (g.childrenOfKind · .message) k n, ((nested g m).flatMap classesOf).Nodup
  | 0, _ => by simp [messageScopes, below]
  | k + 1, n => by
    have ih := messageScopes_classes k
    simp only [messageScopes, below, List.forall_mem_cons, List.forall_mem_append, List.forall_mem_flatMap, ih,
      List.not_mem_nil, false_implies, implies_true, List.nodup_nil, true_and, and_true]

theorem messageScopes_methods : ∀ (k : Nat) (n : Node), ∀ x ∈ messageScopes g k n, x.2.Nodup
  | 0, _ => by simp [messageScopes]
  | k + 1, n => by
    have ih := messageScopes_methods k
    have hmethods : Code.messageMethods.Nodup := by decide
    simp only [messageScopes, List.forall_mem_cons, List.forall_mem_append, List.forall_mem_flatMap, List.not_mem_nil,
      false_implies, implies_true, List.nodup_nil, hmethods, true_and, and_true]
    exact fun m _ => ih m

/-- The class bodies of a declaration bind distinct classes when the messages below it do. -/
theorem scopesOf_classes (h : g.Shaped) {n : Node} (hn : n ∈ g.nodes) (hk : n.kind ∈ kindOrder) :
    (∀ x ∈ scopesOf g n, x.1.Nodup) ↔
      ∀ m ∈ below g.childrenOf g.nodes.length n, m.kind = .message → ((nested g m).flatMap classesOf).Nodup := by
  have hleaf (hl : IsLeaf n) (hne : n.kind ≠ .message) (m) (hm : m ∈ below g.childrenOf g.nodes.length n) :
      m.kind ≠ .message := kind_below_leaf h hn hl hne hm
  unfold scopesOf
  simp only [kindOrder, List.mem_cons, List.not_mem_nil, or_false] at hk
  rcases hk with hk | hk | hk | hk <;> simp only [hk]
  · exact iff_of_true (by simp) fun m hm hmk => absurd hmk (hleaf (.inl hk) (by rw [hk]; decide) m hm)
  · rw [messageScopes_classes]
    simp only [mem_below_messages h _ hn hk, and_imp]
  · refine iff_of_true (by simp) fun m hm hmk => ?_
    rcases kind_below_service h hn hk hm with rfl | hmethod
    · cases hk.symm.trans hmk
    · cases hmethod.symm.trans hmk
  · exact iff_of_true (by simp) fun m hm hmk => absurd hmk (hleaf (.inr (.inl hk)) (by rw [hk]; decide) m hm)

/-- No service stands in a message. -/
theorem kind_below_message (h : g.Shaped) : ∀ (k : Nat) {n m : Node}, n ∈ g.nodes → n.kind = .message →
    m ∈ below g.childrenOf k n → m.kind ≠ .service
  | 0, _, _, _, _, hm => by cases hm
  | k + 1, n, m, hn, hk, hm => by
    rw [below, List.mem_cons, List.mem_flatMap] at hm
    rcases hm with rfl | ⟨c, hc, hm⟩
    · rw [hk]
      decide
    · have hcn := ((h.mem_childrenOf hn).mp hc).1
      rcases child_of_message h hn hk hc with hck | hleaf
      · exact kind_below_message h k hcn hck hm
      · rw [mem_below_leaf h hcn hleaf hm]
        rcases hleaf with hck | hck | hck <;> rw [hck] <;> decide

/-- The class bodies of a declaration bind distinct methods unless it is a service that does not. -/
theorem scopesOf_methods (h : g.Shaped) {n : Node} (hn : n ∈ g.nodes) (hk : n.kind ∈ kindOrder) :
    (∀ x ∈ scopesOf g n, x.2.Nodup) ↔
      ∀ m ∈ below g.childrenOf g.nodes.length n, m.kind = .service → (clientMethods g m).Nodup := by
  have hleaf (hl : IsLeaf n) (hne : n.kind ≠ .service) (m) (hm : m ∈ below g.childrenOf g.nodes.length n) :
      m.kind ≠ .service := kind_below_leaf h hn hl hne hm
  unfold scopesOf
  simp only [kindOrder, List.mem_cons, List.not_mem_nil, or_false] at hk
  rcases hk with hk | hk | hk | hk <;> simp only [hk]
  · exact iff_of_true (by simp) fun m hm hmk => absurd hmk (hleaf (.inl hk) (by rw [hk]; decide) m hm)
  · exact iff_of_true (messageScopes_methods _ _) fun m hm hmk => absurd hmk (kind_below_message h _ hn hk hm)
  · rw [List.forall_mem_singleton]
    refine ⟨fun hnodup m hm hmk => ?_, fun hall => hall n (h.below_eq hn ▸ List.mem_cons_self) hk⟩
    rcases kind_below_service h hn hk hm with rfl | hmethod
    · exact hnodup
    · cases hmethod.symm.trans hmk
  · exact iff_of_true (by simp) fun m hm hmk => absurd hmk (hleaf (.inr (.inl hk)) (by rw [hk]; decide) m hm)

/-- What holds below all declarations of a file holds in the file. -/
theorem forall_below_group (hs : g.Arena) (hf : g.Filed) (hgroup : group ∈ Codegen.groups g o) {P : Node → Prop} :
    (∀ n ∈ group.nodes, ∀ m ∈ below g.childrenOf g.nodes.length n, P m) ↔
      ∀ m ∈ g.nodes, m.file = some group.file → P m := by
  have hmem {m : Node} := (file_perm hs hf group.file).mem_iff (a := m)
  rw [← (mem_groups hgroup).2] at hmem
  simp only [List.mem_filter, beq_iff_eq, List.mem_flatMap] at hmem
  exact ⟨fun h m hm hfile => (hmem.mp ⟨hm, hfile⟩).elim fun n hn => h n hn.1 m hn.2,
    fun h n hn m hm => (hmem.mpr ⟨n, hn, hm⟩).elim (h m)⟩

/-- What holds of the scopes in a module, given what it comes to for each declaration. -/
theorem ModuleOf.forall_bodies {body : List Code} (h : ModuleOf g group imports body) (hs : g.Arena) (hf : g.Filed)
    (hgroup : group ∈ Codegen.groups g o) (hordered : group.ordered.Perm group.nodes)
    {P : List String × List String → Prop} {Q : Node → Prop}
    (hscopes : ∀ n ∈ group.ordered, (∀ x ∈ scopesOf g n, P x) ↔ ∀ m ∈ below g.childrenOf g.nodes.length n, Q m) :
    (∀ b ∈ classBodies body, P (Code.scope b)) ↔ ∀ m ∈ g.nodes, m.file = some group.file → Q m := by
  rw [← forall_below_group hs hf hgroup, ← List.forall_mem_map (f := Code.scope), h.reads.bodies, List.forall_mem_flatMap]
  exact ⟨fun hall n hn => (hscopes n (hordered.mem_iff.mpr hn)).mp (hall n (hordered.mem_iff.mpr hn)),
    fun hall n hn => (hscopes n hn).mpr (hall n (hordered.mem_iff.mp hn))⟩

section Loaded

variable {sources : Sources} {s : Loader}

/-- The outermost declarations of a file have distinct names. -/
theorem group_names_nodup [Source.CharacterNames] (hload : loadSources sources .empty = .ok g s)
    (hgroup : group ∈ Codegen.groups g o) :
    (group.nodes.map (·.name)).Nodup := by
  have harena : g.Arena := (loadSources_final empty_formed hload).toArena
  have hdeclared : ∀ n ∈ group.nodes, Outermost g n ∧ n.file = some group.file := by
    intro n hn
    rw [(mem_groups hgroup).2] at hn
    obtain ⟨hn, hfile⟩ := List.mem_filter.mp hn
    obtain ⟨hn, hparent⟩ := List.mem_filter.mp ((declarations_perm harena).mem_iff.mp hn)
    rw [Bool.and_eq_true, bne_iff_ne] at hparent
    refine ⟨⟨hn, hparent.2, ?_⟩, beq_iff_eq.mp hfile⟩
    cases hp : g.parentOf n with
    | none => simp [hp] at hparent
    | some p => exact ⟨p, rfl, by simpa [hp] using hparent.1⟩
  have hnodup : group.nodes.Nodup := by
    rw [(mem_groups hgroup).2]
    exact ((declarations_perm harena).nodup_iff.mpr (harena.nodup.filter _)).filter _
  refine hnodup.map_on fun n hn m hm he => ?_
  exact loadSources_outermost_inj hload (hdeclared n hn).1 (hdeclared m hm).1
    ((hdeclared n hn).2.trans (hdeclared m hm).2.symm) he

/-- The module of a file that was assembled. -/
theorem loaded_module [Source.CharacterNames] (hload : loadSources sources .empty = .ok g s)
    (hplan : plan g o = .ok groups)
    (hgroup : group ∈ groups) (hok : assembleWithImports g o group = (.ok text, imports)) :
    ∃ body, text = textOf group o.maxSuffix imports body ∧ ModuleOf g group imports body := by
  have hfinal := loadSources_final empty_formed hload
  obtain ⟨rfl, hk, -, -⟩ := plan_eq_ok hplan
  exact module_of_assembled (referable_of_final hfinal (loadSources_filed hload))
    (fun n hn hk => isWord_of_word (loadSources_word hload hn hk)) (emittable_of_ordered hfinal.toShaped hk hgroup) hok

/-- **When generated scopes bind each name once.** For a file of a loaded graph that is assembled, the text consists of
the imports and of code. The module binds each name once just when none of its declarations has the name of another's
dictionary type, of another one escaped, or of an import. Every class in it binds each class once just when the same
holds of the declarations nested in each message of the file, and each method once just when the rpcs of each service
stay apart. -/
theorem bindings_nodup_iff [Source.CharacterNames] (hload : loadSources sources .empty = .ok g s)
    (hplan : plan g o = .ok groups)
    (hgroup : group ∈ groups) (hok : assembleWithImports g o group = (.ok text, imports)) :
    ∃ body, text = textOf group o.maxSuffix imports body ∧
      ((imports.map (·.name) ++ classNames body ++ variableNames body).Nodup ↔
        NamesApart group.nodes ∧ ∀ n ∈ group.nodes, n.name ∉ imports.map (·.name)) ∧
      ((∀ b ∈ classBodies body, (classNames b).Nodup) ↔
        ∀ n ∈ g.nodes, n.file = some group.file → n.kind = .message → NamesApart (nested g n)) ∧
      ((∀ b ∈ classBodies body, (methodNames b).Nodup) ↔
        ∀ n ∈ g.nodes, n.file = some group.file → n.kind = .service → MethodsApart g n) := by
  have hfinal := loadSources_final empty_formed hload
  have hfiled := loadSources_filed hload
  obtain ⟨body, htext, hmodule⟩ := loaded_module hload hplan hgroup hok
  obtain ⟨rfl, hk, -, -⟩ := plan_eq_ok hplan
  have hemittable := emittable_of_ordered hfinal.toShaped hk hgroup
  have hordered : group.ordered.Perm group.nodes := ordered_perm fun n hn => by
    rw [(mem_groups hgroup).2] at hn
    exact hk n (List.mem_of_mem_filter hn)
  refine ⟨body, htext, ?_, ?_, ?_⟩
  · have hbound : (classNames body ++ variableNames body).Perm ((group.nodes.flatMap boundBy).map Naming.identifier) := by
      rw [hmodule.reads.classes, hmodule.assigns, List.map_flatMap]
      refine ((List.flatMap_append_perm _ _ _).trans (.of_eq ?_)).trans (hordered.flatMap_right _)
      refine List.flatMap_congr fun n _ => ?_
      rw [outerClassesOf, variablesOf]
      split
      next hfield => simp [boundBy, hfield]
      next => rw [List.append_nil, classesOf_eq]
    rw [List.append_assoc, List.nodup_append', hbound.nodup_iff, bound_nodup_iff (group_names_nodup hload hgroup)]
    refine ⟨fun h => ⟨h.2.1, fun n hn hmem => ?_⟩, fun h => ⟨hmodule.aliases, h.1, fun name hname hmem => ?_⟩⟩
    · have hname := (alias_mem_bound_iff (hmodule.underscored _ hmem)).mpr ⟨n, hn, rfl⟩
      exact h.2.2 hmem (hbound.mem_iff.mpr hname)
    · obtain ⟨n, hn, rfl⟩ := (alias_mem_bound_iff (hmodule.underscored _ hname)).mp (hbound.mem_iff.mp hmem)
      exact h.2 n hn hname
  · refine (hmodule.forall_bodies hfinal.toArena hfiled hgroup hordered fun n hn =>
      scopesOf_classes hfinal.toShaped (hemittable n hn).mem (hemittable n hn).kind).trans ?_
    exact forall₂_congr fun n hn => imp_congr_right fun _ => imp_congr_right fun _ => nested_nodup_iff hfinal.toArena hn
  · refine (hmodule.forall_bodies hfinal.toArena hfiled hgroup hordered fun n hn =>
      scopesOf_methods hfinal.toShaped (hemittable n hn).mem (hemittable n hn).kind).trans ?_
    exact forall₂_congr fun n hn => imp_congr_right fun _ => imp_congr_right fun _ => clientMethods_nodup_iff

end Loaded

/-- Names that meet: a message and one with the name of its dictionary type, also inside a message, and two rpcs that
differ in case. -/
def meetingFiles : List (String × List Source.Decl) :=
  [("a.proto", [.message "Foo" [.message "Bar" [] 1, .enum ⟨"IBar", [⟨"A", 0, 1⟩], 1⟩] 1, .message "IFoo" [] 1,
    .service ⟨"S", [⟨"GetFoo", "Foo", false, "Foo", false, 1⟩, ⟨"get_foo", "Foo", false, "Foo", false, 1⟩], 1⟩])]

def meeting : Sources := printedSources meetingFiles

/-- The names and the kinds that the files of a plan declare, what they bind, the scopes of their classes, and whether
they are assembled. -/
def boundIn (g : Graph) :
    List (List (String × Kind) × List String × List (List String × List String) × Bool) :=
  match plan g .default with
  | .error _ => []
  | .ok groups => groups.map fun group => (group.nodes.map fun n => (n.name, n.kind),
    group.ordered.flatMap outerClassesOf, group.ordered.flatMap (scopesOf g),
    (assembleWithImports g .default group).1.toOption.isSome)

theorem meeting_bound : succeedsWith (loadSources meeting) .empty (fun g => boundIn g ==
    [([("Foo", .message), ("IFoo", .message), ("S", .service)], ["IFoo", "Foo", "IIFoo", "IFoo", "S"],
      [([], []), (["IBar", "IBar", "Bar"], Code.messageMethods), ([], []), ([], []), ([], Code.messageMethods),
        ([], []), ([], Code.messageMethods), ([], ["get_foo", "get_foo"])], true)]) = true := by
  unfold loadSources loadOne
  rw [Load.load_eq_known meetingFiles (by decide +kernel)]
  decide +kernel

theorem meeting_loads : ∃ g s groups group text imports, loadSources meeting .empty = .ok g s ∧
    plan g .default = .ok groups ∧ group ∈ groups ∧
    assembleWithImports g .default group = (.ok text, imports) ∧
    group.nodes.map (fun n => (n.name, n.kind)) = [("Foo", .message), ("IFoo", .message), ("S", .service)] ∧
    group.ordered.flatMap outerClassesOf = ["IFoo", "Foo", "IIFoo", "IFoo", "S"] ∧
    (["IBar", "IBar", "Bar"], Code.messageMethods) ∈ group.ordered.flatMap (scopesOf g) ∧
    ([], ["get_foo", "get_foo"]) ∈ group.ordered.flatMap (scopesOf g) := by
  obtain ⟨g, s, hload, htest⟩ := exists_of_succeedsWith meeting_bound
  have hbound := eq_of_beq htest
  unfold boundIn at hbound
  split at hbound
  next => cases hbound
  next groups hplan =>
    obtain ⟨group, hgroup, hbinds⟩ := List.mem_map.mp (hbound ▸ List.mem_cons_self)
    simp only [Prod.mk.injEq] at hbinds
    obtain ⟨hnames, hclasses, hscopes, hsome⟩ := hbinds
    obtain ⟨text, htext⟩ := exists_ok hsome
    refine ⟨g, s, groups, group, text, _, hload, hplan, hgroup, Prod.ext htext rfl, hnames, hclasses, ?_, ?_⟩ <;>
      simp [hscopes]

/-- The names of a module that are not apart, so that it binds one of them twice. -/
theorem bindings_nodup_iff_meeting : ∃ g s groups group text imports body, loadSources meeting .empty = .ok g s ∧
    plan g .default = .ok groups ∧ group ∈ groups ∧ assembleWithImports g .default group = (.ok text, imports) ∧
    ¬ NamesApart group.nodes ∧ ¬ (imports.map (·.name) ++ classNames body ++ variableNames body).Nodup := by
  obtain ⟨g, s, groups, group, text, imports, hload, hplan, hgroup, hok, hnames, -⟩ := meeting_loads
  obtain ⟨body, -, hiff, -⟩ := bindings_nodup_iff hload hplan hgroup hok
  have hmeet : ¬ NamesApart group.nodes := by
    intro hapart
    obtain ⟨m, hm, hfoo⟩ := List.mem_map.mp (hnames ▸ List.mem_cons_self :
      ("Foo", Kind.message) ∈ group.nodes.map fun n => (n.name, n.kind))
    obtain ⟨n, hn, hifoo⟩ := List.mem_map.mp (hnames ▸ List.mem_cons_of_mem _ List.mem_cons_self :
      ("IFoo", Kind.message) ∈ group.nodes.map fun n => (n.name, n.kind))
    refine hapart.shapes m hm (congrArg Prod.snd hfoo) n hn ?_
    rw [show m.name = "Foo" from congrArg Prod.fst hfoo, show n.name = "IFoo" from congrArg Prod.fst hifoo]
    rfl
  exact ⟨g, s, groups, group, text, imports, body, hload, hplan, hgroup, hok, hmeet, fun hnodup => hmeet (hiff.mp hnodup).1⟩

/-- A module binds a name twice, and so do a message class and a client class in it. -/
theorem bindings_meet : ∃ g s groups group text imports body, loadSources meeting .empty = .ok g s ∧
    plan g .default = .ok groups ∧ group ∈ groups ∧ assembleWithImports g .default group = (.ok text, imports) ∧
    text = textOf group Options.default.maxSuffix imports body ∧
    ¬ (imports.map (·.name) ++ classNames body ++ variableNames body).Nodup ∧
    (∃ b ∈ classBodies body, ¬ (classNames b).Nodup) ∧ ∃ b ∈ classBodies body, ¬ (methodNames b).Nodup := by
  obtain ⟨g, s, groups, group, text, imports, hload, hplan, hgroup, hok, -, hclasses, hmessage, hservice⟩ :=
    meeting_loads
  obtain ⟨body, htext, hmodule⟩ := loaded_module hload hplan hgroup hok
  rw [← hmodule.reads.bodies] at hmessage hservice
  obtain ⟨b, hb, hscope⟩ := List.mem_map.mp hmessage
  obtain ⟨b', hb', hscope'⟩ := List.mem_map.mp hservice
  refine ⟨g, s, groups, group, text, imports, body, hload, hplan, hgroup, hok, htext, fun hnodup => ?_, ⟨b, hb, ?_⟩,
    b', hb', ?_⟩
  · have hnodup := hnodup.of_append_left.of_append_right
    rw [hmodule.reads.classes, hclasses] at hnodup
    exact absurd hnodup (by decide)
  · rw [show classNames b = _ from congrArg Prod.fst hscope]
    decide
  · rw [show methodNames b' = _ from congrArg Prod.snd hscope']
    decide

end ProtoBind.Codegen
