/-
Graphs that differ in the order of their nodes.

Two graphs with the same entries may number them differently (`Twins`). What a
name means is found by names only, so it is the same node in both up to its
number (`Twins.resolve`), and so are the defaults that follow from it
(`Twins.defaultOf`). Hence resolution succeeds on both or on none, and the
resolved graphs are the same up to the numbers and the order of nodes
(`Twins.renumbered`).
-/
import ProtoBind.Proofs.Schema.Files
import ProtoBind.Proofs.Schema.Scopes

namespace ProtoBind.Schema

/-! ## Portraits -/

/-- A body without the numbers of the nodes that it refers to. -/
def Body.erase : Body → Body
  | .field f =>
    let leaf := match f.type.leaf with
      | .scalar s => .scalar s
      | .reference r => .reference ⟨r.name, none⟩
    .field { f with type := f.type.withLeaf leaf, extendeeTarget := none }
  | .method m => .method { m with request := ⟨m.request.name, none⟩, response := ⟨m.response.name, none⟩ }
  | b => b

/-- The numbers of the nodes that a body refers to. -/
def Body.targets : Body → List (Option Nat)
  | .field f => [f.type.leaf.target, f.extendeeTarget]
  | .method m => [m.request.target, m.response.target]
  | _ => []

/-- What a node is in its graph, with full names for numbers. -/
structure Portrait where
  entry : Entry
  parent : Option String
  targets : List (Option String)

namespace Graph

/-- The full name of the node with a number. -/
def nameAt (g : Graph) (i : Option Nat) : Option String := i.bind (g.fullNames[·]?)

def portrait (g : Graph) (n : Node) : Portrait where
  entry := { n.toEntry with body := n.body.erase }
  parent := g.nameAt n.parent
  targets := n.body.targets.map g.nameAt

/-- The full names of the children of a node, in their order. -/
def childNames (g : Graph) (n : Node) : List String := (g.childrenOf n).map (·.fullName)

/-- Two graphs are the same up to the numbers of their nodes and the order of files and of what is in a
package. -/
structure Renumbered (g g' : Graph) : Prop where
  files : g.files.Perm g'.files
  names : g.fullNames.Perm g'.fullNames
  portraits : ∀ {n n'}, n ∈ g.nodes → n' ∈ g'.nodes → n.fullName = n'.fullName → g.portrait n = g'.portrait n'
  children : ∀ {n n'}, n ∈ g.nodes → n' ∈ g'.nodes → n.fullName = n'.fullName →
    (g.childNames n).Perm (g'.childNames n') ∧ (n.kind ≠ .package → g.childNames n = g'.childNames n')
  /-- The declarations of a file keep their order. -/
  order : ∀ file, (g.nodes.filter (·.file = some file)).map (·.fullName) =
    (g'.nodes.filter (·.file = some file)).map (·.fullName)
  finalized : g.finalized = g'.finalized

/-! ## Twins -/

/-- An entry stands under the node of a full name. -/
def IsUnder (parent : String) (x : Listed) : Prop := x.1 ≠ "" ∧ x.1 = childName parent x.2.name

instance (parent : String) (x : Listed) : Decidable (IsUnder parent x) := inferInstanceAs (Decidable (_ ∧ _))

/-- Two graphs with the same entries before resolution. -/
structure Twins (g g' : Graph) : Prop where
  left : g.Arena
  right : g'.Arena
  perm : g.listing.Perm g'.listing
  bare : ∀ x ∈ g.listing, x.2.body.extendeeTarget? = none
  order : ∀ file, g.listing.filter (·.2.file = some file) = g'.listing.filter (·.2.file = some file)
  /-- What stands in a declaration is in its file. -/
  inside : ∀ x ∈ g.listing, x.2.body.kind ≠ .package →
    ∃ file, x.2.file = some file ∧ ∀ y ∈ g.listing, IsUnder x.1 y → y.2.file = some file

/-- What stands in a declaration is looked for in its file. -/
theorem filter_inside {l : List Listed} {name file : String}
    (h : ∀ y ∈ l, IsUnder name y → y.2.file = some file) :
    l.filter (IsUnder name) = (l.filter (·.2.file = some file)).filter (IsUnder name) := by
  rw [List.filter_filter]
  refine List.filter_congr fun y hy => ?_
  by_cases hu : IsUnder name y
  · simp [hu, h y hy hu]
  · simp [hu]

theorem nameAt_some {g : Graph} {i : Nat} {n : Node} (h : g.node? i = some n) :
    g.nameAt (some i) = some n.fullName := by
  rw [nameAt, Option.bind_some, getElem?_fullNames, h]
  rfl

theorem nameAt_eq_some {g : Graph} {i : Option Nat} {name : String} (h : g.nameAt i = some name) :
    ∃ j n, i = some j ∧ g.node? j = some n ∧ n.fullName = name := by
  obtain ⟨j, rfl, hj⟩ := Option.bind_eq_some_iff.mp h
  rw [getElem?_fullNames] at hj
  obtain ⟨n, hn, hname⟩ := Option.map_eq_some_iff.mp hj
  exact ⟨j, n, rfl, hn, hname⟩

theorem nameAt_eq_none {g : Graph} {i : Option Nat} (h : g.nameAt i = none) : i.bind g.node? = none := by
  cases i with
  | none => rfl
  | some i =>
    rw [nameAt, Option.bind_some, getElem?_fullNames, Option.map_eq_none_iff] at h
    exact h

theorem Arena.nameAt_parent {g : Graph} (h : g.Arena) {n : Node} (hn : n ∈ g.nodes) :
    (n.fullName = "" ∧ g.nameAt n.parent = none) ∨
      n.fullName ≠ "" ∧ ∃ p ∈ g.nodes, n.parent = some p.index ∧ g.nameAt n.parent = some p.fullName ∧
        n.fullName = childName p.fullName n.name := by
  have hnode := h.node?_of_mem hn
  by_cases h0 : n.index = 0
  · refine .inl ⟨(h.fullName_empty hnode).mpr h0, ?_⟩
    obtain ⟨r, hr, -, hparent, -⟩ := h.root
    rw [h0, hr, Option.some.injEq] at hnode
    rw [← hnode, hparent]
    rfl
  · refine .inr ⟨fun he => h0 ((h.fullName_empty hnode).mp he), ?_⟩
    obtain ⟨p, pn, hp, -, hpn, hname⟩ := h.parent hnode h0
    refine ⟨pn, List.mem_of_getElem? hpn, ?_, ?_, hname⟩
    · rw [hp, h.index hpn]
    · rw [hp, nameAt_some hpn]

/-- The children of a node are the entries under its name. -/
theorem Arena.children_listing {g : Graph} (h : g.Arena) {n : Node} (hn : n ∈ g.nodes) :
    (g.childrenOf n).map (fun c => (c.fullName, c.toEntry)) = g.listing.filter (IsUnder n.fullName) := by
  rw [h.childrenOf hn, Graph.listing, List.filter_map]
  congr 1
  refine List.filter_congr fun c hc => ?_
  rw [Function.comp_apply, decide_eq_decide]
  constructor
  · intro hp
    have hne : c.index ≠ 0 := Nat.ne_of_gt (Nat.lt_of_le_of_lt (Nat.zero_le _) (h.parent_lt hc hp))
    exact ⟨fun he => hne ((h.fullName_empty (h.node?_of_mem hc)).mp he), h.fullName_eq hc hn hp⟩
  · intro hu
    rcases h.nameAt_parent hc with ⟨he, -⟩ | ⟨-, p, hp, hparent, -, hname⟩
    · exact absurd he hu.1
    · have hsame : p.fullName = n.fullName := childName_left (hname.symm.trans hu.2)
      rw [hparent, h.unique hp hn hsame]

namespace Twins

variable {g g' : Graph}

theorem symm (h : Twins g g') : Twins g' g where
  left := h.right
  right := h.left
  perm := h.perm.symm
  bare x hx := h.bare x (h.perm.mem_iff.mpr hx)
  order file := (h.order file).symm
  inside x hx hk := by
    obtain ⟨file, hfile, hall⟩ := h.inside x (h.perm.mem_iff.mpr hx) hk
    exact ⟨file, hfile, fun y hy => hall y (h.perm.mem_iff.mpr hy)⟩

theorem length (h : Twins g g') : g.nodes.length = g'.nodes.length := by
  simpa [listing] using h.perm.length_eq

/-- Every node has its twin. -/
theorem node (h : Twins g g') {n : Node} (hn : n ∈ g.nodes) :
    ∃ n' ∈ g'.nodes, n'.fullName = n.fullName ∧ n'.toEntry = n.toEntry := by
  have hin : (n.fullName, n.toEntry) ∈ g'.listing := h.perm.mem_iff.mp (mem_listing.mpr ⟨n, hn, rfl, rfl⟩)
  exact mem_listing.mp hin

theorem entry (h : Twins g g') {n n' : Node} (hn : n ∈ g.nodes) (hn' : n' ∈ g'.nodes)
    (he : n.fullName = n'.fullName) : n'.toEntry = n.toEntry := by
  obtain ⟨m, hm, hname, hentry⟩ := h.node hn
  rw [h.right.unique hn' hm (he.symm.trans hname.symm)]
  exact hentry

theorem parent (h : Twins g g') {n n' : Node} (hn : n ∈ g.nodes) (hn' : n' ∈ g'.nodes)
    (he : n.fullName = n'.fullName) : g.nameAt n.parent = g'.nameAt n'.parent := by
  have hname : n'.name = n.name := congrArg Entry.name (h.entry hn hn' he)
  rcases h.left.nameAt_parent hn with ⟨hroot, hnone⟩ | ⟨hne, p, -, -, hp, hfull⟩
  · rcases h.right.nameAt_parent hn' with ⟨-, hnone'⟩ | ⟨hne', -⟩
    · rw [hnone, hnone']
    · exact absurd (he.symm.trans hroot) hne'
  · rcases h.right.nameAt_parent hn' with ⟨hroot', -⟩ | ⟨-, p', -, -, hp', hfull'⟩
    · exact absurd (he.trans hroot') hne
    · rw [hname] at hfull'
      have hsame : p.fullName = p'.fullName := childName_left (hfull.symm.trans (he.trans hfull'))
      rw [hp, hp', hsame]

/-! ## Meanings -/

theorem find?_isSome (h : Twins g g') (name : String) : (g.find? name).isSome = (g'.find? name).isSome := by
  have hnames : name ∈ g.fullNames ↔ name ∈ g'.fullNames := (h.perm.map (·.1)).mem_iff
  have hnone : g.find? name = none ↔ g'.find? name = none := by
    rw [h.left.find?_eq_none, h.right.find?_eq_none, hnames]
  cases hf : g.find? name <;> cases hf' : g'.find? name <;> simp_all

theorem nameAt_typeNamed? (h : g.Arena) {name : String} {i : Nat} (ht : g.typeNamed? name = some i) :
    g.nameAt (g.typeNamed? name) = some name := by
  obtain ⟨n, hn, hname, -⟩ := (typeNamed?_eq_some h).mp ht
  rw [ht, nameAt_some hn, hname]

theorem typeNamed?_isSome (h : Twins g g') {name : String} {i : Nat} (ht : g.typeNamed? name = some i) :
    ∃ i', g'.typeNamed? name = some i' := by
  obtain ⟨n, hn, hname, hk⟩ := (typeNamed?_eq_some h.left).mp ht
  obtain ⟨n', hn', hname', hentry⟩ := h.node (List.mem_of_getElem? hn)
  refine ⟨n'.index, (typeNamed?_eq_some h.right).mpr ⟨n', h.right.node?_of_mem hn', hname'.trans hname, ?_⟩⟩
  have hbody : n'.body = n.body := congrArg Entry.body hentry
  unfold Node.IsType Node.kind
  rw [hbody]
  exact hk

/-- A full name means the type that has it, in both graphs or in none. -/
theorem typeNamed? (h : Twins g g') (name : String) :
    (g.typeNamed? name = none ∧ g'.typeNamed? name = none) ∨
      ∃ i i', g.typeNamed? name = some i ∧ g'.typeNamed? name = some i' ∧
        g.nameAt (some i) = g'.nameAt (some i') := by
  cases ht : g.typeNamed? name with
  | some i =>
    obtain ⟨i', ht'⟩ := h.typeNamed?_isSome ht
    refine .inr ⟨i, i', rfl, ht', ?_⟩
    rw [← ht, ← ht', nameAt_typeNamed? h.left ht, nameAt_typeNamed? h.right ht']
  | none =>
    cases ht' : g'.typeNamed? name with
    | none => exact .inl ⟨rfl, rfl⟩
    | some i' =>
      obtain ⟨i, hi⟩ := h.symm.typeNamed?_isSome ht'
      rw [ht] at hi
      cases hi

theorem searchScopes_none {name first : String} : ∀ {fuel : Nat} {scope : Option Nat}, g.nameAt scope = none →
    g.searchScopes name first fuel scope = none
  | 0, _, _ => rfl
  | _ + 1, none, _ => rfl
  | fuel + 1, some i, h => by
    have hnode : g.node? i = none := nameAt_eq_none h
    rw [Graph.searchScopes, hnode]

/-- The search goes through scopes of the same names in both graphs. -/
theorem searchScopes (h : Twins g g') {name first : String} : ∀ {fuel : Nat} {scope scope' : Option Nat},
    g.nameAt scope = g'.nameAt scope' →
    g.nameAt (g.searchScopes name first fuel scope) = g'.nameAt (g'.searchScopes name first fuel scope') := by
  intro fuel
  induction fuel with
  | zero =>
    intro scope scope' _
    rfl
  | succ fuel ih =>
    intro scope scope' hscope
    cases hs : g.nameAt scope with
    | none => rw [searchScopes_none hs, searchScopes_none (hscope.symm.trans hs)]; rfl
    | some full =>
      obtain ⟨j, n, rfl, hn, hname⟩ := nameAt_eq_some hs
      obtain ⟨j', n', rfl, hn', hname'⟩ := nameAt_eq_some (hscope.symm.trans hs)
      have hsame : n.fullName = n'.fullName := hname.trans hname'.symm
      have hrest := ih (h.parent (List.mem_of_getElem? hn) (List.mem_of_getElem? hn') hsame)
      simp only [Graph.searchScopes, hn, hn', ← hsame, ← h.find?_isSome]
      by_cases hfirst : (g.find? (childName n.fullName first)).isSome = true
      · rcases h.typeNamed? (childName n.fullName name) with ⟨ht, ht'⟩ | ⟨i, i', ht, ht', hi⟩
        · simp only [hfirst, if_true, ht, ht']
          exact hrest
        · simp only [hfirst, if_true, ht, ht']
          exact hi
      · simp only [hfirst]
        exact hrest

/-- **Names mean the same in both graphs.** -/
theorem resolve (h : Twins g g') (name : String) {scope scope' : Option Nat} (hs : g.nameAt scope = g'.nameAt scope') :
    g.nameAt (g.resolve name scope) = g'.nameAt (g'.resolve name scope') := by
  unfold Graph.resolve
  split
  next rest _ =>
    rcases h.typeNamed? (String.ofList rest) with ⟨ht, ht'⟩ | ⟨i, i', ht, ht', hi⟩
    · rw [ht, ht']
      rfl
    · rw [ht, ht']
      exact hi
  next =>
    rw [h.length]
    exact h.searchScopes hs

/-- A name means nothing in both graphs or nodes of one full name. -/
theorem resolve_cases (h : Twins g g') (name : String) {scope scope' : Option Nat}
    (hs : g.nameAt scope = g'.nameAt scope') :
    (g.resolve name scope = none ∧ g'.resolve name scope' = none) ∨
      ∃ i i' n n', g.resolve name scope = some i ∧ g'.resolve name scope' = some i' ∧
        g.node? i = some n ∧ g'.node? i' = some n' ∧ n.fullName = n'.fullName := by
  have hname := h.resolve name hs
  cases hr : g.resolve name scope with
  | none =>
    cases hr' : g'.resolve name scope' with
    | none => exact .inl ⟨rfl, rfl⟩
    | some i' =>
      obtain ⟨n', hn', -⟩ := resolve_type h.right hr'
      rw [hr, hr', nameAt_some hn'] at hname
      cases hname
  | some i =>
    obtain ⟨n, hn, -⟩ := resolve_type h.left hr
    rw [hr, nameAt_some hn] at hname
    obtain ⟨i', n', hr', hn', hsame⟩ := nameAt_eq_some hname.symm
    exact .inr ⟨i, i', n, n', rfl, hr', hn, hn', hsame.symm⟩

/-! ## Defaults -/

theorem resolveBody_enum {n : Node} {values : List EnumValue} :
    g.resolveBody n = .enum values ↔ n.body = .enum values := by
  unfold resolveBody
  cases n.body <;> simp

/-- A field has the same default in both graphs. -/
theorem defaultOf (h : Twins g g') (f : Field) {scope scope' : Option Nat} (hs : g.nameAt scope = g'.nameAt scope') :
    g.resolveAll.defaultOf (g.resolvedField scope f) = g'.resolveAll.defaultOf (g'.resolvedField scope' f) := by
  have hnode {g : Graph} {i : Nat} {n : Node} (hn : g.node? i = some n) :
      g.resolveAll.node? i = some { n with body := g.resolveBody n } := by
    rw [node?] at hn
    simp [node?, resolveAll, hn]
  unfold Graph.defaultOf
  simp only [resolvedField]
  cases f.type with
  | repeated l => rfl
  | map key l => rfl
  | single l =>
    cases l with
    | scalar s => rfl
    | reference r =>
      simp only [ValueType.withLeaf, ValueType.leaf, resolveLeaf, resolveReference]
      rcases h.resolve_cases r.name hs with ⟨hr, hr'⟩ | ⟨i, i', n, n', hr, hr', hn, hn', hname⟩
      · rw [hr, hr']
        rfl
      · have hbody : n'.body = n.body :=
          congrArg Entry.body (h.entry (List.mem_of_getElem? hn) (List.mem_of_getElem? hn') hname)
        rw [hr, hr', Option.bind_some, Option.bind_some, hnode hn, hnode hn']
        by_cases hb : ∃ values, n.body = .enum values
        · obtain ⟨values, hb⟩ := hb
          have he : g.resolveBody n = .enum values := resolveBody_enum.mpr hb
          have he' : g'.resolveBody n' = .enum values := resolveBody_enum.mpr (hbody.trans hb)
          simp only [he, he', Node.numberOf?, Node.enumValues]
        · have hnot : ∀ values, g.resolveBody n ≠ .enum values := fun values he =>
            hb ⟨values, resolveBody_enum.mp he⟩
          have hnot' : ∀ values, g'.resolveBody n' ≠ .enum values := fun values he =>
            hb ⟨values, hbody ▸ resolveBody_enum.mp he⟩
          dsimp only
          split
          next he => exact absurd he (hnot _)
          next => rfl

end Twins

theorem setDefaults_ok_iff {g : Graph} : ∀ {ns : List Node}, (g.setDefaults ns).2 = none ↔
    ∀ n ∈ ns, ∀ f, n.body = .field f → ∃ v, g.defaultOf f = .ok v
  | [] => by simp [setDefaults]
  | n :: rest => by
    have ih := @setDefaults_ok_iff g rest
    rw [List.forall_mem_cons, ← ih, setDefaults]
    split
    next f hb =>
      cases hv : g.defaultOf f with
      | error e => simp [hb, hv]
      | ok v => simp [hb, hv]
    next hb => exact ⟨fun h => ⟨fun f hf => absurd hf (hb f), h⟩, And.right⟩

theorem resolveBody_field {g : Graph} {n : Node} {f : Field} : g.resolveBody n = .field f ↔
    ∃ f₀, n.body = .field f₀ ∧ f = g.resolvedField n.parent f₀ := by
  unfold resolveBody
  cases n.body with
  | field f₀ =>
    constructor
    · intro h
      exact ⟨f₀, rfl, (Body.field.inj h).symm⟩
    · rintro ⟨f₁, hf, rfl⟩
      cases hf
      rfl
  | _ => simp

/-- Resolution succeeds when every field has a default. -/
theorem finalize_ok_iff {g : Graph} : (∃ g' missing, g.finalize = (g', .ok missing)) ↔
    ∀ n ∈ g.nodes, ∀ f, n.body = .field f → ∃ v, g.resolveAll.defaultOf (g.resolvedField n.parent f) = .ok v := by
  have hfields : (∀ n ∈ g.resolveAll.nodes, ∀ f, n.body = .field f → ∃ v, g.resolveAll.defaultOf f = .ok v) ↔
      ∀ n ∈ g.nodes, ∀ f, n.body = .field f →
        ∃ v, g.resolveAll.defaultOf (g.resolvedField n.parent f) = .ok v := by
    have hnodes : g.resolveAll.nodes = g.nodes.map fun n => { n with body := g.resolveBody n } := rfl
    rw [hnodes, List.forall_mem_map]
    refine forall₂_congr fun n _ => ?_
    constructor
    · intro h f hb
      exact h _ (resolveBody_field.mpr ⟨f, hb, rfl⟩)
    · intro h f hb
      obtain ⟨f₀, hb₀, rfl⟩ := resolveBody_field.mp hb
      exact h f₀ hb₀
  rw [← hfields, ← setDefaults_ok_iff]
  unfold finalize
  dsimp only
  cases hd : (g.resolveAll.setDefaults g.resolveAll.nodes).2 with
  | none => simp
  | some e => simp

/-- **Resolution succeeds on twins alike.** -/
theorem Twins.finalize_iff {g g' : Graph} (h : Twins g g') :
    (∃ r missing, g.finalize = (r, .ok missing)) ↔ ∃ r missing, g'.finalize = (r, .ok missing) := by
  have hhalf : ∀ {g g' : Graph}, Twins g g' → (∃ r missing, g.finalize = (r, .ok missing)) →
      ∃ r missing, g'.finalize = (r, .ok missing) := by
    intro g g' h hok
    rw [finalize_ok_iff] at hok ⊢
    intro n' hn' f hb'
    obtain ⟨n, hn, hname, hentry⟩ := h.symm.node hn'
    have hb : n.body = .field f := (congrArg Entry.body hentry).trans hb'
    rw [← h.defaultOf f (h.parent hn hn' hname)]
    exact hok n hn f hb
  exact ⟨hhalf h, hhalf h.symm⟩

/-! ## Resolved graphs -/

/-- A node of a resolved graph and what it was before. -/
structure Resolved (g₀ : Graph) (n₀ n : Node) : Prop extends Origin g₀ n₀ n where
  entry : n.toEntry = { n₀.toEntry with body := n.body }

theorem finalize_resolved {g₀ g : Graph} {missing : List (Node × String)} (hf : g₀.finalize = (g, .ok missing)) :
    List.Forall₂ (Resolved g₀) g₀.nodes g.nodes ∧ g.files = g₀.files ∧ g.finalized = true := by
  unfold finalize at hf
  dsimp only at hf
  split at hf
  next => cases hf
  next hnone =>
    simp only [Prod.mk.injEq] at hf
    obtain ⟨rfl, -⟩ := hf
    refine ⟨?_, rfl, rfl⟩
    have hsettles := setDefaults_settles (Prod.ext rfl hnone)
    refine (List.forall₂_map_left_iff.mp hsettles).imp fun n₀ n hs => ⟨hs.origin, ?_⟩
    cases hs <;> rfl

section Resolved

variable {g₀ g : Graph} {n₀ n : Node}

theorem Resolved.fullName (h : Resolved g₀ n₀ n) : n.fullName = n₀.fullName := congrArg Place.fullName h.place

theorem Resolved.file (h : Resolved g₀ n₀ n) : n.file = n₀.file := by
  rw [h.entry]

theorem fullNames_resolved (h : List.Forall₂ (Resolved g₀) g₀.nodes g.nodes) : g.fullNames = g₀.fullNames := by
  rw [fullNames_eq, fullNames_eq]
  exact map_eq_of_forall₂ (fun _ _ hr => hr.fullName) h

theorem nameAt_resolved (h : List.Forall₂ (Resolved g₀) g₀.nodes g.nodes) (i : Option Nat) :
    g.nameAt i = g₀.nameAt i := by
  rw [nameAt, nameAt, fullNames_resolved h]

/-- The names of the children are those that the arena gave them. -/
theorem childNames_resolved (ha : g₀.Arena) (h : List.Forall₂ (Resolved g₀) g₀.nodes g.nodes)
    (hn : Resolved g₀ n₀ n) (hmem : n₀ ∈ g₀.nodes) :
    g.childNames n = (g₀.listing.filter (IsUnder n₀.fullName)).map (·.1) := by
  have hnames (k : Graph) (m : Node) : k.childNames m = m.children.filterMap (k.fullNames[·]?) := by
    rw [childNames, childrenOf, List.map_filterMap]
    refine List.filterMap_congr fun i _ => ?_
    rw [getElem?_fullNames]
  have hchildren : n.children = n₀.children := congrArg Place.children hn.place
  rw [hnames, hchildren, fullNames_resolved h, ← hnames, ← ha.children_listing hmem, List.map_map]
  rfl

theorem order_resolved (h : List.Forall₂ (Resolved g₀) g₀.nodes g.nodes) (file : String) :
    (g.nodes.filter (·.file = some file)).map (·.fullName) =
      (g₀.listing.filter (·.2.file = some file)).map (·.1) := by
  have hboth : g.nodes.map (fun n => (n.fullName, n.file)) = g₀.listing.map fun x => (x.1, x.2.file) := by
    rw [listing, List.map_map]
    exact map_eq_of_forall₂ (fun _ _ hr => by rw [hr.fullName, hr.file]; rfl) h
  have hfilter := congrArg (fun l => (l.filter fun x => decide (x.2 = some file)).map (·.1)) hboth
  simp only [List.filter_map, List.map_map] at hfilter
  exact hfilter

end Resolved

namespace Twins

variable {g₀ g₀' g g' : Graph} {n₀ n₀' n n' : Node}

/-- What surrounds the parent of a node has the same name in both graphs. -/
theorem scope (h : Twins g₀ g₀') (hn : n₀ ∈ g₀.nodes) (hn' : n₀' ∈ g₀'.nodes) (he : n₀.fullName = n₀'.fullName) :
    g₀.nameAt ((g₀.parentOf n₀).bind (·.parent)) = g₀'.nameAt ((g₀'.parentOf n₀').bind (·.parent)) := by
  have hparent := h.parent hn hn' he
  cases hp : g₀.nameAt n₀.parent with
  | none =>
    rw [parentOf, parentOf, nameAt_eq_none hp, nameAt_eq_none (hparent.symm.trans hp)]
    rfl
  | some name =>
    obtain ⟨i, p, hi, hpn, hname⟩ := nameAt_eq_some hp
    obtain ⟨i', p', hi', hpn', hname'⟩ := nameAt_eq_some (hparent.symm.trans hp)
    have hup : g₀.parentOf n₀ = some p := by rw [parentOf, hi, Option.bind_some, hpn]
    have hup' : g₀'.parentOf n₀' = some p' := by rw [parentOf, hi', Option.bind_some, hpn']
    rw [hup, hup']
    exact h.parent (List.mem_of_getElem? hpn) (List.mem_of_getElem? hpn') (hname.trans hname'.symm)

theorem erase_resolvedField (k : Graph) (scope : Option Nat) (f : Field) (v : Value) :
    (Body.field { k.resolvedField scope f with default := v }).erase = (Body.field { f with default := v }).erase := by
  simp only [Body.erase, resolvedField, leaf_withLeaf]
  cases f.type with
  | single l => cases l <;> rfl
  | repeated l => cases l <;> rfl
  | map key l => cases l <;> rfl

/-- A resolved body is the same in both graphs up to the numbers of its targets. -/
theorem body (h : Twins g₀ g₀') (hn : n₀ ∈ g₀.nodes) (hn' : n₀' ∈ g₀'.nodes) (he : n₀.fullName = n₀'.fullName)
    (ho : Origin g₀ n₀ n) (ho' : Origin g₀' n₀' n') :
    n.body.erase = n'.body.erase ∧ n.body.targets.map g₀.nameAt = n'.body.targets.map g₀'.nameAt := by
  have hbody : n₀'.body = n₀.body := congrArg Entry.body (h.entry hn hn' he)
  have hparent := h.parent hn hn' he
  have hkind : n'.kind = n.kind := by
    rw [ho.kind, ho'.kind, Node.kind, Node.kind, hbody]
  cases hb : n.body with
  | field f =>
    obtain ⟨f', hb'⟩ : ∃ f', n'.body = .field f' := by
      rw [Node.kind, Node.kind, hb] at hkind
      cases hb' : n'.body <;> simp [hb', Body.kind] at hkind ⊢
    obtain ⟨f₀, v, hb₀, rfl, hv⟩ := ho.field hb
    obtain ⟨f₀', v', hb₀', rfl, hv'⟩ := ho'.field hb'
    obtain rfl : f₀' = f₀ := by
      rw [hbody, hb₀] at hb₀'
      exact (Body.field.inj hb₀').symm
    obtain rfl : v = v' := by
      rw [← h.defaultOf f₀' hparent, hv] at hv'
      exact Except.ok.inj hv'
    have hbare : f₀'.extendeeTarget = none := by
      have hlisted : (n₀.fullName, n₀.toEntry) ∈ g₀.listing := mem_listing.mpr ⟨n₀, hn, rfl, rfl⟩
      have hbare : n₀.body.extendeeTarget? = none := h.bare _ hlisted
      rw [hb₀] at hbare
      exact hbare
    rw [hb', erase_resolvedField, erase_resolvedField]
    refine ⟨rfl, ?_⟩
    simp only [Body.targets, resolvedField, leaf_withLeaf, List.map_cons, List.map_nil, List.cons.injEq, and_true]
    constructor
    · cases f₀'.type.leaf with
      | scalar s => rfl
      | reference r => exact h.resolve r.name hparent
    · cases f₀'.extendee with
      | none =>
        simp only [hbare]
        rfl
      | some e => exact h.resolve e hparent
  | method m =>
    obtain ⟨m', hb'⟩ : ∃ m', n'.body = .method m' := by
      rw [Node.kind, Node.kind, hb] at hkind
      cases hb' : n'.body <;> simp [hb', Body.kind] at hkind ⊢
    obtain ⟨m₀, hb₀, rfl⟩ := ho.method hb
    obtain ⟨m₀', hb₀', rfl⟩ := ho'.method hb'
    obtain rfl : m₀' = m₀ := by
      rw [hbody, hb₀] at hb₀'
      exact (Body.method.inj hb₀').symm
    have hscope := h.scope hn hn' he
    rw [hb']
    refine ⟨rfl, ?_⟩
    simp only [Body.targets, resolveReference, List.map_cons, List.map_nil, List.cons.injEq, and_true]
    exact ⟨h.resolve _ hscope, h.resolve _ hscope⟩
  | _ =>
    have hne : n.kind ≠ .field ∧ n.kind ≠ .method := by
      rw [Node.kind, hb]
      constructor <;> rintro ⟨⟩
    have hsame : n'.body = n.body := by
      rw [ho.other hne.1 hne.2, ho'.other (hkind ▸ hne.1) (hkind ▸ hne.2), hbody]
    rw [hsame, hb]
    exact ⟨rfl, rfl⟩

/-- All that stands in a declaration is in its file, and the entries of a file are in one order. -/
theorem filter_under (h : Twins g₀ g₀') (hn : n₀ ∈ g₀.nodes) (hk : n₀.kind ≠ .package) :
    g₀.listing.filter (IsUnder n₀.fullName) = g₀'.listing.filter (IsUnder n₀.fullName) := by
  have hlisted : (n₀.fullName, n₀.toEntry) ∈ g₀.listing := mem_listing.mpr ⟨n₀, hn, rfl, rfl⟩
  obtain ⟨file, -, hall⟩ := h.inside _ hlisted hk
  rw [filter_inside hall, filter_inside fun y hy => hall y (h.perm.mem_iff.mpr hy), h.order]

/-- **Twins are resolved to the same graph up to the numbers of nodes.** -/
theorem renumbered {missing missing' : List (Node × String)} (h : Twins g₀ g₀')
    (hfiles : g₀.files.Perm g₀'.files) (hf : g₀.finalize = (g, .ok missing)) (hf' : g₀'.finalize = (g', .ok missing')) :
    g.Renumbered g' := by
  obtain ⟨hr, hgfiles, hfinal⟩ := finalize_resolved hf
  obtain ⟨hr', hgfiles', hfinal'⟩ := finalize_resolved hf'
  have hback {n : Node} (hn : n ∈ g.nodes) : ∃ n₀ ∈ g₀.nodes, Resolved g₀ n₀ n := forall₂_mem hr.flip hn
  have hback' {n' : Node} (hn' : n' ∈ g'.nodes) : ∃ n₀' ∈ g₀'.nodes, Resolved g₀' n₀' n' := forall₂_mem hr'.flip hn'
  refine ⟨?_, ?_, fun {n n'} hn hn' he => ?_, fun {n n'} hn hn' he => ?_, fun file => ?_, hfinal.trans hfinal'.symm⟩
  · rw [hgfiles, hgfiles']
    exact hfiles
  · rw [fullNames_resolved hr, fullNames_resolved hr']
    exact h.perm.map _
  · obtain ⟨n₀, hn₀, ho⟩ := hback hn
    obtain ⟨n₀', hn₀', ho'⟩ := hback' hn'
    have he₀ : n₀.fullName = n₀'.fullName := by rw [← ho.fullName, ← ho'.fullName, he]
    obtain ⟨herase, htargets⟩ := h.body hn₀ hn₀' he₀ ho.toOrigin ho'.toOrigin
    have hparent : n.parent = n₀.parent := congrArg Place.parent ho.place
    have hparent' : n'.parent = n₀'.parent := congrArg Place.parent ho'.place
    have hname : g.nameAt = g₀.nameAt := funext (nameAt_resolved hr)
    have hname' : g'.nameAt = g₀'.nameAt := funext (nameAt_resolved hr')
    simp only [portrait, Portrait.mk.injEq]
    refine ⟨?_, ?_, ?_⟩
    · rw [ho.entry, ho'.entry, h.entry hn₀ hn₀' he₀, herase]
    · rw [hname, hname', hparent, hparent']
      exact h.parent hn₀ hn₀' he₀
    · rw [hname, hname']
      exact htargets
  · obtain ⟨n₀, hn₀, ho⟩ := hback hn
    obtain ⟨n₀', hn₀', ho'⟩ := hback' hn'
    have he₀ : n₀.fullName = n₀'.fullName := by rw [← ho.fullName, ← ho'.fullName, he]
    rw [childNames_resolved h.left hr ho hn₀, childNames_resolved h.right hr' ho' hn₀', ← he₀]
    refine ⟨(h.perm.filter _).map _, fun hk => ?_⟩
    rw [h.filter_under hn₀ (ho.kind ▸ hk)]
  · rw [order_resolved hr, order_resolved hr', h.order]

end Twins

end Graph
end ProtoBind.Schema
