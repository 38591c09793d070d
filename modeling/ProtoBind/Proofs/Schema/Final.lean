/-
Resolved schema graphs.

Resolution looks at the places and the kinds of nodes only, and neither it nor
the computation of defaults changes these. So in a resolved graph every
reference has the target that its name means there, and every field has the
default that its type gives there (`Graph.Final`).
-/
import ProtoBind.Proofs.Results
import ProtoBind.Proofs.Schema.Formed

namespace ProtoBind.Schema.Graph

/-- What resolution sees of a node. -/
def outline (n : Node) : Place × Kind := (place n, n.kind)

/-- Two graphs with the same nodes up to what these declare. -/
structure Alike (g' g : Graph) : Prop where
  outlines : g'.nodes.map outline = g.nodes.map outline
  byName : g'.byName = g.byName

namespace Alike

variable {g g' g'' : Graph}

theorem symm (h : Alike g' g) : Alike g g' := ⟨h.outlines.symm, h.byName.symm⟩

theorem trans (h₁ : Alike g'' g') (h₂ : Alike g' g) : Alike g'' g :=
  ⟨h₁.outlines.trans h₂.outlines, h₁.byName.trans h₂.byName⟩

theorem places (h : Alike g' g) : g'.nodes.map place = g.nodes.map place := by
  have := congrArg (List.map Prod.fst) h.outlines
  rwa [List.map_map, List.map_map] at this

theorem length (h : Alike g' g) : g'.nodes.length = g.nodes.length := by
  simpa using congrArg List.length h.outlines

theorem find? (h : Alike g' g) (name : String) : g'.find? name = g.find? name := by
  rw [Graph.find?, Graph.find?, h.byName]

theorem node? (h : Alike g' g) (i : Nat) : (g'.node? i).map outline = (g.node? i).map outline := by
  have := congrArg (·[i]?) h.outlines
  simp only [List.getElem?_map] at this
  exact this

/-- The node at an index in both graphs, if there is one. -/
theorem node?_cases (h : Alike g' g) (i : Nat) : (g'.node? i = none ∧ g.node? i = none) ∨
    ∃ n' n, g'.node? i = some n' ∧ g.node? i = some n ∧ outline n' = outline n := by
  have hi := h.node? i
  cases hn : g.node? i with
  | none =>
    rw [hn, Option.map_none, Option.map_eq_none_iff] at hi
    exact .inl ⟨hi, rfl⟩
  | some n =>
    rw [hn, Option.map_some, Option.map_eq_some_iff] at hi
    obtain ⟨n', hn', he⟩ := hi
    exact .inr ⟨n', n, hn', rfl, he⟩

theorem typeNamed? (h : Alike g' g) (name : String) : g'.typeNamed? name = g.typeNamed? name := by
  unfold Graph.typeNamed?
  rw [h.find?]
  cases g.find? name with
  | none => rfl
  | some i =>
    rcases h.node?_cases i with ⟨hn', hn⟩ | ⟨n', n, hn', hn, he⟩
    · simp [hn', hn]
    · have hk : n'.kind = n.kind := congrArg Prod.snd he
      simp [hn', hn, hk]

theorem searchScopes (h : Alike g' g) (name first : String) : ∀ (fuel : Nat) (scope : Option Nat),
    g'.searchScopes name first fuel scope = g.searchScopes name first fuel scope
  | 0, _ => rfl
  | _ + 1, none => rfl
  | fuel + 1, some scope => by
    unfold Graph.searchScopes
    rcases h.node?_cases scope with ⟨hn', hn⟩ | ⟨n', n, hn', hn, he⟩
    · simp [hn', hn]
    · simp only [outline, place, Prod.mk.injEq, Place.mk.injEq] at he
      simp only [hn', hn, he.1.2.2.2.1, he.1.2.1, h.find?, h.typeNamed?, h.searchScopes name first fuel]

/-- Names mean the same in both graphs. -/
theorem resolve (h : Alike g' g) (name : String) (scope : Option Nat) :
    g'.resolve name scope = g.resolve name scope := by
  unfold Graph.resolve
  split
  · exact h.typeNamed? _
  · rw [h.searchScopes, h.length]

theorem parentOf (h : Alike g' g) {n n' : Node} (hn : n'.parent = n.parent) :
    ((g'.parentOf n').bind (·.parent)) = ((g.parentOf n).bind (·.parent)) := by
  unfold Graph.parentOf
  rw [hn]
  cases n.parent with
  | none => rfl
  | some i =>
    rcases h.node?_cases i with ⟨hp', hp⟩ | ⟨p', p, hp', hp, he⟩
    · simp [hp', hp]
    · have hpar : p'.parent = p.parent := congrArg (·.1.parent) he
      simp [hp', hp, hpar]

end Alike

/-- A well-formed graph in which every name has its meaning and every field its default. -/
structure Final (g : Graph) : Prop extends g.Formed where
  target : ∀ {n f r}, n ∈ g.nodes → n.body = .field f → f.type.leaf = .reference r →
    r.target = g.resolve r.name n.parent
  default : ∀ {n f}, n ∈ g.nodes → n.body = .field f → g.defaultOf f = .ok f.default
  request : ∀ {n m}, n ∈ g.nodes → n.body = .method m →
    m.request.target = g.resolve m.request.name ((g.parentOf n).bind (·.parent))
  response : ∀ {n m}, n ∈ g.nodes → n.body = .method m →
    m.response.target = g.resolve m.response.name ((g.parentOf n).bind (·.parent))

/-! ## Computing defaults -/

/-- A node and the same node with its default, if it is a field. -/
inductive Settles (g : Graph) : Node → Node → Prop
  | field {n : Node} {f : Field} {v : Value} : n.body = .field f → g.defaultOf f = .ok v →
    Settles g n { n with body := .field { f with default := v } }
  | other {n : Node} : (∀ f, n.body ≠ .field f) → Settles g n n

variable {g g' : Graph}

theorem setDefaults_settles : ∀ {ns ns' : List Node}, g.setDefaults ns = (ns', none) →
    List.Forall₂ (Settles g) ns ns'
  | [], ns', h => by
    cases h
    exact .nil
  | n :: rest, ns', h => by
    simp only [setDefaults] at h
    split at h
    next f hb =>
      split at h
      next => cases h
      next v hv =>
        simp only [Prod.mk.injEq] at h
        obtain ⟨rfl, hnone⟩ := h
        exact .cons (.field hb hv) (setDefaults_settles (Prod.ext rfl hnone))
    next hb =>
      simp only [Prod.mk.injEq] at h
      obtain ⟨rfl, hnone⟩ := h
      exact .cons (.other hb) (setDefaults_settles (Prod.ext rfl hnone))

theorem Settles.outline {n n' : Node} (h : Settles g n n') : outline n' = outline n := by
  cases h with
  | field hb _ => simp [Graph.outline, place, Node.kind, hb, Body.kind]
  | other _ => rfl

/-- Only fields of enum types have defaults that depend on other nodes, and only on enums. -/
theorem defaultOf_settled (h : List.Forall₂ (Settles g) g.nodes g'.nodes) (f : Field) :
    g'.defaultOf f = g.defaultOf f := by
  have hnode (i : Nat) : g'.node? i = g.node? i ∨
      ∃ n n', g.node? i = some n ∧ g'.node? i = some n' ∧ n.kind = .field ∧ n'.kind = .field := by
    cases hn : g.node? i with
    | none =>
      have hlen : g.nodes.length ≤ i := List.getElem?_eq_none_iff.mp hn
      exact .inl (List.getElem?_eq_none (h.length_eq ▸ hlen))
    | some n =>
      obtain ⟨n', hn', hs⟩ := forall₂_getElem? h hn
      cases hs with
      | field hb _ => exact .inr ⟨n, _, rfl, hn', by rw [Node.kind, hb]; rfl, rfl⟩
      | other _ => exact .inl hn'
  unfold defaultOf
  split
  · rfl
  · rfl
  · rfl
  next r _ =>
    cases hr : r.target with
    | none => rfl
    | some i =>
      simp only [Option.bind_some]
      rcases hnode i with he | ⟨n, n', hn, hn', hk, hk'⟩
      · rw [he]
      · have hnot {m : Node} (hm : m.kind = .field) : ∀ values, m.body ≠ .enum values := by
          intro values hb
          rw [Node.kind, hb] at hm
          cases hm
        rw [hn, hn']
        dsimp only
        split
        next hb => exact absurd hb (hnot hk' _)
        next =>
          split
          next hb => exact absurd hb (hnot hk _)
          next => rfl

/-! ## Resolving -/

theorem kind_resolveBody (n : Node) : (g.resolveBody n).kind = n.kind := by
  unfold resolveBody Node.kind
  split
  next h => rw [h]; rfl
  next h => rw [h]; rfl
  next => rfl

theorem resolveAll_alike : Alike g.resolveAll g where
  outlines := by
    simp only [resolveAll, List.map_map]
    refine List.map_congr_left fun n _ => ?_
    exact Prod.ext rfl (kind_resolveBody n)
  byName := rfl

/-- A field with its type resolved. -/
def resolvedField (g : Graph) (scope : Option Nat) (f : Field) : Field :=
  { f with
    type := f.type.withLeaf (g.resolveLeaf scope f.type.leaf)
    extendeeTarget := match f.extendee with
      | some e => g.resolve e scope
      | none => f.extendeeTarget }

theorem leaf_withLeaf (t : ValueType) (l : Leaf) : (t.withLeaf l).leaf = l := by cases t <;> rfl

theorem resolvedField_sound (g : Graph) (scope : Option Nat) {f : Field} (h : f.Sound) :
    (g.resolvedField scope f).Sound where
  leaf := by
    have hleaf := h.leaf
    rw [resolvedField, leaf_withLeaf]
    cases hl : f.type.leaf with
    | scalar k => trivial
    | reference r =>
      rw [hl] at hleaf
      exact hleaf
  single ho := by
    obtain ⟨l, hl⟩ := h.single ho
    exact ⟨_, by simp only [resolvedField, hl]; rfl⟩

/-- Where a node of a resolved graph comes from. -/
structure Origin (g₀ : Graph) (n₀ n : Node) : Prop where
  place : place n = place n₀
  kind : n.kind = n₀.kind
  field : ∀ {f}, n.body = .field f → ∃ f₀ v, n₀.body = .field f₀ ∧
    f = { g₀.resolvedField n₀.parent f₀ with default := v } ∧
    g₀.resolveAll.defaultOf (g₀.resolvedField n₀.parent f₀) = .ok v
  method : ∀ {m}, n.body = .method m → ∃ m₀, n₀.body = .method m₀ ∧ m = { m₀ with
    request := g₀.resolveReference m₀.request ((g₀.parentOf n₀).bind (·.parent))
    response := g₀.resolveReference m₀.response ((g₀.parentOf n₀).bind (·.parent)) }
  other : n.kind ≠ .field → n.kind ≠ .method → n.body = n₀.body

theorem Settles.origin {n₀ n : Node}
    (h : Settles g.resolveAll { n₀ with body := g.resolveBody n₀ } n) : Origin g n₀ n := by
  cases hb : n₀.body with
  | field f₀ =>
    have hres : g.resolveBody n₀ = .field (g.resolvedField n₀.parent f₀) := by
      unfold resolveBody
      rw [hb]
      rfl
    rw [hres] at h
    cases h with
    | field hf hv =>
      cases hf
      refine ⟨rfl, by simp [Node.kind, hb, Body.kind], fun hf => ?_, fun hm => (by cases hm),
        fun hk => absurd rfl hk⟩
      cases hf
      exact ⟨f₀, _, hb, rfl, hv⟩
    | other hn => exact absurd rfl (hn _)
  | method m₀ =>
    have hres : g.resolveBody n₀ = .method { m₀ with
        request := g.resolveReference m₀.request ((g.parentOf n₀).bind (·.parent))
        response := g.resolveReference m₀.response ((g.parentOf n₀).bind (·.parent)) } := by
      unfold resolveBody
      rw [hb]
    rw [hres] at h
    cases h with
    | field hf _ => cases hf
    | other _ =>
      refine ⟨rfl, by simp [Node.kind, hb, Body.kind], fun hf => (by cases hf), fun hm => ?_,
        fun _ hk => absurd rfl hk⟩
      cases hm
      exact ⟨m₀, hb, rfl⟩
  | _ =>
    have hres : g.resolveBody n₀ = n₀.body := by
      unfold resolveBody
      rw [hb]
    rw [hres] at h
    cases h with
    | field hf _ =>
      rw [hb] at hf
      cases hf
    | other _ =>
      exact ⟨rfl, rfl, fun hf => (by cases hb.symm.trans hf), fun hm => (by cases hb.symm.trans hm),
        fun _ _ => rfl⟩

namespace Origin

variable {g₀ : Graph} {n₀ n : Node}

theorem replaces (h : Origin g₀ n₀ n) : n.body.Replaces n₀.body := by
  have hk : n.body.kind = n₀.body.kind := h.kind
  cases hb : n.body with
  | field f =>
    obtain ⟨f₀, v, hb₀, rfl, -⟩ := h.field hb
    refine ⟨hb ▸ hk, fun k hk => ?_, fun hs => ?_⟩
    · rw [hb₀] at hk
      cases k <;> exact hk
    · rw [hb₀] at hs
      have hs' := resolvedField_sound g₀ n₀.parent hs
      exact ⟨hs'.leaf, hs'.single⟩
  | method m =>
    obtain ⟨m₀, hb₀, rfl⟩ := h.method hb
    rw [hb₀]
    exact ⟨rfl, fun k hk => by cases k <;> exact hk, fun _ => trivial⟩
  | _ =>
    have hsame := h.other (by rw [Node.kind, hb]; rintro ⟨⟩) (by rw [Node.kind, hb]; rintro ⟨⟩)
    rw [← hb, hsame]
    exact .refl _

theorem oneofs (h : Origin g₀ n₀ n) : n.oneofs = n₀.oneofs := by
  have hk : n.body.kind = n₀.body.kind := h.kind
  cases hb : n.body with
  | field f =>
    obtain ⟨f₀, v, hb₀, -⟩ := h.field hb
    simp [Node.oneofs, hb, hb₀]
  | method m =>
    obtain ⟨m₀, hb₀, -⟩ := h.method hb
    simp [Node.oneofs, hb, hb₀]
  | _ =>
    exact Node.oneofs_congr (h.other (by rw [Node.kind, hb]; rintro ⟨⟩) (by rw [Node.kind, hb]; rintro ⟨⟩))

/-- A field keeps its name, its tag and its group. -/
theorem fieldUnder (h : Origin g₀ n₀ n) (i : Nat) :
    (fieldUnder i n).map (fun x => (x.1, x.2.tag, x.2.oneof)) =
      (Graph.fieldUnder i n₀).map (fun x => (x.1, x.2.tag, x.2.oneof)) := by
  have hp : n.parent = n₀.parent := congrArg Place.parent h.place
  have hname : n.name = n₀.name := congrArg Place.name h.place
  unfold Graph.fieldUnder
  rw [hp]
  split
  · by_cases hf : n.kind = .field
    · obtain ⟨f, hb⟩ : ∃ f, n.body = .field f := by
        unfold Node.kind Body.kind at hf
        split at hf <;> first | exact ⟨_, ‹_›⟩ | cases hf
      obtain ⟨f₀, v, hb₀, rfl, -⟩ := h.field hb
      simp [Node.field?, hb, hb₀, hname, resolvedField]
    · rw [Node.field?_eq_none hf, Node.field?_eq_none (h.kind ▸ hf)]
      rfl
  · rfl

end Origin

/-- A graph of settled nodes is final. -/
theorem settled_final {g₀ : Graph} (h : g₀.Formed)
    (hs : List.Forall₂ (Settles g₀.resolveAll) g₀.resolveAll.nodes g.nodes)
    (hn : g.byName = g₀.byName) : g.Final := by
  have halike : Alike g g₀ := by
    have : Alike g g₀.resolveAll := ⟨map_eq_of_forall₂ (fun _ _ h => h.outline) hs, hn⟩
    exact this.trans resolveAll_alike
  have horigin : List.Forall₂ (Origin g₀) g₀.nodes g.nodes := by
    simp only [resolveAll] at hs
    exact (List.forall₂_map_left_iff.mp hs).imp fun _ _ h => h.origin
  have hat {i : Nat} {n : Node} (hi : g.node? i = some n) : ∃ n₀, g₀.node? i = some n₀ ∧ Origin g₀ n₀ n :=
    forall₂_getElem? horigin.flip hi
  have hmem {n : Node} (hi : n ∈ g.nodes) : ∃ n₀, Origin g₀ n₀ n := by
    obtain ⟨i, hi⟩ := List.mem_iff_getElem?.mp hi
    obtain ⟨n₀, -, ho⟩ := hat hi
    exact ⟨n₀, ho⟩
  have hshaped : g.Shaped := h.toShaped.reshape halike.places hn fun hi => by
    obtain ⟨n₀, hn₀, ho⟩ := hat hi
    exact ⟨n₀, hn₀, ho.replaces⟩
  have hfields (i : Nat) : (g.fieldsUnder i).map (fun x => (x.1, x.2.tag, x.2.oneof)) =
      (g₀.fieldsUnder i).map (fun x => (x.1, x.2.tag, x.2.oneof)) := by
    have := congrArg (List.filterMap id) (map_eq_of_forall₂ (fun _ _ ho => ho.fieldUnder i) horigin)
    simpa only [fieldsUnder, List.map_filterMap, List.filterMap_map, Function.id_comp] using this
  refine { hshaped with tidy := ?_, target := ?_, default := ?_, request := ?_, response := ?_ }
  · intro i n hi hk
    obtain ⟨n₀, hn₀, ho⟩ := hat hi
    rw [ho.oneofs]
    exact (h.tidy i n₀ hn₀ (ho.kind ▸ hk)).congr (hfields i)
  · intro n f r hn hb hr
    obtain ⟨n₀, ho⟩ := hmem hn
    obtain ⟨f₀, v, -, rfl, -⟩ := ho.field hb
    have hp : n.parent = n₀.parent := congrArg Place.parent ho.place
    simp only [resolvedField, leaf_withLeaf] at hr
    cases hl : f₀.type.leaf with
    | scalar k =>
      rw [hl] at hr
      cases hr
    | reference r₀ =>
      rw [hl] at hr
      cases hr
      rw [hp, halike.resolve]
      rfl
  · intro n f hn hb
    obtain ⟨n₀, ho⟩ := hmem hn
    obtain ⟨f₀, v, -, rfl, hv⟩ := ho.field hb
    rw [defaultOf_settled hs]
    exact hv
  · intro n m hn hb
    obtain ⟨n₀, ho⟩ := hmem hn
    obtain ⟨m₀, -, rfl⟩ := ho.method hb
    rw [halike.parentOf (congrArg Place.parent ho.place), halike.resolve]
    rfl
  · intro n m hn hb
    obtain ⟨n₀, ho⟩ := hmem hn
    obtain ⟨m₀, -, rfl⟩ := ho.method hb
    rw [halike.parentOf (congrArg Place.parent ho.place), halike.resolve]
    rfl

/-- **Resolution gives a well-formed graph its meanings and its defaults.** -/
theorem finalize_final {g₀ : Graph} {missing : List (Node × String)} (h : g₀.Formed)
    (hf : g₀.finalize = (g, .ok missing)) : g.Final := by
  unfold finalize at hf
  dsimp only at hf
  split at hf
  next => cases hf
  next hnone =>
    simp only [Prod.mk.injEq] at hf
    obtain ⟨rfl, -⟩ := hf
    have hsettles := setDefaults_settles (Prod.ext rfl hnone)
    exact settled_final h hsettles rfl

end ProtoBind.Schema.Graph
