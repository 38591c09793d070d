/-
Well-formed schema graphs.

`Graph.Shaped` is the arena together with what its nodes declare: every node
stands under a parent of a kind that may hold it, names have no dots, and a
reference never has the name of a scalar kind. `Graph.Formed` adds the law of
each message (`Tidy`): no two of its fields share a tag, and its oneof groups
list exactly the fields that say they belong to them, in order.
-/
import ProtoBind.Proofs.Schema.Arena
import ProtoBind.Proofs.Source.Names

namespace ProtoBind.Schema

open Source (Plain)

/-- A node of the kind may stand above one with the body. -/
def Kind.Holds : Kind → Body → Prop
  | .package, .field f => f.extendee ≠ none ∧ f.oneof = none
  | .package, .method _ => False
  | .package, _ => True
  | .message, .field f => f.extendee = none
  | .message, .message _ _ | .message, .enum _ => True
  | .service, .method _ => True
  | _, _ => False

/-- The kinds that stand one above the other. -/
theorem Kind.Holds.kinds {k : Kind} {b : Body} (h : k.Holds b) :
    (k = .package ∧ b.kind ≠ .method) ∨
    (k = .message ∧ (b.kind = .field ∨ b.kind = .message ∨ b.kind = .enum)) ∨
    (k = .service ∧ b.kind = .method) := by
  cases k <;> cases b <;> simp_all [Kind.Holds, Body.kind]

/-- Scalar kinds are never referred to by name. -/
def Leaf.Sound : Leaf → Prop
  | .scalar _ => True
  | .reference r => Scalar.ofName? r.name = none

structure Field.Sound (f : Field) : Prop where
  leaf : f.type.leaf.Sound
  single : f.oneof ≠ none → ∃ l, f.type = .single l

def Body.Sound : Body → Prop
  | .field f => f.Sound
  | _ => True

theorem Leaf.ofName_sound (name : String) : (Leaf.ofName name).Sound := by
  unfold ofName
  split
  next => trivial
  next h => exact h

/-- The law of a message with the named fields and the groups. -/
structure Tidy (fields : List (String × Field)) (groups : List OneofGroup) : Prop where
  tags : (fields.map (·.2.tag)).Nodup
  members : groups.flatMap (fun group => group.fields.map (·, group.name)) =
    fields.filterMap fun x => x.2.oneof.map (x.1, ·)

namespace Tidy

variable {fields : List (String × Field)} {groups : List OneofGroup} {name : String} {f : Field}

theorem nodup_tags (h : Tidy fields groups) (htag : f.tag ∉ fields.map (·.2.tag)) :
    ((fields ++ [(name, f)]).map (·.2.tag)).Nodup := by
  rw [List.map_append, List.nodup_append]
  refine ⟨h.tags, by simp, fun a ha b hb => ?_⟩
  obtain rfl : b = f.tag := by simpa using hb
  exact fun he => htag (he ▸ ha)

theorem concat_field (h : Tidy fields groups) (htag : f.tag ∉ fields.map (·.2.tag))
    (hone : f.oneof = none) : Tidy (fields ++ [(name, f)]) groups := by
  refine ⟨h.nodup_tags htag, ?_⟩
  rw [List.filterMap_append, ← h.members]
  simp [hone]

theorem concat_group (h : Tidy fields groups) (doc : Option String) :
    Tidy fields (groups ++ [⟨name, doc, []⟩]) := by
  refine ⟨h.tags, ?_⟩
  rw [List.flatMap_append, h.members]
  simp

/-- The law looks at names, tags and groups only. -/
theorem congr {fields' : List (String × Field)} (h : Tidy fields groups)
    (hf : fields'.map (fun x => (x.1, x.2.tag, x.2.oneof)) =
      fields.map (fun x => (x.1, x.2.tag, x.2.oneof))) : Tidy fields' groups where
  tags := by
    have := congrArg (List.map fun x : String × Int × Option String => x.2.1) hf
    simp only [List.map_map] at this
    exact this ▸ h.tags
  members := by
    have := congrArg (List.filterMap fun x : String × Int × Option String => x.2.2.map (x.1, ·)) hf
    simp only [List.filterMap_map] at this
    exact h.members.trans this.symm

/-- A field joins the last group. -/
theorem concat_member {last : OneofGroup} (h : Tidy fields (groups ++ [last]))
    (htag : f.tag ∉ fields.map (·.2.tag)) (hone : f.oneof = some last.name) :
    Tidy (fields ++ [(name, f)]) (groups ++ [{ last with fields := last.fields ++ [name] }]) := by
  refine ⟨h.nodup_tags htag, ?_⟩
  have hm := h.members
  rw [List.flatMap_append, List.flatMap_singleton] at hm
  rw [List.filterMap_append, ← hm]
  simp [hone]

end Tidy

theorem Node.field?_eq_some_iff {n : Node} {f : Field} : n.field? = some f ↔ n.body = .field f := by
  unfold Node.field?
  split
  next h => simp [h]
  next h => exact ⟨nofun, fun hf => absurd hf (h f)⟩

theorem Node.field?_eq_none {n : Node} (h : n.kind ≠ .field) : n.field? = none := by
  rw [Option.eq_none_iff_forall_ne_some]
  intro f hf
  rw [Node.field?_eq_some_iff] at hf
  exact h (by rw [Node.kind, hf]; rfl)

theorem Node.oneofs_congr {n m : Node} (h : n.body = m.body) : n.oneofs = m.oneofs := by
  unfold Node.oneofs
  rw [h]

namespace Graph

/-- The field that a node is under a parent. -/
def fieldUnder (i : Nat) (c : Node) : Option (String × Field) :=
  if c.parent = some i then c.field?.map (c.name, ·) else none

/-- The fields under a node with their names, in order. -/
def fieldsUnder (g : Graph) (i : Nat) : List (String × Field) := g.nodes.filterMap (fieldUnder i)

structure Shaped (g : Graph) : Prop extends g.Arena where
  placed : ∀ {n p}, n ∈ g.nodes → p ∈ g.nodes → n.parent = some p.index → p.kind.Holds n.body
  plain : ∀ n ∈ g.nodes, Plain n.name
  sound : ∀ n ∈ g.nodes, n.body.Sound

/-- If the node is a message, it is a tidy one. -/
def TidyAt (g : Graph) (i : Nat) : Prop :=
  ∀ n, g.node? i = some n → n.kind = .message → Tidy (g.fieldsUnder i) n.oneofs

structure Formed (g : Graph) : Prop extends g.Shaped where
  tidy : ∀ i, g.TidyAt i

variable {g : Graph}

theorem Arena.fieldsUnder (h : g.Arena) {n : Node} (hn : n ∈ g.nodes) :
    g.fieldsUnder n.index = (g.childrenOf n).filterMap fun c => c.field?.map (c.name, ·) := by
  rw [h.childrenOf hn, List.filterMap_filter]
  exact List.filterMap_congr fun c _ => by
    by_cases hp : c.parent = some n.index <;> simp [fieldUnder, hp]

theorem empty_formed : Graph.empty.Formed where
  toArena := Arena.empty
  placed {n p} hn _ hp := by
    obtain rfl : n = root := by simpa [empty] using hn
    cases hp
  plain n hn := by
    obtain rfl : n = root := by simpa [empty] using hn
    exact Plain.empty
  sound n hn := by
    obtain rfl : n = root := by simpa [empty] using hn
    trivial
  tidy i n hn hk := by
    cases i with
    | zero =>
      cases hn
      cases hk
    | succ i => cases hn

/-! ## Other bodies -/

end Graph

/-- A body that may take the place of another. -/
structure Body.Replaces (b' b : Body) : Prop where
  kind : b'.kind = b.kind
  holds : ∀ k : Kind, k.Holds b → k.Holds b'
  sound : b.Sound → b'.Sound

theorem Body.Replaces.refl (b : Body) : b.Replaces b := ⟨rfl, fun _ h => h, id⟩

namespace Graph

variable {g g' : Graph}

theorem Shaped.reshape (h : g.Shaped) (hp : g'.nodes.map place = g.nodes.map place)
    (hn : g'.byName = g.byName)
    (hb : ∀ {i n'}, g'.node? i = some n' → ∃ n, g.node? i = some n ∧ n'.body.Replaces n.body) :
    g'.Shaped := by
  have harena : g'.Arena := by
    refine h.toArena.reshape hp (fun n' hn' => ?_) hn
    obtain ⟨r, hr, hk, -⟩ := h.root
    obtain ⟨n, hn, hrep⟩ := hb hn'
    obtain rfl : r = n := Option.some.inj (hr.symm.trans hn)
    exact hrep.kind.trans hk
  have hmem : ∀ n' ∈ g'.nodes, ∃ n ∈ g.nodes, place n = place n' ∧ n'.body.Replaces n.body := by
    intro n' hn'
    have hnode := harena.node?_of_mem hn'
    obtain ⟨n, hn, hrep⟩ := hb hnode
    obtain ⟨m, hm, hpl⟩ := Arena.node?_of_place hp hnode
    obtain rfl : n = m := Option.some.inj (hn.symm.trans hm)
    exact ⟨n, List.mem_of_getElem? hn, hpl, hrep⟩
  refine { harena with placed := ?_, plain := ?_, sound := ?_ }
  · intro n' p' hn' hp' hpar
    obtain ⟨n, hn, hpl, hrep⟩ := hmem n' hn'
    obtain ⟨q, hq, hpq, hkq⟩ := hmem p' hp'
    simp only [place, Place.mk.injEq] at hpl hpq
    have := h.placed hn hq (by rw [hpl.2.1, hpar, hpq.1])
    rw [show p'.kind = q.kind from hkq.kind]
    exact hrep.holds _ this
  · intro n' hn'
    obtain ⟨n, hn, hpl, -⟩ := hmem n' hn'
    simp only [place, Place.mk.injEq] at hpl
    exact hpl.2.2.2.2 ▸ h.plain n hn
  · intro n' hn'
    obtain ⟨n, hn, -, hrep⟩ := hmem n' hn'
    exact hrep.sound (h.sound n hn)

/-! ## Adding a node -/

section Adopt

variable {entry : Entry} {p : Nat} {pn : Node}

theorem Shaped.adopt (h : g.Shaped) (hp : g.node? p = some pn)
    (hf : g.find? (childName pn.fullName entry.name) = none) (hname : Plain entry.name)
    (hbody : entry.body.Sound) (hholds : pn.kind.Holds entry.body) : (g.adopt entry p pn).Shaped where
  toArena := h.toArena.adopt hp hf
  placed {n' q'} hn' hq' hpar := by
    rcases mem_adopt hq' with ⟨q, hq, heq, -, hqi⟩ | rfl
    · have hk : q'.kind = q.kind := congrArg (·.body.kind) heq
      rcases mem_adopt hn' with ⟨n, hn, hen, hnp, -⟩ | rfl
      · have hb : n'.body = n.body := congrArg (·.body) hen
        rw [hk, hb]
        exact h.placed hn hq (by rw [← hnp, hpar, hqi])
      · obtain rfl : p = q.index := by rw [← hqi]; exact Option.some.inj hpar
        obtain rfl : pn = q := Option.some.inj (hp.symm.trans (h.node?_of_mem hq))
        rwa [hk]
    · -- The new node has no children yet.
      exfalso
      have hp' := lt_of_node? hp
      rcases mem_adopt hn' with ⟨n, hn, -, hnp, -⟩ | rfl
      · have hlt := h.parent_lt hn (hnp.symm.trans hpar)
        exact Nat.lt_asymm hlt (h.lt_length hn)
      · exact Nat.ne_of_lt hp' (Option.some.inj hpar)
  plain n' hn' := by
    rcases mem_adopt hn' with ⟨n, hn, he, -⟩ | rfl
    · exact (congrArg (·.name) he) ▸ h.plain n hn
    · exact hname
  sound n' hn' := by
    rcases mem_adopt hn' with ⟨n, hn, he, -⟩ | rfl
    · exact (congrArg (·.body) he) ▸ h.sound n hn
    · exact hbody

/-- A new field is the last one under its parent. -/
theorem fieldsUnder_adopt_field {f : Field} (hb : entry.body = .field f) :
    (g.adopt entry p pn).fieldsUnder p = g.fieldsUnder p ++ [(entry.name, f)] := by
  rw [fieldsUnder, filterMap_adopt fun _ _ => rfl]
  simp [fieldUnder, adopted, Node.field?, hb, fieldsUnder]

theorem fieldsUnder_adopt_of_ne {j : Nat} (hj : j ≠ p) :
    (g.adopt entry p pn).fieldsUnder j = g.fieldsUnder j := by
  rw [fieldsUnder, filterMap_adopt fun _ _ => rfl]
  simp [fieldUnder, adopted, hj.symm, fieldsUnder]

theorem fieldsUnder_adopt_of_kind {j : Nat} (hk : entry.body.kind ≠ .field) :
    (g.adopt entry p pn).fieldsUnder j = g.fieldsUnder j := by
  have hnone : (g.adopted entry p pn).field? = none := by
    unfold Node.field? adopted
    cases h : entry.body <;> first | rfl | exact absurd (by rw [h]; rfl) hk
  rw [fieldsUnder, filterMap_adopt fun _ _ => rfl]
  simp [fieldUnder, hnone, fieldsUnder]

end Adopt

/-! ## Changing the groups of a message -/

/-- A node with other groups, if it is a message. -/
def regrouped (f : List OneofGroup → List OneofGroup) (n : Node) : Node :=
  match n.body with
  | .message dialect groups => { n with body := .message dialect (f groups) }
  | _ => n

def regroup (g : Graph) (index : Nat) (f : List OneofGroup → List OneofGroup) : Graph :=
  { g with nodes := g.nodes.modify index (regrouped f) }

variable {f : List OneofGroup → List OneofGroup} {index : Nat}

theorem place_regrouped (n : Node) : place (regrouped f n) = place n := by
  unfold regrouped
  split <;> rfl

theorem kind_regrouped (n : Node) : (regrouped f n).kind = n.kind := by
  unfold regrouped
  split
  next h => simp [Node.kind, h, Body.kind]
  next => rfl

theorem oneofs_regrouped {n : Node} (h : n.kind = .message) :
    (regrouped f n).oneofs = f n.oneofs := by
  unfold regrouped
  split
  next hb => simp [Node.oneofs, hb]
  next hb =>
    unfold Node.kind Body.kind at h
    split at h <;> first | exact absurd ‹_› (hb _ _) | cases h

theorem modify_last {groups : List OneofGroup} {last : OneofGroup} {change : OneofGroup → OneofGroup} :
    (groups ++ [last]).modify ((groups ++ [last]).length - 1) change = groups ++ [change last] := by
  induction groups with
  | nil => rfl
  | cons a rest ih =>
    have hlen : (a :: rest ++ [last]).length - 1 = (rest ++ [last]).length - 1 + 1 := by simp
    rw [hlen, List.cons_append, List.modify_succ_cons, ih, List.cons_append]

theorem node?_regroup {j : Nat} {n' : Node} : (g.regroup index f).node? j = some n' ↔
    ∃ n, g.node? j = some n ∧ n' = if index = j then regrouped f n else n := by
  simp only [node?, regroup, List.getElem?_modify]
  cases g.nodes[j]? with
  | none => simp
  | some n => simp [eq_comm]

theorem fieldsUnder_regroup {j : Nat} : (g.regroup index f).fieldsUnder j = g.fieldsUnder j := by
  refine filterMap_modify (fun n => ?_) _ _
  unfold fieldUnder regrouped
  split
  next hb => simp [Node.field?, hb]
  next => rfl

theorem Shaped.regroup (h : g.Shaped) : (g.regroup index f).Shaped := by
  refine h.reshape ?_ rfl fun {j n'} hn' => ?_
  · simp only [← List.filterMap_eq_map']
    exact filterMap_modify (fun n => by rw [place_regrouped]) _ _
  · obtain ⟨n, hn, rfl⟩ := node?_regroup.mp hn'
    refine ⟨n, hn, ?_⟩
    split
    · unfold regrouped
      split
      next hb => exact ⟨by rw [hb]; rfl, fun k hk => by cases k <;> simp_all [Kind.Holds], fun _ => trivial⟩
      next => exact .refl _
    · exact .refl _

/-! ## Growing -/

/-- One graph grew out of another; among the messages that were there only `k` may have got
fields. -/
structure Grown (k : Nat) (g g' : Graph) : Prop where
  formed : g'.Formed
  kept : ∀ {j n}, g.node? j = some n → ∃ n', g'.node? j = some n' ∧ n'.kind = n.kind ∧
    (n.kind = .message → j ≠ k → g'.fieldsUnder j = g.fieldsUnder j)

namespace Grown

variable {g'' : Graph} {k : Nat}

theorem refl (h : g.Formed) : Grown k g g := ⟨h, fun {_ n} hn => ⟨n, hn, rfl, fun _ _ => rfl⟩⟩

theorem trans (h₁ : Grown k g g') (h₂ : Grown k g' g'') : Grown k g g'' where
  formed := h₂.formed
  kept hn := by
    obtain ⟨n₁, hn₁, hk₁, hf₁⟩ := h₁.kept hn
    obtain ⟨n₂, hn₂, hk₂, hf₂⟩ := h₂.kept hn₁
    refine ⟨n₂, hn₂, hk₂.trans hk₁, fun hm hj => ?_⟩
    rw [hf₂ (hk₁.trans hm) hj, hf₁ hm hj]

/-- What only touches new messages touches none of the old ones. -/
theorem fresh (h : Grown g.nodes.length g g') (k : Nat) : Grown k g g' where
  formed := h.formed
  kept hn := by
    obtain ⟨n', hn', hk, hf⟩ := h.kept hn
    exact ⟨n', hn', hk, fun hm _ => hf hm (Nat.ne_of_lt (lt_of_node? hn))⟩

theorem fieldsUnder_fresh (h : Grown g.nodes.length g g') {n : Node} {j : Nat} (hn : g.node? j = some n)
    (hm : n.kind = .message) : g'.fieldsUnder j = g.fieldsUnder j := by
  obtain ⟨-, -, -, hf⟩ := h.kept hn
  exact hf hm (Nat.ne_of_lt (lt_of_node? hn))

end Grown

section Adopt

variable {entry : Entry} {p : Nat} {pn : Node}

theorem Arena.fieldsUnder_length (h : g.Arena) : g.fieldsUnder g.nodes.length = [] := by
  refine List.filterMap_eq_nil_iff.mpr fun c hc => if_neg fun hp => ?_
  exact Nat.lt_asymm (h.parent_lt hc hp) (h.lt_length hc)

/-- Messages with the same fields as before are as tidy as before; a new message is empty. -/
theorem Formed.tidyAt_adopt (h : g.Formed) (hp : g.node? p = some pn)
    (hnew : (g.adopted entry p pn).oneofs = []) {j : Nat}
    (hf : ∀ n, g.node? j = some n → n.kind = .message →
      (g.adopt entry p pn).fieldsUnder j = g.fieldsUnder j) : (g.adopt entry p pn).TidyAt j := by
  intro n' hn' hk
  rcases node?_adopt_cases hn' with ⟨n, hn, he⟩ | ⟨rfl, rfl⟩
  · have hb : n'.body = n.body := congrArg (·.body) he
    have hm : n.kind = .message := by rw [← hk, Node.kind, Node.kind, hb]
    rw [hf n hn hm, Node.oneofs_congr hb]
    exact h.tidy j n hn hm
  · rw [fieldsUnder_adopt_of_ne (Nat.ne_of_gt (lt_of_node? hp)), h.fieldsUnder_length, hnew]
    exact ⟨List.nodup_nil, rfl⟩

theorem kept_adopt {k j : Nat} {n : Node} (hk : entry.body.kind = .field → pn.kind = .message → p = k)
    (hp : g.node? p = some pn) (hn : g.node? j = some n) :
    ∃ n', (g.adopt entry p pn).node? j = some n' ∧ n'.kind = n.kind ∧
      (n.kind = .message → j ≠ k → (g.adopt entry p pn).fieldsUnder j = g.fieldsUnder j) := by
  obtain ⟨n', hn', he, -⟩ := node?_adopt_of_node? entry p pn hn
  refine ⟨n', hn', congrArg (·.body.kind) he, fun hm hj => ?_⟩
  by_cases hf : entry.body.kind = .field
  · by_cases hjp : j = p
    · subst hjp
      obtain rfl : pn = n := Option.some.inj (hp.symm.trans hn)
      exact absurd (hk hf hm) hj
    · exact fieldsUnder_adopt_of_ne hjp
  · exact fieldsUnder_adopt_of_kind hf

/-- A node other than a field of a message leaves every message as it was. -/
theorem Formed.adopt (h : g.Formed) (hp : g.node? p = some pn)
    (hf : g.find? (childName pn.fullName entry.name) = none) (hname : Plain entry.name)
    (hbody : entry.body.Sound) (hholds : pn.kind.Holds entry.body)
    (hk : entry.body.kind = .field → pn.kind ≠ .message)
    (hnew : (g.adopted entry p pn).oneofs = []) : Grown g.nodes.length g (g.adopt entry p pn) := by
  have hshaped := h.toShaped.adopt hp hf hname hbody hholds
  have hkept {j n} := kept_adopt (k := g.nodes.length) (j := j) (n := n)
    (fun h₁ h₂ => absurd h₂ (hk h₁)) hp
  refine ⟨{ hshaped with tidy := fun j => h.tidyAt_adopt hp hnew fun n hn hm => ?_ }, hkept⟩
  obtain ⟨-, -, -, hsame⟩ := hkept hn
  exact hsame hm (Nat.ne_of_lt (lt_of_node? hn))

/-- A field outside the groups, with a tag of its own, can be added to a message. -/
theorem Formed.adopt_field (h : g.Formed) (hp : g.node? p = some pn)
    (hf : g.find? (childName pn.fullName entry.name) = none) (hname : Plain entry.name)
    (hm : pn.kind = .message) {f : Field} (hb : entry.body = .field f) (hbody : f.Sound)
    (hext : f.extendee = none) (hone : f.oneof = none)
    (htag : f.tag ∉ (g.fieldsUnder p).map (·.2.tag)) : Grown p g (g.adopt entry p pn) := by
  have hshaped := h.toShaped.adopt hp hf hname (by rw [hb]; exact hbody)
    (by rw [hb, hm]; exact hext)
  have hnew : (g.adopted entry p pn).oneofs = [] := by simp [adopted, Node.oneofs, hb]
  refine ⟨{ hshaped with tidy := fun j => ?_ }, kept_adopt (fun _ _ => rfl) hp⟩
  by_cases hj : j = p
  · subst hj
    intro n' hn' _
    obtain ⟨n, hn, he⟩ | ⟨hlen, -⟩ := node?_adopt_cases hn'
    · obtain rfl : pn = n := Option.some.inj (hp.symm.trans hn)
      rw [fieldsUnder_adopt_field hb, Node.oneofs_congr (congrArg (·.body) he)]
      exact (h.tidy j pn hp hm).concat_field htag hone
    · exact absurd hlen (Nat.ne_of_lt (lt_of_node? hp))
  · exact h.tidyAt_adopt hp hnew fun n _ _ => fieldsUnder_adopt_of_ne hj

/-- A field with a tag of its own can be added to a message and to its last group. -/
theorem Formed.adopt_member (h : g.Formed) (hp : g.node? p = some pn)
    (hf : g.find? (childName pn.fullName entry.name) = none) (hname : Plain entry.name)
    (hm : pn.kind = .message) {f : Field} (hb : entry.body = .field f) (hbody : f.Sound)
    (hext : f.extendee = none) {groups : List OneofGroup} {last : OneofGroup}
    (hlast : pn.oneofs = groups ++ [last]) (hone : f.oneof = some last.name)
    (htag : f.tag ∉ (g.fieldsUnder p).map (·.2.tag)) :
    Grown p g ((g.adopt entry p pn).regroup p fun groups =>
      groups.modify (groups.length - 1) fun g => { g with fields := g.fields ++ [entry.name] }) := by
  have hshaped := h.toShaped.adopt hp hf hname (by rw [hb]; exact hbody)
    (by rw [hb, hm]; exact hext)
  have hnew : (g.adopted entry p pn).oneofs = [] := by simp [adopted, Node.oneofs, hb]
  refine ⟨{ hshaped.regroup with tidy := fun j => ?_ }, fun {j n} hn => ?_⟩
  · intro n' hn' hk
    obtain ⟨n, hn, rfl⟩ := node?_regroup.mp hn'
    rw [fieldsUnder_regroup]
    by_cases hj : p = j
    · subst hj
      obtain ⟨m, hmn, he⟩ | ⟨hlen, -⟩ := node?_adopt_cases hn
      · obtain rfl : pn = m := Option.some.inj (hp.symm.trans hmn)
        have hbn : n.body = pn.body := congrArg (·.body) he
        have hkn : n.kind = .message := by rw [← hm, Node.kind, Node.kind, hbn]
        rw [if_pos rfl, oneofs_regrouped hkn, Node.oneofs_congr hbn, hlast, modify_last,
          fieldsUnder_adopt_field hb]
        exact (hlast ▸ h.tidy p pn hp hm).concat_member htag hone
      · exact absurd hlen (Nat.ne_of_lt (lt_of_node? hp))
    · rw [if_neg hj] at hk ⊢
      exact h.tidyAt_adopt hp hnew (fun _ _ _ => fieldsUnder_adopt_of_ne (Ne.symm hj)) n hn hk
  · obtain ⟨n₁, hn₁, hk₁, hf₁⟩ := kept_adopt (k := p) (fun _ _ => rfl) hp hn
    refine ⟨_, node?_regroup.mpr ⟨n₁, hn₁, rfl⟩, ?_, fun hm hj => ?_⟩
    · split
      · rw [kind_regrouped, hk₁]
      · exact hk₁
    · rw [fieldsUnder_regroup, hf₁ hm hj]

end Adopt

/-- A message gets an empty group. -/
theorem Formed.regroup (h : g.Formed) {p : Nat} (name : String) (doc : Option String) :
    Grown p g (g.regroup p (· ++ [⟨name, doc, []⟩])) := by
  refine ⟨{ h.toShaped.regroup with tidy := fun j => ?_ }, fun {j n} hn => ?_⟩
  · intro n' hn' hk
    obtain ⟨n, hn, rfl⟩ := node?_regroup.mp hn'
    rw [fieldsUnder_regroup]
    by_cases hj : p = j
    · rw [if_pos hj] at hk ⊢
      rw [kind_regrouped] at hk
      rw [oneofs_regrouped hk]
      exact (h.tidy j n hn hk).concat_group doc
    · rw [if_neg hj] at hk ⊢
      exact h.tidy j n hn hk
  · refine ⟨_, node?_regroup.mpr ⟨n, hn, rfl⟩, ?_, fun _ _ => fieldsUnder_regroup⟩
    split
    · exact kind_regrouped n
    · rfl

end Graph
end ProtoBind.Schema
