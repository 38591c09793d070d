/-
The arena of a schema graph: how its nodes hang together.

`Graph.Arena` says what every graph that was built by adding nodes keeps: a
node knows its own number, its parent stands before it and gives it its full
name, its children are the nodes that name it as their parent, in the order
in which they were added, and no two nodes share a full name. The laws do not
speak of what a node declares, so they outlive any change of the bodies
(`Arena.reshape`).
-/
import Mathlib.Data.List.Nodup
import ProtoBind.Schema.Graph

namespace ProtoBind.Schema.Graph

structure Arena (g : Graph) : Prop where
  root : ∃ n, g.node? 0 = some n ∧ n.kind = .package ∧ n.parent = none ∧ n.fullName = ""
  index : ∀ {i n}, g.node? i = some n → n.index = i
  parent : ∀ {i n}, g.node? i = some n → i ≠ 0 → ∃ p pn, n.parent = some p ∧ p < i ∧
    g.node? p = some pn ∧ n.fullName = childName pn.fullName n.name
  children : ∀ n ∈ g.nodes, n.children =
    g.nodes.filterMap fun c => if c.parent = some n.index then some c.index else none
  names : ∀ {name i}, g.find? name = some i ↔ ∃ n, g.node? i = some n ∧ n.fullName = name

/-- What the laws of the arena see of a node. -/
structure Place where
  index : Nat
  parent : Option Nat
  children : List Nat
  fullName : String
  name : String

def place (n : Node) : Place := ⟨n.index, n.parent, n.children, n.fullName, n.name⟩

namespace Arena

variable {g g' : Graph}

theorem node?_of_mem (h : g.Arena) {n : Node} (hn : n ∈ g.nodes) : g.node? n.index = some n := by
  obtain ⟨i, hi⟩ := List.mem_iff_getElem?.mp hn
  rwa [h.index hi]

theorem childrenOf (h : g.Arena) {n : Node} (hn : n ∈ g.nodes) :
    g.childrenOf n = g.nodes.filter (·.parent = some n.index) := by
  rw [Graph.childrenOf, h.children n hn, List.filterMap_filterMap, ← List.filterMap_eq_filter]
  refine List.filterMap_congr fun c hc => ?_
  by_cases hp : c.parent = some n.index <;> simp [hp, Option.guard, h.node?_of_mem hc]

theorem mem_childrenOf (h : g.Arena) {n c : Node} (hn : n ∈ g.nodes) :
    c ∈ g.childrenOf n ↔ c ∈ g.nodes ∧ c.parent = some n.index := by
  simp [h.childrenOf hn]

/-- No two nodes share a full name. -/
theorem unique (h : g.Arena) {n m : Node} (hn : n ∈ g.nodes) (hm : m ∈ g.nodes)
    (he : n.fullName = m.fullName) : n = m := by
  have hn' := h.node?_of_mem hn
  have hm' := h.node?_of_mem hm
  have hi := h.names.mpr ⟨n, hn', rfl⟩
  have hj := h.names.mpr ⟨m, hm', rfl⟩
  rw [he, hj, Option.some.injEq] at hi
  rw [← hi, hm', Option.some.injEq] at hn'
  exact hn'.symm

theorem find?_fullName (h : g.Arena) {n : Node} (hn : n ∈ g.nodes) :
    g.find? n.fullName = some n.index :=
  h.names.mpr ⟨n, h.node?_of_mem hn, rfl⟩

theorem lt_length (h : g.Arena) {n : Node} (hn : n ∈ g.nodes) : n.index < g.nodes.length :=
  (List.getElem?_eq_some_iff.mp (h.node?_of_mem hn)).1

/-- Parents stand before their children. -/
theorem parent_lt (h : g.Arena) {n : Node} (hn : n ∈ g.nodes) {q : Nat} (hq : n.parent = some q) :
    q < n.index := by
  have hnode := h.node?_of_mem hn
  by_cases h0 : n.index = 0
  · obtain ⟨r, hr, -, hrp, -⟩ := h.root
    rw [h0, hr, Option.some.injEq] at hnode
    simp [← hnode, hrp] at hq
  · obtain ⟨q', -, hq', hlt, -⟩ := h.parent hnode h0
    rw [hq, Option.some.injEq] at hq'
    rwa [hq']

/-- Nodes are numbered by their place. -/
theorem indices (h : g.Arena) : g.nodes.map (·.index) = List.range g.nodes.length := by
  refine List.ext_getElem? fun i => ?_
  rw [List.getElem?_map]
  cases hn : g.nodes[i]? with
  | none =>
    rw [List.getElem?_eq_none_iff] at hn
    simp [List.getElem?_eq_none (l := List.range g.nodes.length) (by simpa using hn)]
  | some n =>
    rw [Option.map_some, h.index hn, List.getElem?_range (List.getElem?_eq_some_iff.mp hn).1]

theorem nodup (h : g.Arena) : g.nodes.Nodup :=
  List.Nodup.of_map (·.index) (h.indices ▸ List.nodup_range)

/-- The full name of a node that is not the root. -/
theorem fullName_eq (h : g.Arena) {n p : Node} (hn : n ∈ g.nodes) (hp : p ∈ g.nodes)
    (he : n.parent = some p.index) : n.fullName = childName p.fullName n.name := by
  have h0 : n.index ≠ 0 := Nat.ne_of_gt (Nat.lt_of_le_of_lt (Nat.zero_le _) (h.parent_lt hn he))
  obtain ⟨q, qn, hq, -, hqn, hf⟩ := h.parent (h.node?_of_mem hn) h0
  rw [he, Option.some.injEq] at hq
  rw [← hq, h.node?_of_mem hp, Option.some.injEq] at hqn
  rw [hf, hqn]

/-- Siblings have different names. -/
theorem childNames_nodup (h : g.Arena) {n : Node} (hn : n ∈ g.nodes) :
    ((g.childrenOf n).map (·.name)).Nodup := by
  refine List.Nodup.map_on ?_ (h.childrenOf hn ▸ h.nodup.filter _)
  intro c hc d hd he
  obtain ⟨hcm, hcp⟩ := (h.mem_childrenOf hn).mp hc
  obtain ⟨hdm, hdp⟩ := (h.mem_childrenOf hn).mp hd
  exact h.unique hcm hdm (by rw [h.fullName_eq hcm hn hcp, h.fullName_eq hdm hn hdp, he])

theorem empty : Graph.empty.Arena where
  root := ⟨Graph.root, rfl, rfl, rfl, rfl⟩
  index {i n} hn := by
    match i, hn with
    | 0, hn => cases hn; rfl
  parent {i n} hn hi := by
    match i, hn with
    | 0, _ => exact absurd rfl hi
  children n hn := by
    obtain rfl : n = Graph.root := by simpa [Graph.empty] using hn
    rfl
  names {name i} := by
    simp only [find?, Graph.empty, List.lookup_cons, List.lookup_nil]
    constructor
    · intro h
      split at h
      next he =>
        cases h
        exact ⟨Graph.root, rfl, (by simpa using he : name = "").symm⟩
      next => cases h
    · rintro ⟨n, hn, rfl⟩
      match i, hn with
      | 0, hn => cases hn; rfl

/-! ## Other bodies -/

theorem node?_of_place {i : Nat} {n' : Node} (hb : g'.nodes.map place = g.nodes.map place)
    (hn : g'.node? i = some n') : ∃ n, g.node? i = some n ∧ place n = place n' := by
  have h := congrArg (·[i]?) hb
  simp only [List.getElem?_map] at h
  rw [show g'.nodes[i]? = some n' from hn] at h
  exact Option.map_eq_some_iff.mp h.symm

/-- The laws hold of every graph with the same nodes up to their bodies. -/
theorem reshape (h : g.Arena) (hb : g'.nodes.map place = g.nodes.map place)
    (hr : ∀ n, g'.node? 0 = some n → n.kind = .package) (hn : g'.byName = g.byName) : g'.Arena where
  root := by
    obtain ⟨n, hn, -, hp, hf⟩ := h.root
    obtain ⟨n', hn', he⟩ := node?_of_place hb.symm hn
    simp only [place, Place.mk.injEq] at he
    exact ⟨n', hn', hr n' hn', he.2.1.trans hp, he.2.2.2.1.trans hf⟩
  index {i n'} hn' := by
    obtain ⟨n, hn, he⟩ := node?_of_place hb hn'
    simp only [place, Place.mk.injEq] at he
    exact he.1.symm.trans (h.index hn)
  parent {i n'} hn' hi := by
    obtain ⟨n, hn, he⟩ := node?_of_place hb hn'
    obtain ⟨p, pn, hp, hlt, hpn, hf⟩ := h.parent hn hi
    obtain ⟨pn', hpn', hpe⟩ := node?_of_place hb.symm hpn
    simp only [place, Place.mk.injEq] at he hpe
    refine ⟨p, pn', he.2.1.symm.trans hp, hlt, hpn', ?_⟩
    rw [← he.2.2.2.1, hf, ← hpe.2.2.2.1, he.2.2.2.2]
  children n' hn' := by
    obtain ⟨i, hi⟩ := List.mem_iff_getElem?.mp hn'
    obtain ⟨n, hn, he⟩ := node?_of_place hb hi
    simp only [place, Place.mk.injEq] at he
    have hplace (k : Graph) :
        (k.nodes.filterMap fun c => if c.parent = some n'.index then some c.index else none) =
          (k.nodes.map place).filterMap fun c =>
            if c.parent = some n'.index then some c.index else none := by
      rw [List.filterMap_map]
      rfl
    rw [← he.2.2.1, h.children n (List.mem_of_getElem? hn), he.1, hplace, hplace, hb]
  names {name i} := by
    rw [find?, hn]
    refine h.names.trans ⟨?_, ?_⟩
    · rintro ⟨n, hn, rfl⟩
      obtain ⟨n', hn', he⟩ := node?_of_place hb.symm hn
      simp only [place, Place.mk.injEq] at he
      exact ⟨n', hn', he.2.2.2.1⟩
    · rintro ⟨n, hn, rfl⟩
      obtain ⟨n', hn', he⟩ := node?_of_place hb hn
      simp only [place, Place.mk.injEq] at he
      exact ⟨n', hn', he.2.2.2.1⟩

end Arena

/-! ## Adding a node -/

/-- What looks at the parts that a change leaves alone does not see the change. -/
theorem filterMap_modify {α β : Type} {f : α → Option β} {change : α → α}
    (hf : ∀ a, f (change a) = f a) : ∀ (l : List α) (i : Nat), (l.modify i change).filterMap f = l.filterMap f
  | [], i => by cases i <;> rfl
  | a :: l, 0 => by simp [List.filterMap_cons, hf]
  | a :: l, i + 1 => by simp [List.filterMap_cons, filterMap_modify hf l i]

variable {g g' : Graph} {entry : Entry} {p i : Nat}

/-- The node that an entry becomes under the parent `pn`. -/
def adopted (g : Graph) (entry : Entry) (p : Nat) (pn : Node) : Node :=
  { entry with
    index := g.nodes.length
    parent := some p
    children := []
    fullName := childName pn.fullName entry.name }

/-- The graph with a node more. -/
def adopt (g : Graph) (entry : Entry) (p : Nat) (pn : Node) : Graph :=
  { g with
    nodes := (g.nodes.modify p fun n => { n with children := n.children ++ [g.nodes.length] }) ++
      [g.adopted entry p pn]
    byName := g.byName ++ [(childName pn.fullName entry.name, g.nodes.length)] }

theorem add_eq_ok (h : g.add entry p = .ok (i, g')) : ∃ pn, g.node? p = some pn ∧
    g.find? (childName pn.fullName entry.name) = none ∧ i = g.nodes.length ∧
    g' = g.adopt entry p pn := by
  unfold add at h
  split at h
  next => cases h
  next pn hp =>
    dsimp only at h
    split at h
    next => cases h
    next hf =>
      cases h
      exact ⟨pn, hp, hf, rfl, rfl⟩

theorem lt_of_node? {n : Node} (h : g.node? i = some n) : i < g.nodes.length :=
  (List.getElem?_eq_some_iff.mp h).1

theorem node?_adopt {pn n' : Node} {j : Nat} : (g.adopt entry p pn).node? j = some n' ↔
    (∃ n, g.node? j = some n ∧
      n' = if p = j then { n with children := n.children ++ [g.nodes.length] } else n) ∨
    (j = g.nodes.length ∧ n' = g.adopted entry p pn) := by
  simp only [node?, adopt, List.getElem?_append, List.length_modify, List.getElem?_modify]
  by_cases hj : j < g.nodes.length
  · obtain ⟨n, hn⟩ : ∃ n, g.nodes[j]? = some n := ⟨_, List.getElem?_eq_getElem hj⟩
    have hne : j ≠ g.nodes.length := by omega
    simp only [hj, if_true, hn, Option.map_eq_map, Option.map_some, Option.some.injEq, hne, false_and,
      or_false, exists_eq_left']
    exact eq_comm
  · have hn : g.nodes[j]? = none := List.getElem?_eq_none (by omega)
    simp only [hj, if_false, hn, reduceCtorEq, false_and, exists_false, false_or]
    by_cases he : j = g.nodes.length
    · subst he
      simp [eq_comm]
    · rw [List.getElem?_eq_none (by simp only [List.length_singleton]; omega)]
      simp [he]

theorem node?_adopt_self {pn : Node} :
    (g.adopt entry p pn).node? g.nodes.length = some (g.adopted entry p pn) :=
  node?_adopt.mpr (.inr ⟨rfl, rfl⟩)

/-- An old node is still there; at most its children are more. -/
theorem node?_adopt_of_node? (entry : Entry) (p : Nat) (pn : Node) {n : Node} {j : Nat}
    (h : g.node? j = some n) :
    ∃ n', (g.adopt entry p pn).node? j = some n' ∧ n'.toEntry = n.toEntry ∧ n'.parent = n.parent ∧
      n'.index = n.index ∧ n'.fullName = n.fullName := by
  refine ⟨_, node?_adopt.mpr (.inl ⟨n, h, rfl⟩), ?_⟩
  split <;> exact ⟨rfl, rfl, rfl, rfl⟩

theorem node?_adopt_cases {pn n' : Node} {j : Nat} (h : (g.adopt entry p pn).node? j = some n') :
    (∃ n, g.node? j = some n ∧ n'.toEntry = n.toEntry) ∨
      (j = g.nodes.length ∧ n' = g.adopted entry p pn) := by
  rcases node?_adopt.mp h with ⟨n, hn, rfl⟩ | hnew
  · refine .inl ⟨n, hn, ?_⟩
    split <;> rfl
  · exact .inr hnew

theorem mem_adopt {pn n' : Node} (h : n' ∈ (g.adopt entry p pn).nodes) :
    (∃ n ∈ g.nodes, n'.toEntry = n.toEntry ∧ n'.parent = n.parent ∧ n'.index = n.index) ∨
      n' = g.adopted entry p pn := by
  obtain ⟨j, hj⟩ := List.mem_iff_getElem?.mp h
  rcases node?_adopt.mp hj with ⟨n, hn, rfl⟩ | ⟨-, rfl⟩
  · refine .inl ⟨n, List.mem_of_getElem? hn, ?_⟩
    split <;> exact ⟨rfl, rfl, rfl⟩
  · exact .inr rfl

/-- What is read of the nodes apart from their children is read of the new node last. -/
theorem filterMap_adopt {β : Type} {pn : Node} {f : Node → Option β}
    (hf : ∀ n cs, f { n with children := cs } = f n) :
    (g.adopt entry p pn).nodes.filterMap f =
      g.nodes.filterMap f ++ (f (g.adopted entry p pn)).toList := by
  rw [adopt, List.filterMap_append, filterMap_modify fun n => hf n _]
  cases h : f (g.adopted entry p pn) <;> simp [h]

theorem Arena.adopt (h : g.Arena) {pn : Node} (hp : g.node? p = some pn)
    (hf : g.find? (childName pn.fullName entry.name) = none) : (g.adopt entry p pn).Arena where
  root := by
    obtain ⟨n, hn, hk, hpar, hfull⟩ := h.root
    obtain ⟨n', hn', he, hpar', -, hfull'⟩ := node?_adopt_of_node? entry p pn hn
    exact ⟨n', hn', (congrArg (·.body.kind) he).trans hk, hpar'.trans hpar, hfull'.trans hfull⟩
  index {j n'} hn' := by
    rcases node?_adopt.mp hn' with ⟨n, hn, rfl⟩ | ⟨rfl, rfl⟩
    · have hi := h.index hn
      split <;> exact hi
    · rfl
  parent {j n'} hn' hj := by
    rcases node?_adopt.mp hn' with ⟨n, hn, rfl⟩ | ⟨rfl, rfl⟩
    · obtain ⟨q, qn, hq, hlt, hqn, hfull⟩ := h.parent hn hj
      obtain ⟨qn', hqn', -, -, -, hfull'⟩ := node?_adopt_of_node? entry p pn hqn
      refine ⟨q, qn', ?_, hlt, hqn', ?_⟩
      · split <;> exact hq
      · split <;> rw [hfull'] <;> exact hfull
    · obtain ⟨pn', hpn', -, -, -, hfull'⟩ := node?_adopt_of_node? entry p pn hp
      exact ⟨p, pn', rfl, lt_of_node? hp, hpn', by rw [hfull']; rfl⟩
  children n' hn' := by
    obtain ⟨j, hj⟩ := List.mem_iff_getElem?.mp hn'
    rw [filterMap_adopt fun _ _ => rfl]
    rcases node?_adopt.mp hj with ⟨n, hn, rfl⟩ | ⟨rfl, rfl⟩
    · have hc := h.children n (List.mem_of_getElem? hn)
      have hi : n.index = j := h.index hn
      by_cases hpj : p = j
      · simp [hpj, hc, adopted, hi]
      · have hne : ¬ some p = some n.index := by rw [hi]; simpa using hpj
        simp [hpj, hc, adopted, hi]
    · -- No node names the new one as its parent: parents stand before their children.
      have hnone : ∀ c ∈ g.nodes, ¬ c.parent = some g.nodes.length := fun c hc hpar =>
        Nat.lt_asymm (h.parent_lt hc hpar) (h.lt_length hc)
      have hself : ¬ p = g.nodes.length := Nat.ne_of_lt (lt_of_node? hp)
      simp only [adopted, hself, Option.some.injEq, if_false, Option.toList_none, List.append_nil]
      exact (List.filterMap_eq_nil_iff.mpr fun c hc => if_neg (hnone c hc)).symm
  names {name j} := by
    have hlook : (g.adopt entry p pn).find? name = (g.find? name).or
        (if name == childName pn.fullName entry.name then some g.nodes.length else none) := by
      simp only [find?, Graph.adopt, List.lookup_append, List.lookup_cons, List.lookup_nil]
      cases name == childName pn.fullName entry.name <;> rfl
    rw [hlook]
    constructor
    · intro hs
      rcases Option.or_eq_some_iff.mp hs with hs | ⟨-, hs⟩
      · obtain ⟨n, hn, rfl⟩ := h.names.mp hs
        obtain ⟨n', hn', -, -, -, hfull'⟩ := node?_adopt_of_node? entry p pn hn
        exact ⟨n', hn', hfull'⟩
      · split at hs
        next he =>
          cases hs
          exact ⟨_, node?_adopt_self, (beq_iff_eq.mp he).symm⟩
        next => cases hs
    · rintro ⟨n', hn', rfl⟩
      rcases node?_adopt.mp hn' with ⟨n, hn, rfl⟩ | ⟨rfl, rfl⟩
      · have hold : g.find? n.fullName = some j := h.names.mpr ⟨n, hn, rfl⟩
        have hfull : (if p = j then { n with children := n.children ++ [g.nodes.length] }
            else n).fullName = n.fullName := by split <;> rfl
        rw [hfull, hold, Option.some_or]
      · simp [adopted, hf]

end ProtoBind.Schema.Graph
