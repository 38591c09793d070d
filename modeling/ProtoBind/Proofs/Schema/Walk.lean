/-
The walk through a schema graph is the recursive pre-order.

`Visits g is l` says what it is to visit nodes in order, each with all that is
below it behind it, without a stack. What is below a node is visited so
(`Arena.visits_below`), the walk from a node visits just that
(`Arena.visits_walk`), and its part behind any node is the walk from there
(`Visits.piece`), so no node is met twice.
-/
import ProtoBind.Proofs.Schema.Forest

namespace ProtoBind.Schema.Graph

/-- The nodes right below a node, in the order in which they were added. -/
def inserted (g : Graph) (i : Nat) : List Nat := (g.nodes.filter (·.parent = some i)).map (·.index)

/-- Visits nodes in order, each before those right below it. -/
inductive Visits (g : Graph) : List Nat → List Nat → Prop
  | nil : Visits g [] []
  | cons {i : Nat} {rest within behind : List Nat} (below : Visits g (g.inserted i) within)
      (after : Visits g rest behind) : Visits g (i :: rest) (i :: (within ++ behind))

/-- The second node stands right below the first. -/
def IsChild (g : Graph) (i j : Nat) : Prop := ∃ n, g.node? j = some n ∧ n.parent = some i

namespace Visits

variable {g : Graph} {is js l m : List Nat} {i j : Nat}

theorem append (h : Visits g is l) (h' : Visits g js m) : Visits g (is ++ js) (l ++ m) := by
  induction h with
  | nil => exact h'
  | @cons i rest within behind below after _ ih =>
    rw [List.cons_append, List.cons_append, List.append_assoc]
    exact .cons below ih

theorem flatMap {ns : List Node} {f : Node → List Nat} (h : ∀ n ∈ ns, Visits g [n.index] (f n)) :
    Visits g (ns.map (·.index)) (ns.flatMap f) := by
  induction ns with
  | nil => exact .nil
  | cons n ns ih =>
    rw [List.flatMap_cons]
    exact (h n List.mem_cons_self).append (ih fun m hm => h m (List.mem_cons_of_mem n hm))

theorem one (h : Visits g (g.inserted i) l) : Visits g [i] (i :: l) := by
  have hone := Visits.cons h .nil
  rwa [List.append_nil] at hone

/-- There is one way to visit nodes. -/
theorem unique (h : Visits g is l) (h' : Visits g is m) : l = m := by
  induction h generalizing m with
  | nil =>
    cases h'
    rfl
  | cons below after ihBelow ihAfter =>
    cases h' with
    | cons below' after' => rw [ihBelow below', ihAfter after']

/-- What is visited from a node on its own stands in one piece in what is visited. -/
theorem piece (h : Visits g is l) (hj : j ∈ l) : ∃ m, Visits g [j] m ∧ m <:+: l := by
  induction h with
  | nil => cases hj
  | @cons i rest within behind below after ihBelow ihAfter =>
    rcases List.mem_cons.mp hj with rfl | hj
    · exact ⟨_, below.one, List.prefix_append (j :: within) behind |>.isInfix⟩
    · rcases List.mem_append.mp hj with hj | hj
      · obtain ⟨m, hm, hin⟩ := ihBelow hj
        refine ⟨m, hm, hin.trans ?_⟩
        exact ⟨[i], behind, by simp⟩
      · obtain ⟨m, hm, hin⟩ := ihAfter hj
        exact ⟨m, hm, hin.trans (List.suffix_append (i :: within) behind).isInfix⟩

end Visits

variable {g : Graph}

theorem Arena.mem_inserted (h : g.Arena) {i j : Nat} : j ∈ g.inserted i ↔ g.IsChild i j := by
  simp only [inserted, IsChild, List.mem_map, List.mem_filter, decide_eq_true_eq]
  constructor
  · rintro ⟨n, ⟨hn, hp⟩, rfl⟩
    exact ⟨n, h.node?_of_mem hn, hp⟩
  · rintro ⟨n, hn, hp⟩
    exact ⟨n, ⟨List.mem_of_getElem? hn, hp⟩, h.index hn⟩

/-- Just the nodes below the given ones are visited, and these themselves. -/
theorem Arena.mem_visits (h : g.Arena) {is l : List Nat} (hv : Visits g is l) (j : Nat) :
    j ∈ l ↔ ∃ i ∈ is, Relation.ReflTransGen g.IsChild i j := by
  induction hv with
  | nil => simp
  | @cons i rest within behind below after ihBelow ihAfter =>
    have hfirst : Relation.ReflTransGen g.IsChild i j ↔ j = i ∨ j ∈ within := by
      rw [Relation.ReflTransGen.cases_head_iff, ihBelow, eq_comm]
      simp only [h.mem_inserted]
    rw [List.mem_cons, List.mem_append, ihAfter, List.exists_mem_cons_iff, hfirst, or_assoc]

/-- **What is below a node is visited in pre-order.** -/
theorem Arena.visits_below (h : g.Arena) : ∀ {k : Nat} {n : Node}, n ∈ g.nodes → g.nodes.length ≤ k + n.index →
    Visits g [n.index] ((below g.childrenOf k n).map (·.index))
  | 0, n, hn, hk => by
    have := h.lt_length hn
    omega
  | k + 1, n, hn, hk => by
    have hinserted : g.inserted n.index = (g.childrenOf n).map (·.index) := by rw [h.childrenOf hn]; rfl
    rw [below, List.map_cons, List.map_flatMap]
    refine .one (hinserted ▸ .flatMap fun c hc => ?_)
    have hlt := h.child_lt hn hc
    exact visits_below h ((h.mem_children hn).mp hc).1 (by omega)

/-- All nodes are visited from the root. -/
theorem Arena.visits_root (h : g.Arena) : ∃ l, Visits g [0] l ∧ l.Perm (List.range g.nodes.length) := by
  obtain ⟨root, hroot, -, hperm⟩ := h.below_root
  have hvisits := h.visits_below (List.mem_of_getElem? hroot) (Nat.le_add_right _ _)
  rw [h.index hroot] at hvisits
  refine ⟨_, hvisits, ?_⟩
  rw [← h.indices]
  exact hperm.map _

/-- The walk from a node visits what is below it, and meets no node twice; neither depends on the fuel. -/
theorem Arena.visits_walk (h : g.Arena) {i fuel : Nat} (hi : i < g.nodes.length) (hfuel : g.nodes.length ≤ fuel) :
    Visits g [i] (g.walkStack fuel [i]) ∧ (g.walkStack fuel [i]).Nodup := by
  obtain ⟨l, hl, hperm⟩ := h.visits_root
  -- What is visited from a node is a piece of what is visited from the root, where every node is met once.
  obtain ⟨m, hm, hin⟩ := hl.piece (hperm.mem_iff.mpr (List.mem_range.mpr hi))
  have hindex : g.nodes[i].index = i := h.index (List.getElem?_eq_getElem hi)
  have hmem : g.nodes[i] ∈ g.nodes := List.getElem_mem hi
  have hbelow := h.visits_below hmem (Nat.le_add_right _ _)
  rw [hindex] at hbelow
  obtain rfl := hm.unique hbelow
  have hlength := hin.length_le
  rw [hperm.length_eq, List.length_range, List.length_map] at hlength
  have hwalk : g.walkStack fuel [i] = (below g.childrenOf g.nodes.length g.nodes[i]).map (·.index) := by
    have heq := @Arena.walkStack_eq g h fuel [g.nodes[i]] (List.forall_mem_singleton.mpr hmem) (by
      rw [List.flatMap_singleton]
      omega)
    rwa [List.flatMap_singleton, List.map_singleton, hindex] at heq
  rw [hwalk]
  exact ⟨hm, hin.sublist.nodup (hperm.nodup_iff.mpr List.nodup_range)⟩

/-- **The walk is the recursive pre-order.** In every graph that was built by additions, the walk from a node ends,
however large its bound, and is the only way to visit the node and those below it in pre-order, children as they were
added; it meets these nodes and no others, each once. From the root it meets all nodes. -/
theorem walk_visits {ops : List Operation} {i : Nat} (hi : i < (history ops).nodes.length) :
    (∀ l, Visits (history ops) [i] l ↔ l = (history ops).walk i) ∧
    (∀ j, j ∈ (history ops).walk i ↔ Relation.ReflTransGen (history ops).IsChild i j) ∧
    ((history ops).walk i).Nodup ∧
    (∀ fuel, (history ops).nodes.length ≤ fuel → (history ops).walkStack fuel [i] = (history ops).walk i) ∧
    ((history ops).walk 0).Perm (List.range (history ops).nodes.length) := by
  have h : (history ops).Arena := (history_recorded ops).toArena
  have hwalk {k : Nat} (hk : k < (history ops).nodes.length) :
      Visits (history ops) [k] ((history ops).walk k) ∧ ((history ops).walk k).Nodup :=
    h.visits_walk hk (Nat.le_succ _)
  obtain ⟨hvisits, hnodup⟩ := hwalk hi
  refine ⟨fun l => ⟨fun hl => hl.unique hvisits, fun hl => hl ▸ hvisits⟩, fun j => ?_, hnodup, fun fuel hfuel => ?_, ?_⟩
  · rw [h.mem_visits hvisits j]
    simp only [List.mem_singleton, exists_eq_left]
  · exact (h.visits_walk hi hfuel).1.unique hvisits
  · obtain ⟨l, hl, hperm⟩ := h.visits_root
    rwa [(hwalk (Nat.lt_of_le_of_lt (Nat.zero_le i) hi)).1.unique hl]

/-- Two packages with declarations in each other's order, one addition that is refused, and a message in a message. -/
def interleaved : List Operation :=
  [.package "a.b", .package "c", .add { name := "M", body := .message "proto3" [] } 2,
    .add { name := "E", body := .enum [] } 3, .add { name := "N", body := .message "proto3" [] } 4,
    .add { name := "M", body := .enum [] } 2, .add { name := "F", body := .enum [] } 1]

/-- The walk from the first package. -/
theorem walk_visits_interleaved : 1 < (history interleaved).nodes.length ∧
    (history interleaved).walk 1 = [1, 2, 4, 6, 7] ∧ Visits (history interleaved) [1] [1, 2, 4, 6, 7] := by
  have hlength : 1 < (history interleaved).nodes.length := by decide +kernel
  have hwalk : (history interleaved).walk 1 = [1, 2, 4, 6, 7] := by decide +kernel
  exact ⟨hlength, hwalk, ((walk_visits hlength).1 _).mpr hwalk.symm⟩

end ProtoBind.Schema.Graph
