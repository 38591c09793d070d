/-
The nodes of a schema graph as a forest.

Every node but the root stands right below one other node, so the nodes below
the roots of a forest are its nodes, each once (`forest_perm`). This holds of
the whole graph, whose walk therefore meets every node once
(`walkNodes_perm`), and of every kind of node that stands in its own kind,
such as packages and messages.
-/
import Mathlib.Data.List.Flatten
import Mathlib.Data.List.Perm.Basic
import ProtoBind.Proofs.Schema.History

namespace ProtoBind.Schema.Graph

/-! ## Forests -/

section Forest

variable {kids : Node → List Node} {ns tops : List Node} {bound : Nat}

/-- A node and all below it, depth first, where `kids` gives those right below a node. -/
def below (kids : Node → List Node) : (fuel : Nat) → Node → List Node
  | 0, _ => []
  | fuel + 1, n => n :: (kids n).flatMap (below kids fuel)

/-- The nodes that are so many levels below some nodes. -/
def level (kids : Node → List Node) : Nat → List Node → List Node
  | 0, ns => ns
  | k + 1, ns => level kids k (ns.flatMap kids)

theorem level_append : ∀ (k : Nat) (l m : List Node), level kids k (l ++ m) = level kids k l ++ level kids k m
  | 0, _, _ => rfl
  | k + 1, l, m => by rw [level, List.flatMap_append, level_append k, level, level]

theorem level_perm : ∀ (k : Nat) {l m : List Node}, l.Perm m → (level kids k l).Perm (level kids k m)
  | 0, _, _, h => h
  | k + 1, _, _, h => level_perm k (h.flatMap_right _)

theorem level_eq_flatMap (k : Nat) (l : List Node) : level kids k l = l.flatMap fun n => level kids k [n] := by
  induction l with
  | nil =>
    induction k with
    | zero => rfl
    | succ k ih => exact ih
  | cons n l ih => rw [List.flatMap_cons, ← ih, ← level_append, List.singleton_append]

/-- One level more. -/
theorem below_succ_perm : ∀ (k : Nat) (n : Node), (below kids (k + 1) n).Perm (below kids k n ++ level kids k [n])
  | 0, n => by simp [below, level]
  | k + 1, n => by
    have ih : ((kids n).flatMap (below kids (k + 1))).Perm
        ((kids n).flatMap (below kids k) ++ (kids n).flatMap fun c => level kids k [c]) :=
      (List.Perm.flatMap_left _ fun c _ => below_succ_perm k c).trans (List.flatMap_append_perm _ _ _).symm
    rw [← level_eq_flatMap] at ih
    rw [level, List.flatMap_singleton, below, below, List.cons_append]
    exact ih.cons n

/-- **A forest is what is below its roots**, if all in it is a root or right below another of its nodes. -/
theorem forest_perm (hns : ns.Perm (tops ++ ns.flatMap kids)) (hlt : ∀ n ∈ ns, ∀ c ∈ kids n, n.index < c.index)
    (hbound : ∀ n ∈ ns, n.index < bound) : ns.Perm (tops.flatMap (below kids bound)) := by
  have hlevels : ∀ k, ns.Perm (tops.flatMap (below kids k) ++ level kids k ns) := by
    intro k
    induction k with
    | zero =>
      have hnone : tops.flatMap (below kids 0) = [] := List.flatMap_eq_nil_iff.mpr fun _ _ => rfl
      rw [hnone]
      exact .refl _
    | succ k ih =>
      have hmore : (tops.flatMap (below kids (k + 1))).Perm (tops.flatMap (below kids k) ++ level kids k tops) := by
        rw [level_eq_flatMap]
        exact (List.Perm.flatMap_left _ fun n _ => below_succ_perm k n).trans (List.flatMap_append_perm _ _ _).symm
      have hrest : (level kids k ns).Perm (level kids k tops ++ level kids (k + 1) ns) := by
        rw [level, ← level_append]
        exact level_perm k hns
      refine (ih.trans (hrest.append_left _)).trans ?_
      rw [← List.append_assoc]
      exact hmore.symm.append_right _
  -- No node is so deep: indices grow with the levels.
  have hdeep : ∀ (k j : Nat) (l : List Node), (∀ n ∈ l, n ∈ ns ∧ j ≤ n.index) →
      ∀ n ∈ level kids k l, n ∈ ns ∧ j + k ≤ n.index := by
    intro k
    induction k with
    | zero => exact fun j l hl => hl
    | succ k ih =>
      intro j l hl n hn
      have hnext : ∀ c ∈ l.flatMap kids, c ∈ ns ∧ j + 1 ≤ c.index := by
        intro c hc
        obtain ⟨m, hm, hc⟩ := List.mem_flatMap.mp hc
        obtain ⟨hmns, hjm⟩ := hl m hm
        refine ⟨hns.mem_iff.mpr (List.mem_append_right _ (List.mem_flatMap.mpr ⟨m, hmns, hc⟩)), ?_⟩
        have := hlt m hmns c hc
        omega
      obtain ⟨hmem, hle⟩ := ih (j + 1) _ hnext n hn
      exact ⟨hmem, by omega⟩
  have hend : level kids bound ns = [] := by
    rw [List.eq_nil_iff_forall_not_mem]
    intro n hn
    obtain ⟨hmem, hle⟩ := hdeep bound 0 ns (fun m hm => ⟨hm, Nat.zero_le _⟩) n hn
    have := hbound n hmem
    omega
  have hall := hlevels bound
  rwa [hend, List.append_nil] at hall

end Forest

/-! ## Arenas -/

variable {g : Graph}

theorem Arena.parentOf_iff (h : g.Arena) {n p : Node} :
    g.parentOf n = some p ↔ p ∈ g.nodes ∧ n.parent = some p.index := by
  rw [parentOf, Option.bind_eq_some_iff]
  constructor
  · rintro ⟨i, hi, hp⟩
    exact ⟨List.mem_of_getElem? hp, by rw [hi, h.index hp]⟩
  · rintro ⟨hp, hi⟩
    exact ⟨p.index, hi, h.node?_of_mem hp⟩

/-- Every declaration stands in something. -/
theorem Arena.exists_parentOf (h : g.Arena) {n : Node} (hn : n ∈ g.nodes) (hk : n.kind ≠ .package) :
    ∃ p, g.parentOf n = some p := by
  have hnode := h.node?_of_mem hn
  have hroot : n.index ≠ 0 := by
    intro he
    obtain ⟨r, hr, hrk, -⟩ := h.root
    rw [he, hr, Option.some.injEq] at hnode
    exact hk (hnode ▸ hrk)
  obtain ⟨i, p, hp, -, hpn, -⟩ := h.parent hnode hroot
  exact ⟨p, h.parentOf_iff.mpr ⟨List.mem_of_getElem? hpn, by rw [hp, h.index hpn]⟩⟩

theorem Arena.mem_children (h : g.Arena) {n c : Node} (hn : n ∈ g.nodes) :
    c ∈ g.childrenOf n ↔ c ∈ g.nodes ∧ g.parentOf c = some n := by
  rw [h.mem_childrenOf hn]
  constructor
  · rintro ⟨hc, hp⟩
    exact ⟨hc, h.parentOf_iff.mpr ⟨hn, hp⟩⟩
  · rintro ⟨hc, hp⟩
    exact ⟨hc, (h.parentOf_iff.mp hp).2⟩

theorem Arena.child_lt (h : g.Arena) {n c : Node} (hn : n ∈ g.nodes) (hc : c ∈ g.childrenOf n) :
    n.index < c.index := by
  obtain ⟨hmem, hp⟩ := (h.mem_childrenOf hn).mp hc
  exact h.parent_lt hmem hp

/-- The children of some nodes are the nodes whose parents are among them. -/
theorem Arena.children_perm (h : g.Arena) (p q : Node → Bool) :
    ((g.nodes.filter p).flatMap fun n => (g.childrenOf n).filter q).Perm
      (g.nodes.filter fun c => (g.parentOf c).any p && q c) := by
  refine (List.perm_ext_iff_of_nodup ?_ (h.nodup.filter _)).mpr fun c => ?_
  · rw [List.nodup_flatMap]
    refine ⟨fun n hn => ?_, ?_⟩
    · rw [h.childrenOf (List.mem_of_mem_filter hn)]
      exact (h.nodup.filter _).filter _
    · refine List.Pairwise.imp_of_mem ?_ (h.nodup.filter p)
      intro n m hn hm hne c hcn hcm
      have hcn := ((h.mem_children (List.mem_of_mem_filter hn)).mp (List.mem_of_mem_filter hcn)).2
      have hcm := ((h.mem_children (List.mem_of_mem_filter hm)).mp (List.mem_of_mem_filter hcm)).2
      rw [hcn, Option.some.injEq] at hcm
      exact hne hcm
  · simp only [List.mem_flatMap, List.mem_filter, Bool.and_eq_true, Option.any_eq_true]
    constructor
    · rintro ⟨n, ⟨hn, hp⟩, hc, hq⟩
      obtain ⟨hmem, hparent⟩ := (h.mem_children hn).mp hc
      exact ⟨hmem, ⟨n, hparent, hp⟩, hq⟩
    · rintro ⟨hmem, ⟨n, hparent, hp⟩, hq⟩
      have hn := (h.parentOf_iff.mp hparent).1
      exact ⟨n, ⟨hn, hp⟩, (h.mem_children hn).mpr ⟨hmem, hparent⟩, hq⟩

/-- The nodes right below a node that satisfy a condition. -/
def kidsWhere (g : Graph) (p : Node → Bool) (n : Node) : List Node := (g.childrenOf n).filter p

/-- The nodes of a kind are the forest below those of them whose parents are of another kind. -/
theorem Arena.forest (h : g.Arena) (p : Node → Bool) :
    (g.nodes.filter p).Perm
      ((g.nodes.filter fun n => !(g.parentOf n).any p && p n).flatMap (below (g.kidsWhere p) g.nodes.length)) := by
  refine forest_perm ?_ ?_ ?_
  · have hkids := h.children_perm p p
    have hsplit := List.filter_append_perm (fun n => !(g.parentOf n).any p) (g.nodes.filter p)
    simp only [List.filter_filter, Bool.not_not] at hsplit
    exact hsplit.symm.trans (hkids.symm.append_left _)
  · intro n hn c hc
    exact h.child_lt (List.mem_of_mem_filter hn) (List.mem_of_mem_filter hc)
  · intro n hn
    exact h.lt_length (List.mem_of_mem_filter hn)

/-! ## The walk -/

/-- All nodes below the root, the root first. -/
theorem Arena.below_root (h : g.Arena) : ∃ root, g.node? 0 = some root ∧ root.kind = .package ∧
    (below g.childrenOf g.nodes.length root).Perm g.nodes := by
  obtain ⟨root, hroot, hkind, hparent, -⟩ := h.root
  refine ⟨root, hroot, hkind, ?_⟩
  have hforest := h.forest fun _ => true
  have htops : (g.nodes.filter fun n => !(g.parentOf n).any fun _ => true).Perm [root] := by
    refine (List.perm_ext_iff_of_nodup (h.nodup.filter _) (List.nodup_singleton _)).mpr fun n => ?_
    have hnone {n : Node} : (!(g.parentOf n).any fun _ => true) = true ↔ g.parentOf n = none := by
      cases g.parentOf n <;> simp
    rw [List.mem_filter, List.mem_singleton, hnone]
    constructor
    · rintro ⟨hn, hp⟩
      by_cases h0 : n.index = 0
      · have hnode := h.node?_of_mem hn
        rw [h0, hroot, Option.some.injEq] at hnode
        exact hnode.symm
      · obtain ⟨p, pn, hpp, -, hpn, -⟩ := h.parent (h.node?_of_mem hn) h0
        rw [parentOf, hpp, Option.bind_some, hpn] at hp
        cases hp
    · rintro rfl
      exact ⟨List.mem_of_getElem? hroot, by rw [parentOf, hparent]; rfl⟩
  have hkids : g.kidsWhere (fun _ => true) = g.childrenOf := by
    funext n
    exact List.filter_true _
  simp only [Bool.and_true, hkids, List.filter_true] at hforest
  have hall := hforest.trans (htops.flatMap_right _)
  rw [List.flatMap_singleton] at hall
  exact hall.symm

/-- More fuel than there are nodes behind a node changes nothing. -/
theorem Arena.below_stable (h : g.Arena) : ∀ {k : Nat} {n : Node}, n ∈ g.nodes → g.nodes.length ≤ k + n.index →
    below g.childrenOf (k + 1) n = below g.childrenOf k n
  | 0, n, hn, hk => by
    have := h.lt_length hn
    omega
  | k + 1, n, hn, hk => by
    rw [below, below]
    congr 1
    refine List.flatMap_congr fun c hc => ?_
    have hlt := h.child_lt hn hc
    exact below_stable h ((h.mem_children hn).mp hc).1 (by omega)

theorem Arena.below_eq (h : g.Arena) {n : Node} (hn : n ∈ g.nodes) : below g.childrenOf g.nodes.length n =
    n :: (g.childrenOf n).flatMap (below g.childrenOf g.nodes.length) := by
  rw [← h.below_stable hn (Nat.le_add_right _ _), below]

theorem Arena.indices_childrenOf (h : g.Arena) {n : Node} (hn : n ∈ g.nodes) :
    (g.childrenOf n).map (·.index) = n.children := by
  rw [h.childrenOf hn, h.children n hn, ← List.filterMap_eq_map', ← List.filterMap_eq_filter, List.filterMap_filterMap]
  refine List.filterMap_congr fun c _ => ?_
  by_cases hc : c.parent = some n.index <;> simp [hc, Option.guard]

/-- The walk goes through what is below each node of its stack. -/
theorem Arena.walkStack_eq (h : g.Arena) : ∀ {fuel : Nat} {ns : List Node}, (∀ n ∈ ns, n ∈ g.nodes) →
    (ns.flatMap (below g.childrenOf g.nodes.length)).length ≤ fuel →
    g.walkStack fuel (ns.map (·.index)) = (ns.flatMap (below g.childrenOf g.nodes.length)).map (·.index) := by
  intro fuel
  induction fuel with
  | zero =>
    intro ns _ hlength
    rw [List.eq_nil_of_length_eq_zero (Nat.le_zero.mp hlength)]
    rfl
  | succ fuel ih =>
    intro ns hns hlength
    cases ns with
    | nil => rfl
    | cons n ns =>
      have hn : n ∈ g.nodes := hns n (by simp)
      rw [List.flatMap_cons, h.below_eq hn] at hlength ⊢
      have hchildren : ((g.node? n.index).map (·.children)).getD [] = (g.childrenOf n).map (·.index) := by
        rw [h.node?_of_mem hn, h.indices_childrenOf hn]
        rfl
      have hrest := @ih (g.childrenOf n ++ ns) (fun m hm => ?_) ?_
      · rw [List.map_cons, walkStack, hchildren, ← List.map_append, hrest]
        simp
      · rcases List.mem_append.mp hm with hm | hm
        · exact ((h.mem_children hn).mp hm).1
        · exact hns m (by simp [hm])
      · rw [List.flatMap_append]
        simp only [List.cons_append, List.length_cons] at hlength
        omega

/-- **The walk from the root meets every node once.** -/
theorem walkNodes_perm (h : g.Arena) : g.walkNodes.Perm g.nodes := by
  obtain ⟨root, hroot, -, hperm⟩ := h.below_root
  have hmem : ∀ n ∈ [root], n ∈ g.nodes := by simpa using List.mem_of_getElem? hroot
  have hlength : ([root].flatMap (below g.childrenOf g.nodes.length)).length ≤ g.nodes.length + 1 := by
    rw [List.flatMap_singleton, hperm.length_eq]
    omega
  have hwalk : g.walk 0 = (below g.childrenOf g.nodes.length root).map (·.index) := by
    have hstack := h.walkStack_eq hmem hlength
    rw [List.flatMap_singleton, List.map_singleton, h.index hroot] at hstack
    exact hstack
  have hnodes : g.walkNodes = below g.childrenOf g.nodes.length root := by
    rw [walkNodes, hwalk, List.filterMap_map]
    have hself : ∀ n ∈ below g.childrenOf g.nodes.length root, (g.node? ∘ (·.index)) n = some n :=
      fun n hn => h.node?_of_mem (hperm.mem_iff.mp hn)
    rw [List.filterMap_congr hself, List.filterMap_some]
  rw [hnodes]
  exact hperm

theorem packages_perm (h : g.Arena) : g.packages.Perm (g.nodes.filter (·.kind == .package)) :=
  (walkNodes_perm h).filter _

end ProtoBind.Schema.Graph
