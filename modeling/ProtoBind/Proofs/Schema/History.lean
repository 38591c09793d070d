/-
Every history of a schema graph.

A graph is built by three operations: a file is entered, a package is looked
for and created as needed, a node is added under a parent. Any of them may
fail, and what a failed one did before its fault stays done. The nodes are
kept in four ways at once: by number, by their parents, in the children of
each, and by full name. `Graph.Consistent` says that these agree. Each
operation keeps this whether it succeeds or not (`Operation.apply_recorded`),
so it holds after every history (`history_consistent`).
-/
import ProtoBind.Proofs.Schema.Arena

namespace ProtoBind.Schema.Graph

/-- A step of building a graph. -/
inductive Operation
  | addFile (file : String)
  | package (name : String)
  | add (entry : Entry) (parent : Nat)

/-- The graph after an operation, and the fault of an operation that failed. -/
def Operation.apply (g : Graph) : Operation → Graph × Option AddFault
  | addFile file => (g.addFile file, none)
  | package name =>
    match g.package name with
    | (g', .ok _) => (g', none)
    | (g', .error e) => (g', some e)
  | add entry parent =>
    match g.add entry parent with
    | .ok (_, g') => (g', none)
    | .error e => (g, some e)

/-- The graph after a sequence of operations. -/
def history (ops : List Operation) : Graph := ops.foldl (fun g op => (op.apply g).1) empty

/-- The views of the nodes agree. -/
structure Consistent (g : Graph) : Prop where
  index : ∀ {i n}, g.node? i = some n → n.index = i
  root : ∃ n, g.node? 0 = some n ∧ n.parent = none
  /-- Every other node has a parent, which stands before it. -/
  parent : ∀ {i n}, g.node? i = some n → i ≠ 0 → ∃ p, n.parent = some p ∧ p < i
  /-- Under the root the full name is the bare name. -/
  fullName : ∀ {i n p pn}, g.node? i = some n → n.parent = some p → g.node? p = some pn →
    n.fullName = if p = 0 then n.name else pn.fullName ++ "." ++ n.name
  distinct : (g.nodes.map (·.fullName)).Nodup
  byName : g.byName = g.nodes.map fun n => (n.fullName, n.index)
  increasing : ∀ n ∈ g.nodes, n.children.Pairwise (· < ·)
  children : ∀ {i n}, g.node? i = some n → ∀ j, j ∈ n.children ↔
    ∃ c, g.node? j = some c ∧ c.parent = some i
  files : g.files.Nodup

/-- What one operation hands on to the next. -/
structure Recorded (g : Graph) : Prop extends g.Arena where
  entries : g.byName = g.nodes.map fun n => (n.fullName, n.index)
  files : g.files.Nodup

variable {g g' : Graph}

/-! ## Steps -/

theorem Recorded.empty : Graph.empty.Recorded where
  toArena := Arena.empty
  entries := rfl
  files := List.nodup_nil

theorem Recorded.addFile (h : g.Recorded) (file : String) : (g.addFile file).Recorded := by
  unfold Graph.addFile
  split
  next => exact h
  next hnew =>
    have hfresh : file ∉ g.files := by simpa using hnew
    refine { root := h.root, index := h.index, parent := h.parent, children := h.children, names := h.names
             entries := h.entries, files := ?_ }
    rw [List.nodup_append]
    refine ⟨h.files, by simp, fun a ha b hb => ?_⟩
    obtain rfl : b = file := by simpa using hb
    exact fun he => hfresh (he ▸ ha)

theorem Recorded.add (h : g.Recorded) {entry : Entry} {p i : Nat} (hadd : g.add entry p = .ok (i, g')) :
    g'.Recorded := by
  obtain ⟨pn, hp, hf, -, rfl⟩ := add_eq_ok hadd
  refine { h.toArena.adopt hp hf with entries := ?_, files := h.files }
  -- The index of names gets the new node last, as the arena does.
  have hnodes := @filterMap_adopt g entry p _ pn (fun n => some (n.fullName, n.index)) fun _ _ => rfl
  simp only [List.filterMap_eq_map', Option.toList_some] at hnodes
  rw [hnodes, ← h.entries]
  rfl

theorem packageUnder_recorded : ∀ {parts : List String} {g : Graph} {current : Nat}, g.Recorded →
    (g.packageUnder current parts).1.Recorded
  | [], g, current, h => h
  | part :: rest, g, current, h => by
    unfold packageUnder
    dsimp only
    split
    next =>
      split
      next index g₁ hadd => exact packageUnder_recorded (h.add hadd)
      next => exact h
    next index _ =>
      split
      next n _ =>
        split
        next => exact packageUnder_recorded h
        next => exact h
      next => exact h

theorem package_recorded (h : g.Recorded) (name : String) : (g.package name).1.Recorded := by
  unfold package
  split
  next => exact h
  next => exact packageUnder_recorded h

theorem Operation.apply_package (g : Graph) (name : String) :
    ((Operation.package name).apply g).1 = (g.package name).1 := by
  simp only [Operation.apply]
  split
  next hr => rw [hr]
  next hr => rw [hr]

/-- Every operation keeps the views in agreement, also one that fails. -/
theorem Operation.apply_recorded (h : g.Recorded) (op : Operation) : (op.apply g).1.Recorded := by
  cases op with
  | addFile file => exact h.addFile file
  | package name =>
    rw [Operation.apply_package]
    exact package_recorded h name
  | add entry parent =>
    simp only [Operation.apply]
    split
    next i g' hadd => exact h.add hadd
    next => exact h

/-! ## Histories -/

/-- What every operation keeps holds after every history. -/
theorem history_keeps {P : Graph → Prop} (h : P empty) : ∀ {ops : List Operation},
    (∀ op ∈ ops, ∀ g, P g → P (op.apply g).1) → P (history ops) := by
  have hrun : ∀ (ops : List Operation) (g : Graph), (∀ op ∈ ops, ∀ g, P g → P (op.apply g).1) → P g →
      P (ops.foldl (fun g op => (op.apply g).1) g) := by
    intro ops
    induction ops with
    | nil => exact fun g _ h => h
    | cons op rest ih =>
      exact fun g hops h => ih _ (fun op hop => hops op (List.mem_cons_of_mem _ hop)) (hops op List.mem_cons_self g h)
  exact fun {ops} hops => hrun ops empty hops h

theorem history_recorded (ops : List Operation) : (history ops).Recorded :=
  history_keeps Recorded.empty fun op _ _ h => op.apply_recorded h

/-- Only the root has the empty name. -/
theorem Arena.fullName_empty (h : g.Arena) {i : Nat} {n : Node} (hn : g.node? i = some n) :
    n.fullName = "" ↔ i = 0 := by
  obtain ⟨r, hr, -, -, hempty⟩ := h.root
  constructor
  · intro he
    have hsame := h.unique (List.mem_of_getElem? hn) (List.mem_of_getElem? hr) (he.trans hempty.symm)
    rw [← h.index hn, hsame, h.index hr]
  · intro h0
    subst h0
    rw [hr, Option.some.injEq] at hn
    rw [← hn, hempty]

theorem Recorded.consistent (h : g.Recorded) : g.Consistent where
  index := h.index
  root := by
    obtain ⟨n, hn, -, hp, -⟩ := h.root
    exact ⟨n, hn, hp⟩
  parent hn hi := by
    obtain ⟨p, -, hp, hlt, -⟩ := h.parent hn hi
    exact ⟨p, hp, hlt⟩
  fullName {i n p pn} hn hp hpn := by
    have hname := h.fullName_eq (List.mem_of_getElem? hn) (List.mem_of_getElem? hpn)
      (by rw [hp, h.index hpn])
    have hroot := h.fullName_empty hpn
    rw [hname, childName]
    by_cases h0 : p = 0
    · simp [h0, hroot.mpr h0]
    · have hne : ¬ pn.fullName.isEmpty = true := fun he => h0 (hroot.mp (String.isEmpty_iff.mp he))
      simp [h0, hne]
  distinct := List.Nodup.map_on (fun _ hn _ hm he => h.unique hn hm he) h.nodup
  byName := h.entries
  increasing n hn := by
    have hnodes : (g.nodes.map (·.index)).Pairwise (· < ·) := by
      rw [h.indices]
      exact List.pairwise_lt_range
    rw [h.children n hn]
    refine List.Pairwise.filterMap _ ?_ (List.pairwise_map.mp hnodes)
    intro a b hlt x hx y hy
    simp only [Option.ite_none_right_eq_some, Option.some.injEq] at hx hy
    rw [← hx.2, ← hy.2]
    exact hlt
  children {i n} hn j := by
    rw [h.children n (List.mem_of_getElem? hn), h.index hn, List.mem_filterMap]
    simp only [Option.ite_none_right_eq_some, Option.some.injEq]
    constructor
    · rintro ⟨c, hc, hp, rfl⟩
      exact ⟨c, h.node?_of_mem hc, hp⟩
    · rintro ⟨c, hc, hp⟩
      exact ⟨c, List.mem_of_getElem? hc, hp, h.index hc⟩
  files := h.files

/-- An addition is refused as a duplicate exactly when its full name is taken. -/
theorem add_eq_duplicate (h : g.Arena) {entry : Entry} {p : Nat} :
    (∃ d, g.add entry p = .error (.duplicate d)) ↔
      ∃ pn n, g.node? p = some pn ∧ n ∈ g.nodes ∧ n.fullName = childName pn.fullName entry.name := by
  unfold add
  cases hp : g.node? p with
  | none => simp
  | some pn =>
    dsimp only
    cases hf : g.find? (childName pn.fullName entry.name) with
    | none =>
      simp only [reduceCtorEq, exists_false, Option.some.injEq, false_iff]
      rintro ⟨_, n, rfl, hn, hname⟩
      rw [← hname, h.find?_fullName hn] at hf
      cases hf
    | some j =>
      obtain ⟨n, hn, hname⟩ := h.names.mp hf
      simp only [Except.error.injEq, AddFault.duplicate.injEq, exists_eq', true_iff]
      exact ⟨pn, n, rfl, List.mem_of_getElem? hn, hname⟩

/-- **The views of the nodes agree after every history.** An addition fails as a duplicate exactly when
another node has its full name, and then it leaves the whole graph as it was. -/
theorem history_consistent (ops : List Operation) :
    (history ops).Consistent ∧
    ∀ entry p,
      ((∃ d, ((Operation.add entry p).apply (history ops)).2 = some (.duplicate d)) ↔
        ∃ pn n, (history ops).node? p = some pn ∧ n ∈ (history ops).nodes ∧
          n.fullName = childName pn.fullName entry.name) ∧
      ∀ d, ((Operation.add entry p).apply (history ops)).2 = some (.duplicate d) →
        ((Operation.add entry p).apply (history ops)).1 = history ops := by
  have h := history_recorded ops
  refine ⟨h.consistent, fun entry p => ⟨?_, fun d hd => ?_⟩⟩
  · rw [← add_eq_duplicate h.toArena]
    simp only [Operation.apply]
    split
    next i g' hadd => simp [hadd]
    next e hadd => simp [hadd]
  · simp only [Operation.apply] at hd ⊢
    split at hd
    next => cases hd
    next => rfl

end ProtoBind.Schema.Graph
