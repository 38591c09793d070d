/-
Unresolved references are reported once, by the file that they are in.

The outermost declarations of a file, with all below them, are the nodes of
that file (`file_perm`), and what is noted for a declaration is what is
unresolved in the nodes below it (`within_perm`). So the faults of all files
together report what resolution reported (`assemble_diagnoses`).
-/
import ProtoBind.Proofs.Codegen.Emission
import ProtoBind.Proofs.Codegen.Plan
import ProtoBind.Proofs.Schema.Printed

namespace ProtoBind.Codegen

open Schema Schema.Graph

/-! ## Lists by key -/

section Keys

variable {α β κ : Type}

theorem flatMap_filter (p : α → Bool) (h : α → List β) (l : List α) :
    (l.filter p).flatMap h = l.flatMap fun x => if p x then h x else [] := by
  induction l with
  | nil => rfl
  | cons x l ih => by_cases hx : p x <;> simp [hx, ih]

/-- A list taken apart by a key. -/
theorem flatMap_key_perm [BEq κ] [LawfulBEq κ] (key : α → κ) (l : List α) : ∀ {ks : List κ}, ks.Nodup →
    (ks.flatMap fun k => l.filter (key · == k)).Perm (l.filter fun x => ks.contains (key x))
  | [], _ => by simp
  | k :: ks, hks => by
    rw [List.nodup_cons] at hks
    have hsplit := List.filter_append_perm (key · == k) (l.filter fun x => (k :: ks).contains (key x))
    rw [List.filter_filter, List.filter_filter] at hsplit
    have hhead : (l.filter fun x => key x == k && (k :: ks).contains (key x)) = l.filter (key · == k) := by
      refine List.filter_congr fun x _ => ?_
      rw [List.contains_cons, Bool.and_or_distrib_left, Bool.and_self]
      cases key x == k <;> rfl
    have htail : (l.filter fun x => !(key x == k) && (k :: ks).contains (key x)) =
        l.filter fun x => ks.contains (key x) := by
      refine List.filter_congr fun x _ => ?_
      by_cases hx : key x = k
      · simp [hx, hks.1]
      · simp [hx]
    rw [hhead, htail] at hsplit
    rw [List.flatMap_cons]
    exact ((flatMap_key_perm key l hks.2).append_left _).trans hsplit

end Keys

/-! ## The nodes of a file -/

variable {g : Graph} {o : Options} {groups : List FileGroup}

theorem below_kidsWhere (h : g.Arena) (hf : g.Filed) {file : String} : ∀ (k : Nat) {n : Node}, n ∈ g.nodes →
    n.file = some file → below (g.kidsWhere (·.file == some file)) k n = below g.childrenOf k n
  | 0, _, _, _ => rfl
  | k + 1, n, hn, hfile => by
    have hpackage : n.kind ≠ .package := fun hk => by
      rw [hf.package n hn hk] at hfile
      cases hfile
    have hkids : ∀ c ∈ g.childrenOf n, c ∈ g.nodes ∧ c.file = some file := by
      intro c hc
      obtain ⟨hcn, hp⟩ := (h.mem_childrenOf hn).mp hc
      exact ⟨hcn, (hf.inside hcn hn hp hpackage).trans hfile⟩
    have hall : g.kidsWhere (·.file == some file) n = g.childrenOf n :=
      List.filter_eq_self.mpr fun c hc => beq_iff_eq.mpr (hkids c hc).2
    rw [below, below, hall]
    congr 1
    exact List.flatMap_congr fun c hc => below_kidsWhere h hf k (hkids c hc).1 (hkids c hc).2

/-- What stands in a package. -/
theorem declarations_perm (h : g.Arena) : (declarations g).Perm
    (g.nodes.filter fun n => (g.parentOf n).any (·.kind == .package) && n.kind != .package) :=
  ((packages_perm h).flatMap_right _).trans (h.children_perm _ _)

/-- The nodes of a file whose parents are not in it stand in packages. -/
theorem stands_in_package (h : g.Arena) (hf : g.Filed) {n : Node} {file : String} (hn : n ∈ g.nodes)
    (hfile : n.file = some file) : (!(g.parentOf n).any (·.file == some file)) =
      ((g.parentOf n).any (·.kind == .package) && n.kind != .package) := by
  have hpackage : n.kind ≠ .package := fun hk => by
    rw [hf.package n hn hk] at hfile
    cases hfile
  have hroot : n.index ≠ 0 := by
    intro h0
    obtain ⟨root, hroot, hk, -⟩ := h.root
    have hnode := h.node?_of_mem hn
    rw [h0, hroot, Option.some.injEq] at hnode
    exact hpackage (hnode ▸ hk)
  obtain ⟨i, p, hi, -, hp, -⟩ := h.parent (h.node?_of_mem hn) hroot
  have hparent : g.parentOf n = some p := by rw [parentOf, hi, Option.bind_some, hp]
  have hpn := (h.parentOf_iff.mp hparent).1
  by_cases hk : p.kind = .package
  · simp [hparent, hk, hpackage, hf.package p hpn hk]
  · have hsame := hf.inside hn hpn (h.parentOf_iff.mp hparent).2 hk
    simp [hparent, hk, ← hsame, hfile]

/-- **The nodes of a file are those below its outermost declarations.** -/
theorem file_perm (h : g.Arena) (hf : g.Filed) (file : String) : (g.nodes.filter (·.file == some file)).Perm
    (((declarations g).filter (·.file == some file)).flatMap (below g.childrenOf g.nodes.length)) := by
  have htops : ((declarations g).filter (·.file == some file)).Perm
      (g.nodes.filter fun n => !(g.parentOf n).any (·.file == some file) && n.file == some file) := by
    refine ((declarations_perm h).filter (·.file == some file)).trans (List.Perm.of_eq ?_)
    rw [List.filter_filter]
    refine List.filter_congr fun n hn => ?_
    by_cases hfile : n.file = some file
    · simp only [hfile, BEq.rfl, Bool.true_and, Bool.and_true]
      exact (stands_in_package h hf hn hfile).symm
    · rw [beq_eq_false_iff_ne.mpr hfile, Bool.false_and, Bool.and_false]
  refine ((h.forest _).trans (htops.symm.flatMap_right _)).trans (List.Perm.of_eq ?_)
  refine List.flatMap_congr fun n hn => ?_
  have hn := List.mem_filter.mp (htops.mem_iff.mp hn)
  have hfile : n.file = some file := by simpa using (Bool.and_eq_true_iff.mp hn.2).2
  exact below_kidsWhere h hf _ hn.1 hfile

/-! ## The notes of a declaration -/

/-- The kinds of the nodes that nothing stands in. -/
def IsLeaf (n : Node) : Prop := n.kind = .enum ∨ n.kind = .field ∨ n.kind = .method

theorem childrenOf_leaf (h : g.Shaped) {n : Node} (hn : n ∈ g.nodes) (hk : IsLeaf n) : g.childrenOf n = [] := by
  refine List.eq_nil_iff_forall_not_mem.mpr fun c hc => ?_
  obtain ⟨hcn, hp⟩ := (h.mem_childrenOf hn).mp hc
  have hkinds := (h.placed hcn hn hp).kinds
  rcases hk with hk | hk | hk <;> simp [hk] at hkinds

theorem below_eq_singleton (h : g.Shaped) {n : Node} (hn : n ∈ g.nodes) (hk : IsLeaf n) :
    below g.childrenOf g.nodes.length n = [n] := by
  rw [h.below_eq hn, childrenOf_leaf h hn hk]
  rfl

/-- What stands in a message is a message or a leaf. -/
theorem child_of_message (h : g.Shaped) {n c : Node} (hn : n ∈ g.nodes) (hk : n.kind = .message)
    (hc : c ∈ g.childrenOf n) : c.kind = .message ∨ IsLeaf c := by
  obtain ⟨hcn, hp⟩ := (h.mem_childrenOf hn).mp hc
  have hkinds := (h.placed hcn hn hp).kinds
  unfold IsLeaf Node.kind
  simp only [hk, reduceCtorEq, false_and, false_or, true_and, or_false] at hkinds
  tauto

/-- What stands in a service is a method. -/
theorem child_of_service (h : g.Shaped) {n c : Node} (hn : n ∈ g.nodes) (hk : n.kind = .service)
    (hc : c ∈ g.childrenOf n) : c.kind = .method := by
  obtain ⟨hcn, hp⟩ := (h.mem_childrenOf hn).mp hc
  have hkinds := (h.placed hcn hn hp).kinds
  rw [hk] at hkinds
  have hmethod : c.body.kind = .method := by simpa using hkinds
  exact hmethod

/-- A function that gives nothing for the nodes that hold others. -/
def OnLeaves {β : Type} (h : Node → List β) : Prop := ∀ {n : Node}, ¬ IsLeaf n → h n = []

theorem notes_onLeaves : OnLeaves notes := fun h => notes_eq_nil (fun hf => h (.inr (.inl hf))) fun hm => h (.inr (.inr hm))

theorem stops_onLeaves : OnLeaves stops := fun h => stops_eq_nil (fun hf => h (.inr (.inl hf))) fun he => h (.inl he)

theorem not_isLeaf_of_kind {n : Node} {k : Kind} (h : n.kind = k) (hk : k ≠ .enum ∧ k ≠ .field ∧ k ≠ .method) :
    ¬ IsLeaf n := by
  subst h
  rintro (he | hf | hm)
  · exact hk.1 he
  · exact hk.2.1 hf
  · exact hk.2.2 hm

variable {β : Type} {h : Node → List β}

/-- What is below a message, and the children of the messages in it. -/
theorem inMessages_perm (hg : g.Shaped) (hh : OnLeaves h) : ∀ {k : Nat} {n : Node}, n ∈ g.nodes → n.kind = .message →
    g.nodes.length ≤ k + n.index → ((below g.childrenOf g.nodes.length n).flatMap h).Perm (inMessages g k h n)
  | 0, n, hn, _, hk => by
    have := hg.lt_length hn
    omega
  | k + 1, n, hn, hmessage, hk => by
    have hself {m : Node} (hm : m.kind = .message) : h m = [] := hh (not_isLeaf_of_kind hm (by decide))
    -- Each child gives its own part and, if it is a message, what is below it.
    have hchild : ∀ c ∈ g.childrenOf n, ((below g.childrenOf g.nodes.length c).flatMap h).Perm
        (h c ++ if c.kind == .message then inMessages g k h c else []) := by
      intro c hc
      obtain ⟨hcn, -⟩ := (hg.mem_childrenOf hn).mp hc
      by_cases hck : c.kind = .message
      · have hlt := hg.child_lt hn hc
        rw [hself hck, if_pos (beq_iff_eq.mpr hck), List.nil_append]
        exact inMessages_perm hg hh hcn hck (by omega)
      · have hleaf := (child_of_message hg hn hmessage hc).resolve_left hck
        rw [below_eq_singleton hg hcn hleaf, List.flatMap_singleton, if_neg (by simpa using hck), List.append_nil]
    rw [hg.below_eq hn, List.flatMap_cons, hself hmessage, List.nil_append, List.flatMap_assoc, inMessages, below,
      List.flatMap_cons, List.flatMap_assoc, childrenOfKind, flatMap_filter]
    exact (List.Perm.flatMap_left _ hchild).trans (List.flatMap_append_perm _ _ _).symm

/-- **What is given for a declaration is what is given for the nodes below it.** -/
theorem within_perm (hg : g.Shaped) (hh : OnLeaves h) {n : Node} (hn : n ∈ g.nodes) (hk : n.kind ∈ kindOrder) :
    (within g h n).Perm ((below g.childrenOf g.nodes.length n).flatMap h) := by
  unfold within
  simp only [kindOrder, List.mem_cons, List.not_mem_nil, or_false] at hk
  rcases hk with hk | hk | hk | hk <;> simp only [hk]
  · rw [below_eq_singleton hg hn (.inl hk), List.flatMap_singleton]
  · exact (inMessages_perm hg hh hn hk (Nat.le_add_right _ _)).symm
  · rw [hg.below_eq hn, List.flatMap_cons, hh (not_isLeaf_of_kind hk (by decide)), List.nil_append,
      List.flatMap_assoc]
    refine List.Perm.of_eq (List.flatMap_congr fun c hc => ?_)
    obtain ⟨hcn, -⟩ := (hg.mem_childrenOf hn).mp hc
    rw [below_eq_singleton hg hcn (.inr (.inr (child_of_service hg hn hk hc))), List.flatMap_singleton]
  · rw [below_eq_singleton hg hn (.inr (.inl hk)), List.flatMap_singleton]

/-! ## The notes of a plan -/

theorem ordered_perm {group : FileGroup} (h : ∀ n ∈ group.nodes, n.kind ∈ kindOrder) :
    group.ordered.Perm group.nodes := by
  have horder : kindOrder.Nodup := by decide
  have hkeys := flatMap_key_perm (·.kind) group.nodes horder
  rwa [List.filter_eq_self.mpr fun n hn => List.contains_iff_mem.mpr (h n hn)] at hkeys

/-- What is given for the declarations of a file is what is given for its nodes. -/
theorem group_within_perm (hs : g.Shaped) (hf : g.Filed) (hh : OnLeaves h)
    (hk : ∀ n ∈ declarations g, n.kind ∈ kindOrder) {group : FileGroup}
    (hnodes : group.nodes = (declarations g).filter (·.file == some group.file)) :
    (group.ordered.flatMap (within g h)).Perm ((g.nodes.filter (·.file == some group.file)).flatMap h) := by
  have hmem : ∀ n ∈ group.nodes, n ∈ g.nodes ∧ n.kind ∈ kindOrder := by
    intro n hn
    rw [hnodes] at hn
    have hn := List.mem_of_mem_filter hn
    exact ⟨List.mem_of_mem_filter ((declarations_perm hs.toArena).mem_iff.mp hn), hk n hn⟩
  have hbelow := List.Perm.flatMap_left group.nodes fun n hn => within_perm hs hh (hmem n hn).1 (hmem n hn).2
  rw [← List.flatMap_assoc] at hbelow
  have hfile := (file_perm hs.toArena hf group.file).flatMap_right h
  rw [← hnodes] at hfile
  exact (((ordered_perm fun n hn => (hmem n hn).2).flatMap_right _).trans hbelow).trans hfile.symm

/-- What is noted for a file is what is unresolved in its nodes. -/
theorem group_notes_perm (hs : g.Shaped) (hf : g.Filed) (hk : ∀ n ∈ declarations g, n.kind ∈ kindOrder)
    {group : FileGroup} (hnodes : group.nodes = (declarations g).filter (·.file == some group.file)) :
    (group.ordered.flatMap (notesIn g)).Perm ((g.nodes.filter (·.file == some group.file)).flatMap notes) :=
  group_within_perm hs hf notes_onLeaves hk hnodes

/-- What is noted for the files of a plan is what is unresolved in the graph. -/
theorem groups_notes_perm (hs : g.Shaped) (hf : g.Filed) (hk : ∀ n ∈ declarations g, n.kind ∈ kindOrder) :
    ((Codegen.groups g o).flatMap fun group => group.ordered.flatMap (notesIn g)).Perm (g.nodes.flatMap notes) := by
  -- Files without declarations have no group, and nothing was noted for them.
  have hgroups : ((Codegen.groups g o).flatMap fun group => group.ordered.flatMap (notesIn g)).Perm
      (g.files.flatMap fun file => (g.nodes.filter (·.file == some file)).flatMap notes) := by
    rw [Codegen.groups, flatMap_filter, List.flatMap_map]
    refine List.Perm.flatMap_left _ fun file _ => ?_
    let group : FileGroup := ⟨file, o.moduleForFile file, o.pathForFile file,
      (declarations g).filter (·.file == some file)⟩
    have hnodes : group.nodes = (declarations g).filter (·.file == some group.file) := rfl
    have hfile := group_notes_perm hs hf hk hnodes
    split
    next => exact hfile
    next hempty =>
      have hnone : group.nodes = [] := by simpa [group] using hempty
      have hordered : group.ordered = [] := by
        rw [FileGroup.ordered, hnone]
        rfl
      rwa [hordered] at hfile
  have hfiles : (g.files.flatMap fun file => g.nodes.filter (·.file == some file)).Perm
      (g.nodes.filter fun n => (g.files.map some).contains n.file) := by
    have hkeys := flatMap_key_perm (·.file) g.nodes (hf.files.map fun _ _ => Option.some.inj)
    rw [List.flatMap_map] at hkeys
    exact hkeys
  have hrest : (g.nodes.filter fun n => (g.files.map some).contains n.file).flatMap notes = g.nodes.flatMap notes := by
    rw [flatMap_filter]
    refine List.flatMap_congr fun n hn => ?_
    by_cases hk : n.kind = .package
    · rw [notes_eq_nil (by rw [hk]; decide) (by rw [hk]; decide), ite_self]
    · obtain ⟨file, hfile, hn⟩ := hf.declared n hn hk
      rw [if_pos (List.contains_iff_mem.mpr (by rw [hn]; exact List.mem_map_of_mem hfile))]
  rw [← hrest]
  refine hgroups.trans ?_
  rw [← List.flatMap_assoc]
  exact hfiles.flatMap_right _

/-! ## What is reported -/

/-- The references of a final graph can be written. -/
theorem referable_of_final (h : g.Final) (hf : g.Filed) : Referable g where
  toShaped := h.toShaped
  filed := by
    intro n r t hn hr ht hnone
    have hresolved : ∃ scope, r.target = g.resolve r.name scope := by
      unfold references at hr
      split at hr
      next f hb =>
        split at hr
        next r' hl =>
          obtain rfl := List.mem_singleton.mp hr
          exact ⟨_, h.target hn hb hl⟩
        next => cases hr
      next m hb =>
        simp only [List.mem_cons, List.not_mem_nil, or_false] at hr
        rcases hr with rfl | rfl
        · exact ⟨_, h.request hn hb⟩
        · exact ⟨_, h.response hn hb⟩
      next => cases hr
    obtain ⟨scope, hscope⟩ := hresolved
    obtain ⟨i, hi, ht⟩ := Option.bind_eq_some_iff.mp ht
    obtain ⟨t', ht', hk⟩ := resolve_type h.toArena (hscope.symm.trans hi)
    rw [ht, Option.some.injEq] at ht'
    subst ht'
    have hpackage : t.kind ≠ .package := by
      intro hp
      simp [Node.IsType, hp] at hk
    obtain ⟨file, -, hfile⟩ := hf.declared t (List.mem_of_getElem? ht) hpackage
    rw [hnone] at hfile
    cases hfile

/-- The types without an arity are the maps with a key of no scalar kind. -/
theorem arity?_eq_none_iff {t : ValueType} :
    t.arity? = none ↔ ∃ key leaf, t = .map key leaf ∧ Scalar.ofName? key = none := by
  cases t <;> simp [ValueType.arity?]

/-! ## What stops a module -/

/-- A message of the file has a map with keys of this type, which is no scalar kind. -/
def HasBadKey (g : Graph) (file key : String) : Prop :=
  ∃ n ∈ g.nodes, n.file = some file ∧ ∃ f leaf, n.body = .field f ∧ f.extendee = none ∧ f.type = .map key leaf ∧
    Scalar.ofName? key = none

/-- The numbers that the code of a node shows: the tag of a field of a message, the numbers of an enum. -/
def shownNumbers (n : Node) : List Int :=
  match n.body with
  | .field f => if f.extendee.isNone then [f.tag] else []
  | .enum values => values.map (·.number)
  | _ => []

/-- The code of the file shows this number, which is too long to be written. -/
def HasLongNumber (g : Graph) (file : String) (k : Int) : Prop :=
  isShort k = false ∧ ∃ n ∈ g.nodes, n.file = some file ∧ k ∈ shownNumbers n

theorem mem_keyStops {t : ValueType} {e : AssemblyFault} :
    e ∈ keyStops t ↔ ∃ key leaf, t = .map key leaf ∧ Scalar.ofName? key = none ∧ e = .badKey key := by
  unfold keyStops
  rw [List.mem_ite_nil_right, List.mem_singleton, Option.isNone_iff_eq_none, arity?_eq_none_iff]
  constructor
  · rintro ⟨⟨key, leaf, rfl, hnone⟩, rfl⟩
    exact ⟨key, leaf, rfl, hnone, rfl⟩
  · rintro ⟨key, leaf, rfl, hnone, rfl⟩
    exact ⟨⟨key, leaf, rfl, hnone⟩, rfl⟩

theorem mem_stops {n : Node} {e : AssemblyFault} : e ∈ stops n ↔
    (∃ key f leaf, n.body = .field f ∧ f.extendee = none ∧ f.type = .map key leaf ∧ Scalar.ofName? key = none ∧
      e = .badKey key) ∨ ∃ k ∈ shownNumbers n, isShort k = false ∧ e = .unwritable k := by
  rw [← mem_numberStops, stops, shownNumbers]
  cases hb : n.body with
  | field f =>
    by_cases hextendee : f.extendee = none
    · simp only [hextendee, Option.isNone_none, if_true, List.mem_append, mem_keyStops]
      refine or_congr_left ⟨?_, ?_⟩
      · rintro ⟨key, leaf, ht, hnone, he⟩
        exact ⟨key, f, leaf, rfl, hextendee, ht, hnone, he⟩
      · rintro ⟨key, f', leaf, hf, -, ht, hnone, he⟩
        obtain rfl := Body.field.inj hf
        exact ⟨key, leaf, ht, hnone, he⟩
    · have hsome : f.extendee.isNone = false := by
        rwa [← Bool.not_eq_true, Option.isNone_iff_eq_none]
      simp [hsome, numberStops, hextendee]
  | _ => simp [numberStops]

/-- What stops a module is a bad key or a long number of its file. -/
theorem mem_group_stops (hs : g.Shaped) (hf : g.Filed) (hk : ∀ n ∈ declarations g, n.kind ∈ kindOrder)
    {group : FileGroup} (hgroup : group ∈ Codegen.groups g o) {e : AssemblyFault} :
    e ∈ group.ordered.flatMap (within g stops) ↔ (∃ key, HasBadKey g group.file key ∧ e = .badKey key) ∨
      ∃ k, HasLongNumber g group.file k ∧ e = .unwritable k := by
  rw [(group_within_perm hs hf stops_onLeaves hk (mem_groups hgroup).2).mem_iff]
  simp only [List.mem_flatMap, List.mem_filter, beq_iff_eq, mem_stops, HasBadKey, HasLongNumber]
  constructor
  · rintro ⟨n, ⟨hn, hfile⟩, ⟨key, f, leaf, hb, hextendee, ht, hnone, he⟩ | ⟨k, hk, hlong, he⟩⟩
    · exact .inl ⟨key, ⟨n, hn, hfile, f, leaf, hb, hextendee, ht, hnone⟩, he⟩
    · exact .inr ⟨k, ⟨hlong, n, hn, hfile, hk⟩, he⟩
  · rintro (⟨key, ⟨n, hn, hfile, f, leaf, hb, hextendee, ht, hnone⟩, he⟩ | ⟨k, ⟨hlong, n, hn, hfile, hk⟩, he⟩)
    · exact ⟨n, ⟨hn, hfile⟩, .inl ⟨key, f, leaf, hb, hextendee, ht, hnone, he⟩⟩
    · exact ⟨n, ⟨hn, hfile⟩, .inr ⟨k, hk, hlong, he⟩⟩

/-- A field that stands in a package extends a message, so its type is none of a message's maps. -/
theorem emittable_of_declared (hs : g.Shaped) (hk : ∀ n ∈ declarations g, n.kind ∈ kindOrder)
    (hn : n ∈ declarations g) : Emittable g n := by
  obtain ⟨hmem, hparent⟩ := List.mem_filter.mp ((declarations_perm hs.toArena).mem_iff.mp hn)
  refine ⟨hmem, hk n hn, fun hfield => ?_⟩
  obtain ⟨f, hb⟩ : ∃ f, n.body = .field f := by
    unfold Node.kind at hfield
    cases hb : n.body <;> rw [hb] at hfield <;> cases hfield
    exact ⟨_, rfl⟩
  cases hp : g.parentOf n with
  | none => simp [hp] at hparent
  | some p =>
    have hpk : p.kind = .package := by simpa [hp, hb] using (Bool.and_eq_true_iff.mp hparent).1
    obtain ⟨hpn, hindex⟩ := hs.parentOf_iff.mp hp
    have hplaced := hs.placed hmem hpn hindex
    rw [hpk, hb] at hplaced
    simp [stops, hb, Option.isNone_eq_false_iff.mpr (Option.isSome_iff_ne_none.mpr hplaced.1)]

theorem emittable_of_ordered (hs : g.Shaped) (hk : ∀ n ∈ declarations g, n.kind ∈ kindOrder) {group : FileGroup}
    (hgroup : group ∈ Codegen.groups g o) : ∀ n ∈ group.ordered, Emittable g n := by
  intro n hn
  obtain ⟨k, -, hn⟩ := List.mem_flatMap.mp hn
  have hn := List.mem_of_mem_filter hn
  rw [(mem_groups hgroup).2] at hn
  exact emittable_of_declared hs hk (List.mem_of_mem_filter hn)

/-- The references that a file reports, each with the full name of what refers to it. -/
def diagnosed : Except AssemblyFault String → List (String × String)
  | .error (.unresolved _ refs) => refs.map fun u => (u.referencing, u.missing)
  | _ => []

theorem map_notes (l : List Node) :
    (l.flatMap notes).map (fun u => (u.referencing, u.missing)) = l.flatMap unresolvedIn := by
  rw [List.map_flatMap]
  refine List.flatMap_congr fun n _ => ?_
  rw [notes, unresolvedIn, List.map_map]
  rfl

theorem diagnosed_assemble {group : FileGroup} (hg : Referable g) (hgroup : ∀ n ∈ group.ordered, Emittable g n)
    (hstops : group.ordered.flatMap (within g stops) = []) (halias : ∀ c, assemble g o group ≠ .error (.aliasTaken c)) :
    diagnosed (assemble g o group) =
      (group.ordered.flatMap (notesIn g)).map fun u => (u.referencing, u.missing) := by
  have h := assemble_eq hg hgroup hstops halias
  split at h
  next hnone =>
    obtain ⟨text, h⟩ := h
    rw [h, hnone]
    rfl
  next =>
    rw [h]
    rfl

/-- A file with notes is not given, and only such a file. -/
theorem assemble_fails_iff {group : FileGroup} (hg : Referable g) (hgroup : ∀ n ∈ group.ordered, Emittable g n)
    (hstops : group.ordered.flatMap (within g stops) = []) (halias : ∀ c, assemble g o group ≠ .error (.aliasTaken c)) :
    (∃ refs, assemble g o group = .error (.unresolved group.file refs)) ↔ diagnosed (assemble g o group) ≠ [] := by
  have h := assemble_eq hg hgroup hstops halias
  split at h
  next =>
    obtain ⟨text, h⟩ := h
    simp [h, diagnosed]
  next hsome => simpa [h, diagnosed] using hsome

section Loaded

variable {sources : Sources} {s : Loader}

/-- **Every unresolved reference is reported once, by the file that contains it.** In a loaded graph whose maps have
scalar keys, with a plan and with aliases for all imports, a file whose code would show a number that is too long to be
written fails for such a number, whatever it refers to. The module of any other file is given unless a node of that
file has a reference without a target. Where no file has such a number, what the files report together is what
resolution reported. -/
theorem assemble_diagnoses [Source.CharacterNames] (hload : loadSources sources .empty = .ok g s)
    (hkeys : ∀ n ∈ g.nodes, ∀ f key leaf, n.body = .field f → f.type = .map key leaf → (Scalar.ofName? key).isSome)
    (hplan : plan g o = .ok groups)
    (halias : ∀ group ∈ groups, ∀ c, assemble g o group ≠ .error (.aliasTaken c)) :
    (∀ group ∈ groups,
      ((∃ k, HasLongNumber g group.file k) →
        ∃ k, HasLongNumber g group.file k ∧ assemble g o group = .error (.unwritable k)) ∧
      ((¬ ∃ k, HasLongNumber g group.file k) →
        ((∃ refs, assemble g o group = .error (.unresolved group.file refs)) ↔
          ∃ n ∈ g.nodes, n.file = some group.file ∧ missing n.body ≠ []) ∧
        ((∃ text, assemble g o group = .ok text) ∨ ∃ refs, assemble g o group = .error (.unresolved group.file refs)) ∧
        (diagnosed (assemble g o group)).Perm ((g.nodes.filter (·.file == some group.file)).flatMap unresolvedIn))) ∧
    ((∀ group ∈ groups, ¬ ∃ k, HasLongNumber g group.file k) →
      ∃ loaded missing, Load.loadEach sources .empty = .ok () loaded ∧ loaded.graph.finalize = (g, .ok missing) ∧
        (groups.flatMap fun group => diagnosed (assemble g o group)).Perm
          (missing.map fun (n, name) => (n.fullName, name))) := by
  have hfinal := loadSources_final empty_formed hload
  have hfiled := loadSources_filed hload
  have hg := referable_of_final hfinal hfiled
  obtain ⟨rfl, hk, -, -⟩ := plan_eq_ok hplan
  have hgroups {group : FileGroup} (hgroup : group ∈ Codegen.groups g o) : ∀ n ∈ group.ordered, Emittable g n :=
    emittable_of_ordered hfinal.toShaped hk hgroup
  have hmem {group : FileGroup} (hgroup : group ∈ Codegen.groups g o) {e : AssemblyFault} :
      e ∈ group.ordered.flatMap (within g stops) ↔ ∃ k, HasLongNumber g group.file k ∧ e = .unwritable k := by
    rw [mem_group_stops hfinal.toShaped hfiled hk hgroup]
    refine or_iff_right ?_
    rintro ⟨key, ⟨n, hn, -, f, leaf, hb, -, ht, hnone⟩, -⟩
    have hscalar := hkeys n hn f key leaf hb ht
    rw [hnone] at hscalar
    cases hscalar
  have hstops {group : FileGroup} (hgroup : group ∈ Codegen.groups g o)
      (hshort : ¬ ∃ k, HasLongNumber g group.file k) : group.ordered.flatMap (within g stops) = [] := by
    refine List.eq_nil_iff_forall_not_mem.mpr fun e he => ?_
    obtain ⟨k, hlong, -⟩ := (hmem hgroup).mp he
    exact hshort ⟨k, hlong⟩
  refine ⟨fun group hgroup => ⟨?_, fun hshort => ?_⟩, fun hshort => ?_⟩
  · rintro ⟨k, hlong⟩
    obtain ⟨e, he, hfails⟩ :=
      assemble_of_stops hg (hgroups hgroup) ((hmem hgroup).mpr ⟨k, hlong, rfl⟩) (halias group hgroup)
    obtain ⟨k', hlong', rfl⟩ := (hmem hgroup).mp he
    exact ⟨k', hlong', hfails⟩
  · have hnone := hstops hgroup hshort
    have hreports : (diagnosed (assemble g o group)).Perm
        ((g.nodes.filter (·.file == some group.file)).flatMap unresolvedIn) := by
      rw [diagnosed_assemble hg (hgroups hgroup) hnone (halias group hgroup), ← map_notes]
      exact (group_notes_perm hfinal.toShaped hfiled hk (mem_groups hgroup).2).map _
    refine ⟨?_, ?_, hreports⟩
    · rw [assemble_fails_iff hg (hgroups hgroup) hnone (halias group hgroup), ne_eq,
        ← List.isEmpty_iff, hreports.isEmpty_eq]
      simp [unresolvedIn]
    · have h := assemble_eq hg (hgroups hgroup) hnone (halias group hgroup)
      split at h
      next => exact .inl h
      next => exact .inr ⟨_, h⟩
  · obtain ⟨loaded, heach, missing, hf⟩ := Load.loadSources_eq_ok.mp ⟨s, hload⟩
    refine ⟨loaded, missing, heach, hf, ?_⟩
    rw [finalize_missing hf, ← map_notes, List.flatMap_congr fun group hgroup =>
      diagnosed_assemble hg (hgroups hgroup) (hstops hgroup (hshort group hgroup)) (halias group hgroup),
      ← List.map_flatMap]
    exact (groups_notes_perm hfinal.toShaped hfiled hk).map _

end Loaded

/-- The faults of the modules of a plan, and what stops each file. -/
def faultsOf (g : Graph) : List (String × Option AssemblyFault × List AssemblyFault) :=
  match plan g .default with
  | .error _ => []
  | .ok groups => groups.map fun group => (group.file, (match assemble g .default group with
    | .ok _ => none
    | .error e => some e), (g.nodes.filter (·.file == some group.file)).flatMap stops)

/-- Where faults of modules are found there is a plan, and its modules have these faults. -/
theorem plan_of_faults {g : Graph} {faults : List (String × Option AssemblyFault × List AssemblyFault)}
    (h : faultsOf g = faults) (hne : faults ≠ []) : ∃ groups, plan g .default = .ok groups ∧
      List.Forall₂ (fun group fault => group.file = fault.1 ∧
        (∀ e, assemble g .default group = .error e ↔ fault.2.1 = some e) ∧
        (g.nodes.filter (·.file == some group.file)).flatMap stops = fault.2.2) groups faults := by
  unfold faultsOf at h
  split at h
  next => exact absurd h.symm hne
  next groups hplan =>
    refine ⟨groups, hplan, ?_⟩
    rw [← h, List.forall₂_map_right_iff, List.forall₂_same]
    intro group _
    refine ⟨rfl, fun e => ?_, rfl⟩
    cases assemble g .default group with
    | ok text => simp
    | error e' => simp

/-- Two files, of which one refers to an enum that the other does not have. -/
def danglingFiles : List (String × List Source.Decl) :=
  [("a.proto", [.message "A" [] 1]),
    ("b.proto", [.imports "a.proto", .package "p.q", .message "C" [.field ⟨none, "A.E", "e", 1, [], 1⟩] 1])]

def dangling : Sources := printedSources danglingFiles

theorem dangling_faults : succeedsWith (loadSources dangling) .empty (fun g =>
    (g.nodes.all fun n => n.field?.all fun f => match f.type with
      | .map key _ => (Scalar.ofName? key).isSome
      | _ => true) &&
    faultsOf g == [("a.proto", none, []), ("b.proto", some (.unresolved "b.proto" [⟨"p.q.C.e", "A.E"⟩]), [])]) = true := by
  unfold loadSources loadOne
  rw [Load.load_eq_known danglingFiles (by decide +kernel)]
  decide +kernel

/-- The file that refers to what is not there reports it, and it is all that is reported. -/
theorem assemble_diagnoses_dangling : ∃ g s groups, loadSources dangling .empty = .ok g s ∧
    plan g .default = .ok groups ∧ (∀ group ∈ groups, ∀ c, assemble g .default group ≠ .error (.aliasTaken c)) ∧
    (groups.flatMap fun group => diagnosed (assemble g .default group)) = [("p.q.C.e", "A.E")] ∧
    (∀ group ∈ groups, ¬ ∃ k, HasLongNumber g group.file k) ∧
    (∃ group ∈ groups, group.file = "b.proto" ∧ ∃ n ∈ g.nodes, n.file = some group.file ∧ missing n.body ≠ []) ∧
    ∃ loaded missing, Load.loadEach dangling .empty = .ok () loaded ∧ loaded.graph.finalize = (g, .ok missing) ∧
      missing.map (fun (n, name) => (n.fullName, name)) = [("p.q.C.e", "A.E")] := by
  obtain ⟨g, s, hload, htest⟩ := exists_of_succeedsWith dangling_faults
  rw [Bool.and_eq_true, List.all_eq_true] at htest
  obtain ⟨hscalar, hfaults⟩ := htest
  obtain ⟨groups, hplan, hall⟩ := plan_of_faults (eq_of_beq hfaults) (List.cons_ne_nil _ _)
  have hkeys : ∀ n ∈ g.nodes, ∀ f key leaf, n.body = .field f → f.type = .map key leaf →
      (Scalar.ofName? key).isSome := by
    intro n hn f key leaf hb ht
    have hkey := hscalar n hn
    rw [Node.field?_eq_some_iff.mpr hb, Option.all_some, ht] at hkey
    exact hkey
  obtain ⟨first, second, rfl⟩ : ∃ first second, groups = [first, second] :=
    List.length_eq_two.mp hall.length_eq
  obtain ⟨⟨-, hfirst, hstops⟩, ⟨hfile, hsecond, hstops'⟩, -⟩ := by simpa only [List.forall₂_cons] using hall
  have hgiven : ∀ e, assemble g .default first ≠ .error e := fun e he => by simpa using (hfirst e).mp he
  have hreported := (hsecond _).mpr rfl
  have halias : ∀ group ∈ [first, second], ∀ c, assemble g .default group ≠ .error (.aliasTaken c) := by
    intro group hgroup c he
    rcases List.mem_pair.mp hgroup with rfl | rfl
    · exact hgiven _ he
    · cases hreported.symm.trans he
  have hdiagnosed :
      ([first, second].flatMap fun group => diagnosed (assemble g .default group)) = [("p.q.C.e", "A.E")] := by
    obtain ⟨text, htext⟩ : ∃ text, assemble g .default first = .ok text := by
      cases h : assemble g .default first with
      | ok text => exact ⟨text, rfl⟩
      | error e => exact absurd h (hgiven e)
    simp [hreported, htext, diagnosed]
  have hshort : ∀ group ∈ [first, second], ¬ ∃ k, HasLongNumber g group.file k := by
    have hnone : ∀ group ∈ [first, second], (g.nodes.filter (·.file == some group.file)).flatMap stops = [] := by
      simp [List.flatMap_eq_nil_iff] at hstops hstops' ⊢
      exact ⟨hstops, hstops'⟩
    rintro group hgroup ⟨k, hlong, n, hn, hfile, hk⟩
    have hstop : .unwritable k ∈ (g.nodes.filter (·.file == some group.file)).flatMap stops :=
      List.mem_flatMap.mpr ⟨n, List.mem_filter.mpr ⟨hn, beq_iff_eq.mpr hfile⟩, mem_stops.mpr (.inr ⟨k, hk, hlong, rfl⟩)⟩
    rw [hnone group hgroup] at hstop
    cases hstop
  obtain ⟨hfails, hall⟩ := assemble_diagnoses hload hkeys hplan halias
  obtain ⟨loaded, missing, heach, hf, hperm⟩ := hall hshort
  refine ⟨g, s, _, hload, hplan, halias, hdiagnosed, hshort, ⟨second, by simp, hfile, ?_⟩, loaded, missing, heach, hf, ?_⟩
  · exact ((hfails second (by simp)).2 (hshort second (by simp))).1.mp ⟨_, hfile ▸ hreported⟩
  · rw [hdiagnosed] at hperm
    exact List.perm_singleton.mp hperm.symm

end ProtoBind.Codegen
