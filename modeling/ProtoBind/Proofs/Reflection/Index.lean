/-
Reading a whole document into an index.

Every namespace, message, enum, service and extension of the graph is
documented, and each lies within the root. The document of a well-formed
graph exists (`document_eq_ok`), and reading it enters exactly the documented
nodes, each as what it is (`readNested_document`).
-/
import Mathlib.Logic.Relation
import ProtoBind.Proofs.Reflection.Image

namespace ProtoBind.Reflection

open Schema (Graph Node)

/-- The node has an object of its own: it is no method, and if it is a field it stands in a
package. -/
def Documented (g : Graph) (n : Node) : Prop :=
  n.kind ≠ .method ∧ (n.kind = .field → ∃ p, g.parentOf n = some p ∧ p.kind = .package)

/-- A node is documented inside another, at any depth. -/
abbrev Within (g : Graph) : Node → Node → Prop := Relation.ReflTransGen fun p c => c ∈ innerNodes g p

variable {g : Graph} {n : Node}

/-! ## Where documented nodes stand -/

theorem parentOf_eq (h : g.Arena) {c : Node} (hn : n ∈ g.nodes) (hp : c.parent = some n.index) :
    g.parentOf c = some n := by
  rw [Graph.parentOf, hp]
  exact h.node?_of_mem hn

theorem mem_innerNodes (h : g.Formed) {c : Node} (hn : n ∈ g.nodes) (hc : c ∈ innerNodes g n) :
    c ∈ g.nodes ∧ c.parent = some n.index ∧ Documented g c := by
  unfold innerNodes at hc
  split at hc
  next hk =>
    rw [nestedNodes, List.mem_filter] at hc
    obtain ⟨hchild, hnot⟩ := hc
    obtain ⟨hcm, hpar⟩ := (h.mem_childrenOf hn).mp hchild
    have hholds := h.placed hcm hn hpar
    refine ⟨hcm, hpar, fun hmethod => ?_, fun hfield => ⟨n, parentOf_eq h.toArena hn hpar, ?_⟩⟩
    · rcases hholds.kinds with ⟨-, hne⟩ | ⟨-, he⟩ | ⟨hs, -⟩
      · exact hne hmethod
      · rw [show c.body.kind = .method from hmethod] at he
        simp at he
      · rw [hs] at hk
        simp at hk
    · rcases hk with hk | hk
      · exact hk
      · simp [hk, hfield] at hnot
  next => cases hc

/-- A documented node other than the root stands inside a documented one. -/
theorem mem_innerNodes_parent (h : g.Formed) (hn : n ∈ g.nodes) (hd : Documented g n) (h0 : n.index ≠ 0) :
    ∃ p ∈ g.nodes, p.index < n.index ∧ Documented g p ∧ n ∈ innerNodes g p := by
  obtain ⟨i, p, hi, hlt, hp, -⟩ := h.parent (h.node?_of_mem hn) h0
  have hpm : p ∈ g.nodes := List.mem_of_getElem? hp
  have hpi : p.index = i := h.index hp
  have hpar : n.parent = some p.index := by rw [hi, hpi]
  have hkinds : p.kind = .package ∨ (p.kind = .message ∧ n.kind ≠ .field) := by
    rcases (h.placed hn hpm hpar).kinds with ⟨hk, -⟩ | ⟨hk, -⟩ | ⟨-, hm⟩
    · exact .inl hk
    · refine .inr ⟨hk, fun hf => ?_⟩
      obtain ⟨q, hq, hqk⟩ := hd.2 hf
      rw [parentOf_eq h.toArena hpm hpar, Option.some.injEq] at hq
      rw [hq, hqk] at hk
      cases hk
    · exact absurd hm hd.1
  refine ⟨p, hpm, hpi ▸ hlt, ⟨?_, ?_⟩, ?_⟩
  · rcases hkinds with hk | ⟨hk, -⟩ <;> rw [hk] <;> nofun
  · rcases hkinds with hk | ⟨hk, -⟩ <;> rw [hk] <;> nofun
  · rw [innerNodes, if_pos (hkinds.imp_right And.left), nestedNodes, List.mem_filter]
    refine ⟨(h.mem_childrenOf hpm).mpr ⟨hn, hpar⟩, ?_⟩
    rcases hkinds with hk | ⟨-, hf⟩
    · simp [hk]
    · simp [hf]

/-- Every documented node lies within the root. -/
theorem within_root (h : g.Formed) {root : Node} (hr : g.node? 0 = some root) :
    ∀ (i : Nat) {n : Node}, n.index = i → n ∈ g.nodes → Documented g n → Within g root n := by
  intro i
  induction i using Nat.strongRecOn with
  | ind i ih =>
    intro n hi hn hd
    by_cases h0 : n.index = 0
    · have hnode := h.node?_of_mem hn
      rw [h0, hr, Option.some.injEq] at hnode
      exact hnode ▸ .refl
    · obtain ⟨p, hp, hlt, hpd, hin⟩ := mem_innerNodes_parent h hn hd h0
      exact (ih p.index (hi ▸ hlt) rfl hp hpd).tail hin

/-! ## The document -/

/-- A documented node has a document. -/
theorem nodeJson_exists (h : g.Formed) : ∀ {fuel : Nat} {n : Node}, n ∈ g.nodes → Documented g n →
    g.nodes.length < n.index + fuel → ∃ j, nodeJson g fuel n = .ok j
  | 0, n, hn, _, hf => by
    have := h.lt_length hn
    omega
  | fuel + 1, n, hn, hd, hf => by
    obtain ⟨entries, he⟩ : ∃ entries, Documents g fuel (innerNodes g n) entries := by
      refine forall₂_exists fun c hc => ?_
      obtain ⟨hcm, hpar, hcd⟩ := mem_innerNodes h hn hc
      have := h.parent_lt hcm hpar
      obtain ⟨j, hj⟩ := nodeJson_exists h hcm hcd (by omega : g.nodes.length < c.index + fuel)
      exact ⟨(c.name, j), rfl, hj⟩
    exact ⟨_, (nodeJson_eq_ok hd.1).mpr ⟨entries, he, rfl⟩⟩

/-! ## The index -/

/-- A documented node as it is read. -/
def rawObject (g : Graph) (n : Node) : Object :=
  let parent := ((g.parentOf n).map (·.fullName)).getD ""
  ⟨n.name, n.fullName, parent, (innerNodes g n).map (·.name), rawBody g parent n⟩

/-- The index has the node as what it is. -/
def Sees (g : Graph) (index : List (String × Object)) (n : Node) : Prop :=
  index.lookup n.fullName = some (rawObject g n)

/-- The index has documented nodes only, each as what it is. -/
def Sound (g : Graph) (index : List (String × Object)) : Prop :=
  ∀ e ∈ index, ∃ n ∈ g.nodes, n.index ≠ 0 ∧ Documented g n ∧ e = (n.fullName, rawObject g n)

/-- One index grew out of another. -/
structure Extends (g : Graph) (index' index : List (String × Object)) : Prop where
  sound : Sound g index → Sound g index'
  sees : ∀ {m}, m ∈ g.nodes → Sees g index m → Sees g index' m

namespace Extends

variable {index index' index'' : List (String × Object)}

theorem refl (g : Graph) (index : List (String × Object)) : Extends g index index := ⟨id, fun _ h => h⟩

theorem trans (h₁ : Extends g index'' index') (h₂ : Extends g index' index) : Extends g index'' index :=
  ⟨h₁.sound ∘ h₂.sound, fun hm hs => h₁.sees hm (h₂.sees hm hs)⟩

/-- A node is entered under its own name, which no other node has. -/
theorem put (h : g.Arena) (hn : n ∈ g.nodes) (h0 : n.index ≠ 0) (hd : Documented g n) :
    Extends g (Entries.put (· == ·) n.fullName (rawObject g n) index) index where
  sound hs e he := by
    rcases Entries.mem_put he with rfl | he
    · exact ⟨n, hn, h0, hd, rfl⟩
    · exact hs e he
  sees {m} hm hs := by
    rw [Sees, Entries.lookup_put]
    split
    next he => rw [h.unique hm hn he]
    next => exact hs

end Extends

/-- A node without a parent name of its own keeps that of the node above it. -/
theorem rawObject_eq (h : g.Formed) {c : Node} (hn : n ∈ g.nodes) (hp : c.parent = some n.index) :
    rawObject g c = ⟨c.name, c.fullName, n.fullName, (innerNodes g c).map (·.name),
      rawBody g n.fullName c⟩ := by
  rw [rawObject, parentOf_eq h.toArena hn hp]
  rfl

theorem names_of_documents {fuel : Nat} {nodes : List Node} {entries : List (String × Json)}
    (h : Documents g fuel nodes entries) : entries.map (·.1) = nodes.map (·.name) :=
  map_eq_of_forall₂ (fun _ _ hd => hd.1) h

theorem sizeOfEntries_lt {key : String} {inner : List (String × Json)} : ∀ {entries : List (String × Json)},
    (key, Json.object inner) ∈ entries → sizeOfEntries inner < sizeOfEntries entries
  | e :: rest, h => by
    obtain ⟨k, j⟩ := e
    rcases List.mem_cons.mp h with h | h
    · cases h
      simp only [sizeOfEntries, sizeOfJson]
      omega
    · have := sizeOfEntries_lt h
      simp only [sizeOfEntries]
      omega

/-- The documents inside a document are smaller than it. -/
theorem sizeOfEntries_bodyJson {nested : List (String × Json)} (hk : n.kind = .package ∨ n.kind = .message) :
    sizeOfEntries nested < sizeOfJson (bodyJson g n nested) := by
  cases hb : n.body with
  | package =>
    simp only [bodyJson, hb, sizeOfJson, sizeOfEntries]
    omega
  | message dialect groups =>
    simp only [bodyJson, hb, sizeOfJson]
    cases nested with
    | nil => simp only [sizeOfEntries]; omega
    | cons e rest =>
      have hmem : ("nested", Json.object (e :: rest)) ∈ ("fields", Json.object (fieldsJson g n)) ::
          (if groups.isEmpty then [] else [("oneofs", oneofsJson groups)]) ++
          [("nested", Json.object (e :: rest))] := by simp
      exact Nat.lt_succ_of_lt (sizeOfEntries_lt hmem)
  | _ => simp [Node.kind, hb, Schema.Body.kind] at hk

/-- What the reader looks into after it has read a body. -/
def innerEntries (body : ObjectBody) (j : Json) : Reading (List (String × Json)) :=
  match body with
  | .enum _ | .extension _ => pure []
  | _ => entriesAt j "nested"

theorem innerEntries_bodyJson {k : Nat} {parent : String} {nested : List (String × Json)}
    (hk : n.kind ≠ .method) (hd : Documents g k (innerNodes g n) nested) :
    innerEntries (rawBody g parent n) (bodyJson g n nested) = .ok nested := by
  have hnone (h : innerNodes g n = []) : nested = [] := by
    rw [h] at hd
    exact List.forall₂_nil_left_iff.mp hd
  cases hb : n.body with
  | package =>
    rw [rawBody, hb]
    exact entriesAt_nested (.inl (by rw [Node.kind, hb]; rfl))
  | message dialect groups =>
    simp only [rawBody, hb]
    exact entriesAt_nested (.inr (by rw [Node.kind, hb]; rfl))
  | method m => exact absurd (by rw [Node.kind, hb]; rfl) hk
  | _ =>
    rw [hnone (if_neg (by simp [Node.kind, hb, Schema.Body.kind]))]
    simp only [rawBody, bodyJson, hb]
    rfl

theorem sizeOf_inner {k : Nat} {nested : List (String × Json)} (hd : Documents g k (innerNodes g n) nested) :
    sizeOfEntries nested ≤ sizeOfJson (bodyJson g n nested) := by
  by_cases hk : n.kind = .package ∨ n.kind = .message
  · exact Nat.le_of_lt (sizeOfEntries_bodyJson hk)
  · rw [innerNodes, if_neg hk] at hd
    rw [List.forall₂_nil_left_iff.mp hd]
    exact Nat.zero_le _

theorem readNested_nil (parent : String) (fuel : Nat) (index : List (String × Object)) :
    readNested parent fuel [] index = .ok index := by
  cases fuel <;> simp only [readNested]

theorem readNested_succ (parent name : String) (fuel : Nat) (j : Json) (rest : List (String × Json))
    (index : List (String × Object)) : readNested parent (fuel + 1) ((name, j) :: rest) index =
      readBody parent (innerName parent name) name j >>= fun body =>
      innerEntries body j >>= fun inner =>
      readNested (innerName parent name) fuel inner (Entries.put (· == ·) (innerName parent name)
        ⟨name, innerName parent name, parent, inner.map (·.1), body⟩ index) >>=
      readNested parent fuel rest := by
  rw [readNested]
  refine bind_congr fun body => ?_
  cases body <;> rfl

/-- One step of the reader: a node, then what stands inside it, then its later siblings. -/
theorem readNested_cons (h : g.Final) (hgroups : ∀ n ∈ g.nodes, (n.oneofs.map (·.name)).Nodup) {p c : Node}
    (hp : p ∈ g.nodes) (hc : c ∈ innerNodes g p) {fuel k : Nat} {nested es : List (String × Json)}
    {index index₁ index₂ : List (String × Object)} (hdocs : Documents g k (innerNodes g c) nested)
    (hinner : readNested c.fullName fuel nested
      (Entries.put (· == ·) c.fullName (rawObject g c) index) = .ok index₁)
    (hlater : readNested p.fullName fuel es index₁ = .ok index₂) :
    readNested p.fullName (fuel + 1) ((c.name, bodyJson g c nested) :: es) index = .ok index₂ := by
  obtain ⟨hcm, hpar, hcd⟩ := mem_innerNodes h.toFormed hp hc
  have hfull : innerName p.fullName c.name = c.fullName := (h.fullName_eq hcm hp hpar).symm
  -- A field that has a document of its own extends a message.
  have hext : ∀ f, c.body = .field f → f.extendee ≠ none := by
    intro f hb
    obtain ⟨q, hq, hqk⟩ := hcd.2 (by rw [Node.kind, hb]; rfl)
    rw [parentOf_eq h.toArena hp hpar, Option.some.injEq] at hq
    have hholds := h.placed hcm hp hpar
    rw [hq, hqk, hb] at hholds
    exact hholds.1
  have hbody := @readBody_bodyJson g c h hcm p.fullName hext hcd.1 (hgroups c hcm) nested
  have hobject : rawObject g c = ⟨c.name, c.fullName, p.fullName, nested.map (·.1),
      rawBody g p.fullName c⟩ := by
    rw [rawObject_eq h.toFormed hp hpar, names_of_documents hdocs]
  rw [readNested_succ, hfull]
  refine bind_ok_iff.mpr ⟨_, hbody, bind_ok_iff.mpr ⟨nested, innerEntries_bodyJson hcd.1 hdocs, ?_⟩⟩
  rw [← hobject]
  exact bind_ok_iff.mpr ⟨index₁, hinner, hlater⟩

/-- Reading the documents of nodes that stand inside `p` enters them and all within them. -/
theorem readNested_documents (h : g.Final) (hgroups : ∀ n ∈ g.nodes, (n.oneofs.map (·.name)).Nodup)
    (fuel : Nat) : ∀ {k : Nat} {p : Node} {nodes : List Node} {entries : List (String × Json)}
      {index : List (String × Object)}, p ∈ g.nodes → (∀ c ∈ nodes, c ∈ innerNodes g p) →
      Documents g k nodes entries → sizeOfEntries entries ≤ fuel →
      ∃ index', readNested p.fullName fuel entries index = .ok index' ∧ Extends g index' index ∧
        ∀ c ∈ nodes, ∀ m ∈ g.nodes, Within g c m → Sees g index' m := by
  induction fuel with
  | zero =>
    intro k p nodes entries index _ _ hdocs hs
    cases hdocs with
    | nil => exact ⟨index, readNested_nil _ _ index, .refl g index, fun _ hc => nomatch hc⟩
    | cons _ _ =>
      simp only [sizeOfEntries] at hs
      omega
  | succ fuel ih =>
    intro k p nodes entries index hp hin hdocs hs
    cases hdocs with
    | nil => exact ⟨index, readNested_nil _ _ index, .refl g index, fun _ hc => nomatch hc⟩
    | @cons c e rest es hfirst hrest =>
      obtain ⟨name, j⟩ := e
      obtain ⟨hname, hj⟩ := hfirst
      obtain rfl : name = c.name := hname
      have hc := hin c (by simp)
      obtain ⟨hcm, hpar, hcd⟩ := mem_innerNodes h.toFormed hp hc
      have h0 : c.index ≠ 0 := Nat.ne_of_gt (Nat.lt_of_le_of_lt (Nat.zero_le _) (h.parent_lt hcm hpar))
      cases k with
      | zero => cases hj
      | succ k =>
        obtain ⟨nested, hinner, rfl⟩ := (nodeJson_eq_ok hcd.1).mp hj
        simp only [sizeOfEntries] at hs
        have hsize := sizeOf_inner hinner
        obtain ⟨index₁, hread₁, hext₁, hsees₁⟩ := @ih _ c _ _
          (Entries.put (· == ·) c.fullName (rawObject g c) index) hcm (fun _ hd => hd) hinner (by omega)
        obtain ⟨index₂, hread₂, hext₂, hsees₂⟩ := @ih _ p _ _ index₁ hp (fun d hd => hin d (by simp [hd]))
          hrest (by omega)
        refine ⟨index₂, readNested_cons h hgroups hp hc hinner hread₁ hread₂,
          hext₂.trans (hext₁.trans (Extends.put h.toArena hcm h0 hcd)), ?_⟩
        intro d hd m hm hw
        rcases List.mem_cons.mp hd with rfl | hd
        · rcases hw.cases_head with rfl | ⟨d', hd', hw'⟩
          · refine hext₂.sees hm (hext₁.sees hm ?_)
            rw [Sees, Entries.lookup_put, if_pos rfl]
          · exact hext₂.sees hm (hsees₁ d' hd' m hm hw')
        · exact hsees₂ d hd m hm hw

/-- **The document of a graph exists, and the reader enters exactly the documented nodes.** -/
theorem document_read (h : g.Final) (hgroups : ∀ n ∈ g.nodes, (n.oneofs.map (·.name)).Nodup) :
    ∃ d nested index, document g = .ok d ∧ entriesAt d "nested" = .ok nested ∧
      readNested "" (sizeOfJson d + 1) nested [] = .ok index ∧ Sound g index ∧
      ∀ n ∈ g.nodes, n.index ≠ 0 → Documented g n → Sees g index n := by
  obtain ⟨root, hroot, hkind, -, hname⟩ := h.root
  have hrm : root ∈ g.nodes := List.mem_of_getElem? hroot
  have hrd : Documented g root := ⟨by rw [hkind]; nofun, by rw [hkind]; nofun⟩
  obtain ⟨d, hd⟩ := nodeJson_exists h.toFormed hrm hrd (by omega : g.nodes.length < root.index + (g.nodes.length + 1))
  obtain ⟨nested, hdocs, rfl⟩ := (nodeJson_eq_ok hrd.1).mp hd
  obtain ⟨index, hread, hext, hsees⟩ := @readNested_documents g h hgroups
    (sizeOfJson (bodyJson g root nested) + 1) _ root _ _ [] hrm (fun _ hc => hc) hdocs
    (Nat.le_succ_of_le (sizeOf_inner hdocs))
  rw [hname] at hread
  refine ⟨bodyJson g root nested, nested, index, ?_, entriesAt_nested (.inl hkind), hread,
    hext.sound (fun _ he => by cases he), fun n hn h0 hnd => ?_⟩
  · rw [document, hroot]
    exact hd
  · have hw := within_root h.toFormed hroot n.index rfl hn hnd
    rcases hw.cases_head with he | ⟨c, hc, hw⟩
    · exact absurd (he ▸ h.index hroot) h0
    · exact hsees c hc n hn hw

end ProtoBind.Reflection
