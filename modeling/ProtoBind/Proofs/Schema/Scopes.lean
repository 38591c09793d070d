/-
What names mean in a well-formed graph.

Only messages and enums are ever meant. A name is looked for in a scope and
then in the scopes around it, and means what it finds first (`Meant`). The
search leaves out the scopes that do not have the first part of the name; since
all that stands before the dots of a full name is declared, nothing is missed
(`resolve_eq_iff`). The search ends at the root, so a name that is the full
name of a type is never left without a meaning (`resolve_isSome`).
-/
import ProtoBind.Proofs.Schema.Formed
import ProtoBind.Proofs.Schema.History
import ProtoBind.Proofs.Schema.Prefixes

namespace ProtoBind.Schema

open Source (Plain)

/-- The node is a message or an enum. -/
def Node.IsType (n : Node) : Prop := n.kind = .message ∨ n.kind = .enum

/-- A name without the dot that makes it absolute. -/
def bareName (name : String) : String :=
  match name.toList with
  | '.' :: rest => String.ofList rest
  | _ => name

theorem bareName_dot (name : String) : bareName ("." ++ name) = name := by
  simp [bareName]

/-- The name does not begin with a dot. -/
def Relative (name : String) : Prop := name.toList.head? ≠ some '.'

instance (name : String) : Decidable (Relative name) := inferInstanceAs (Decidable (_ ≠ _))

theorem bareName_relative {name : String} (h : Relative name) : bareName name = name := by
  unfold bareName
  split
  next rest hdot => exact absurd (by rw [hdot]; rfl) h
  next => rfl

namespace Graph

variable {g : Graph}

theorem Shaped.named (h : g.Shaped) : g.Named := ⟨h.toArena, h.plain⟩

theorem typeNamed?_eq_some (h : g.Arena) {name : String} {i : Nat} :
    g.typeNamed? name = some i ↔ ∃ n, g.node? i = some n ∧ n.fullName = name ∧ n.IsType := by
  unfold typeNamed?
  constructor
  · intro ht
    cases hf : g.find? name with
    | none => simp [hf] at ht
    | some j =>
      obtain ⟨n, hn, hname⟩ := h.names.mp hf
      simp only [hf, hn, Option.ite_none_right_eq_some, Option.some.injEq] at ht
      obtain ⟨hk, rfl⟩ := ht
      exact ⟨n, hn, hname, hk⟩
  · rintro ⟨n, hn, hname, hk⟩
    simp only [h.names.mpr ⟨n, hn, hname⟩, hn]
    exact if_pos hk

theorem searchScopes_type (h : g.Arena) {name first : String} {i : Nat} : ∀ {fuel : Nat} {scope : Option Nat},
    g.searchScopes name first fuel scope = some i → ∃ n, g.node? i = some n ∧ n.IsType
  | 0, _, hs => by cases hs
  | _ + 1, none, hs => by cases hs
  | fuel + 1, some j, hs => by
    rw [searchScopes] at hs
    cases hn : g.node? j with
    | none => simp [hn] at hs
    | some n =>
      simp only [hn] at hs
      split at hs
      next k hfound =>
        cases hs
        split at hfound
        · obtain ⟨m, hm, -, hk⟩ := (typeNamed?_eq_some h).mp hfound
          exact ⟨m, hm, hk⟩
        · cases hfound
      next => exact searchScopes_type h hs

/-- Names mean messages and enums only. -/
theorem resolve_type (h : g.Arena) {name : String} {scope : Option Nat} {i : Nat}
    (hr : g.resolve name scope = some i) : ∃ n, g.node? i = some n ∧ n.IsType := by
  unfold resolve at hr
  split at hr
  · obtain ⟨n, hn, -, hk⟩ := (typeNamed?_eq_some h).mp hr
    exact ⟨n, hn, hk⟩
  · exact searchScopes_type h hr

/-! ## Meanings -/

/-- A message or an enum with the full name. -/
structure TypeAt (g : Graph) (fullName : String) (t : Node) : Prop where
  mem : t ∈ g.nodes
  fullName : t.fullName = fullName
  type : t.IsType

/-- The scopes around a node, the innermost first: the node itself, its parent and so on up to the root. -/
inductive Scopes (g : Graph) : Nat → List Node → Prop
  | outermost {i : Nat} {n : Node} : g.node? i = some n → n.parent = none → Scopes g i [n]
  | inside {i p : Nat} {n : Node} {scopes : List Node} : g.node? i = some n → n.parent = some p →
    Scopes g p scopes → Scopes g i (n :: scopes)

/-- What a name means at a node: with a leading dot the type of the full name behind it, and else the type that has
the name in the innermost scope in which there is one. -/
inductive Meant (g : Graph) (i : Nat) : String → Option Nat → Prop
  | absolute {name : String} {t : Node} : g.TypeAt name t → Meant g i ("." ++ name) (some t.index)
  | undeclared {name : String} : (∀ t, ¬ g.TypeAt name t) → Meant g i ("." ++ name) none
  | innermost {name : String} {inner outer : List Node} {scope t : Node} : Relative name →
    g.Scopes i (inner ++ scope :: outer) → g.TypeAt (childName scope.fullName name) t →
    (∀ s ∈ inner, ∀ t, ¬ g.TypeAt (childName s.fullName name) t) → Meant g i name (some t.index)
  | unknown {name : String} {scopes : List Node} : Relative name → g.Scopes i scopes →
    (∀ s ∈ scopes, ∀ t, ¬ g.TypeAt (childName s.fullName name) t) → Meant g i name none

section Meant

variable {name first : String} {i : Nat} {scopes : List Node} {target : Option Nat}

theorem typeNamed?_iff (h : g.Arena) : g.typeNamed? name = some i ↔ ∃ t, g.TypeAt name t ∧ t.index = i := by
  rw [typeNamed?_eq_some h]
  constructor
  · rintro ⟨n, hn, hname, hk⟩
    exact ⟨n, ⟨List.mem_of_getElem? hn, hname, hk⟩, h.index hn⟩
  · rintro ⟨t, ht, rfl⟩
    exact ⟨t, h.node?_of_mem ht.mem, ht.fullName, ht.type⟩

theorem typeNamed?_eq_none (h : g.Arena) : g.typeNamed? name = none ↔ ∀ t, ¬ g.TypeAt name t := by
  rw [Option.eq_none_iff_forall_ne_some]
  constructor
  · exact fun hnone t ht => hnone t.index ((typeNamed?_iff h).mpr ⟨t, ht, rfl⟩)
  · rintro hnone i hi
    obtain ⟨t, ht, -⟩ := (typeNamed?_iff h).mp hi
    exact hnone t ht

/-- Every node has scopes around it. -/
theorem Arena.exists_scopes (h : g.Arena) (i : Nat) : ∀ {n : Node}, g.node? i = some n → ∃ scopes, g.Scopes i scopes := by
  induction i using Nat.strongRecOn with
  | ind i ih =>
    intro n hn
    cases hp : n.parent with
    | none => exact ⟨[n], .outermost hn hp⟩
    | some p =>
      have hlt : p < i := h.index hn ▸ h.parent_lt (List.mem_of_getElem? hn) hp
      obtain ⟨pn, hpn⟩ : ∃ pn, g.node? p = some pn := ⟨_, List.getElem?_eq_getElem (Nat.lt_trans hlt (lt_of_node? hn))⟩
      obtain ⟨scopes, hscopes⟩ := ih p hlt hpn
      exact ⟨n :: scopes, .inside hn hp hscopes⟩

/-- The root is the outermost scope. -/
theorem Scopes.root (hs : g.Scopes i scopes) (h : g.Arena) : ∃ r ∈ scopes, r.fullName = "" := by
  induction hs with
  | @outermost i n hn hp =>
    refine ⟨n, List.mem_singleton_self n, (h.fullName_empty hn).mpr ?_⟩
    by_contra h0
    obtain ⟨p, -, hparent, -⟩ := h.parent hn h0
    rw [hp] at hparent
    cases hparent
  | inside _ _ _ ih =>
    obtain ⟨r, hr, hempty⟩ := ih
    exact ⟨r, List.mem_cons_of_mem _ hr, hempty⟩

/-- A scope without the first part of a name has no type of the name: with a full name all that stands before its dots
is declared. -/
theorem typeNamed?_pruned (h : g.Named) (s name : String) :
    (if (g.find? (childName s (String.ofList (name.toList.takeWhile (· != '.'))))).isSome then
      g.typeNamed? (childName s name) else none) = g.typeNamed? (childName s name) := by
  split
  next => rfl
  next hfirst =>
    refine ((typeNamed?_eq_none h.toArena).mpr fun t ht => hfirst ?_).symm
    have hprefix := (dottedPrefix_first name).childName s
    rw [← ht.fullName] at hprefix
    obtain ⟨m, hm, hname⟩ := h.declared t.index (h.node?_of_mem ht.mem) hprefix
    exact Option.isSome_of_eq_some (hname ▸ h.find?_fullName hm)

/-- The search goes through the scopes and takes the first type. -/
theorem searchScopes_eq (h : g.Named) (hs : g.Scopes i scopes) : ∀ {fuel : Nat}, i < fuel →
    g.searchScopes name (String.ofList (name.toList.takeWhile (· != '.'))) fuel (some i) =
      scopes.findSome? fun s => g.typeNamed? (childName s.fullName name) := by
  induction hs with
  | @outermost i n hn hp =>
    intro fuel hfuel
    obtain ⟨fuel, rfl⟩ : ∃ k, fuel = k + 1 := ⟨fuel - 1, by omega⟩
    have hnone (k : Nat) (first : String) : g.searchScopes name first k none = none := by cases k <;> rfl
    simp only [searchScopes, hn, typeNamed?_pruned h, hp, hnone, List.findSome?_cons, List.findSome?_nil]
    cases g.typeNamed? (childName n.fullName name) <;> rfl
  | @inside i p n scopes hn hp _ ih =>
    intro fuel hfuel
    obtain ⟨fuel, rfl⟩ : ∃ k, fuel = k + 1 := ⟨fuel - 1, by omega⟩
    have hlt : p < i := h.index hn ▸ h.parent_lt (List.mem_of_getElem? hn) hp
    simp only [searchScopes, hn, typeNamed?_pruned h, hp, List.findSome?_cons]
    rw [ih (by omega)]
    cases g.typeNamed? (childName n.fullName name) <;> rfl

theorem resolve_dot (name : String) (scope : Option Nat) : g.resolve ("." ++ name) scope = g.typeNamed? name := by
  simp [resolve]

theorem resolve_relative (h : g.Named) (hname : Relative name) (hs : g.Scopes i scopes) :
    g.resolve name (some i) = scopes.findSome? fun s => g.typeNamed? (childName s.fullName name) := by
  have hi : i < g.nodes.length + 1 := by
    cases hs with
    | outermost hn _ | inside hn _ _ => exact Nat.lt_succ_of_lt (lt_of_node? hn)
  rw [← searchScopes_eq h hs hi, resolve]
  split
  next rest hdot => exact absurd (by rw [hdot]; rfl) hname
  next => rfl

/-- A name begins with a dot, or it is relative. -/
theorem dot_or_relative (name : String) : (∃ rest, name = "." ++ rest) ∨ Relative name := by
  cases hl : name.toList with
  | nil => exact .inr (by simp [Relative, hl])
  | cons c rest =>
    by_cases hc : c = '.'
    · exact .inl ⟨String.ofList rest, String.toList_inj.mp (by simp [hl, hc])⟩
    · exact .inr (by simpa [Relative, hl] using hc)

/-- **Names are looked for in the innermost scope first**, whatever the search leaves out. -/
theorem resolve_eq_iff (h : g.Named) (hi : i < g.nodes.length) :
    g.resolve name (some i) = target ↔ g.Meant i name target := by
  constructor
  · rintro rfl
    obtain ⟨rest, rfl⟩ | hrel := dot_or_relative name
    · rw [resolve_dot]
      cases ht : g.typeNamed? rest with
      | none => exact .undeclared ((typeNamed?_eq_none h.toArena).mp ht)
      | some j =>
        obtain ⟨t, htype, rfl⟩ := (typeNamed?_iff h.toArena).mp ht
        exact .absolute htype
    · obtain ⟨scopes, hs⟩ := h.exists_scopes i (List.getElem?_eq_getElem hi)
      rw [resolve_relative h hrel hs]
      cases hfound : scopes.findSome? fun s => g.typeNamed? (childName s.fullName name) with
      | none =>
        rw [List.findSome?_eq_none_iff] at hfound
        exact .unknown hrel hs fun s hs => (typeNamed?_eq_none h.toArena).mp (hfound s hs)
      | some j =>
        obtain ⟨inner, scope, outer, rfl, ht, hinner⟩ := List.findSome?_eq_some_iff.mp hfound
        obtain ⟨t, htype, rfl⟩ := (typeNamed?_iff h.toArena).mp ht
        exact .innermost hrel hs htype fun s hs => (typeNamed?_eq_none h.toArena).mp (hinner s hs)
  · intro hm
    cases hm with
    | absolute ht => rw [resolve_dot, (typeNamed?_iff h.toArena).mpr ⟨_, ht, rfl⟩]
    | undeclared hnone => rw [resolve_dot, (typeNamed?_eq_none h.toArena).mpr hnone]
    | innermost hrel hs ht hinner =>
      rw [resolve_relative h hrel hs, List.findSome?_eq_some_iff]
      exact ⟨_, _, _, rfl, (typeNamed?_iff h.toArena).mpr ⟨_, ht, rfl⟩,
        fun s hs => (typeNamed?_eq_none h.toArena).mpr (hinner s hs)⟩
    | unknown hrel hs hnone =>
      rw [resolve_relative h hrel hs, List.findSome?_eq_none_iff]
      exact fun s hs => (typeNamed?_eq_none h.toArena).mpr (hnone s hs)

end Meant

/-- **A name that is the full name of a type has a meaning everywhere.** -/
theorem resolve_isSome (h : g.Shaped) {name : String} {scope : Nat} {n p : Node} (hn : n ∈ g.nodes)
    (hk : n.IsType) (hname : n.fullName = bareName name) (hp : g.node? scope = some p) :
    (g.resolve name (some scope)).isSome := by
  cases hr : g.resolve name (some scope) with
  | some i => rfl
  | none =>
    -- The root is one of the scopes, and there the name means the type.
    cases (resolve_eq_iff h.named (lt_of_node? hp)).mp hr with
    | undeclared hnone => exact absurd ⟨hn, hname.trans (bareName_dot _), hk⟩ (hnone n)
    | unknown hrel hs hnone =>
      obtain ⟨r, hr, hempty⟩ := hs.root h.toArena
      refine absurd ⟨hn, ?_, hk⟩ (hnone r hr n)
      rw [hname, hempty, childName_empty, bareName_relative hrel]

end Graph
end ProtoBind.Schema
