/-
Full names and what stands before their dots.

The full name of a node is that of its parent, a dot and a name that has no
dots. So what stands before a dot of a full name is a full name as well: the
full names of a graph are closed under dotted prefixes (`Named.declared`).
-/
import ProtoBind.Proofs.Schema.Arena
import ProtoBind.Proofs.Source.Names

namespace ProtoBind.Schema.Graph

open Source (Plain)

/-! ## Names of children -/

theorem toList_childName (p a : String) :
    (childName p a).toList = if p = "" then a.toList else p.toList ++ '.' :: a.toList := by
  unfold childName
  by_cases hp : p = "" <;> simp [hp]

theorem childName_empty (a : String) : childName "" a = a := by simp [childName]

theorem childName_of_ne {p : String} (hp : p ≠ "") (a : String) : childName p a = p ++ "." ++ a := by
  simp [childName, hp]

theorem childName_ne_of_ne {s : String} (hs : s ≠ "") (part : String) : childName s part ≠ "" := by
  rw [childName_of_ne hs]
  exact fun he => absurd (congrArg String.toList he) (by simp)

theorem childName_ne {part : String} (s : String) (hpart : part ≠ "") : childName s part ≠ "" := by
  by_cases hs : s = ""
  · rwa [hs, childName_empty]
  · exact childName_ne_of_ne hs part

theorem takeWhile_reverse_childName {p a : String} (ha : Plain a) :
    (childName p a).toList.reverse.takeWhile (· != '.') = a.toList.reverse := by
  have hall : ∀ c ∈ a.toList.reverse, (c != '.') = true := by
    intro c hc
    simpa using fun he : c = '.' => ha (he ▸ List.mem_reverse.mp hc)
  rw [toList_childName]
  split
  · have htake := @List.takeWhile_append_of_pos _ (· != '.') a.toList.reverse [] hall
    simpa using htake
  · rw [List.reverse_append, List.reverse_cons, List.append_assoc, List.takeWhile_append_of_pos hall]
    simp

/-- The last part of a full name is the name. -/
theorem childName_right {p q a b : String} (ha : Plain a) (hb : Plain b) (h : childName p a = childName q b) :
    a = b := by
  have hlast := takeWhile_reverse_childName (p := p) ha
  rw [h, takeWhile_reverse_childName hb, List.reverse_inj, String.toList_inj] at hlast
  exact hlast.symm

/-- What stands before the name is the name of the parent. -/
theorem childName_left {p q a : String} (h : childName p a = childName q a) : p = q := by
  have hlist := congrArg String.toList h
  rw [toList_childName, toList_childName] at hlist
  by_cases hp : p = "" <;> by_cases hq : q = ""
  · rw [hp, hq]
  · have hlen := congrArg List.length hlist
    simp only [hp, hq, if_true, if_false, List.length_append, List.length_cons] at hlen
    omega
  · have hlen := congrArg List.length hlist
    simp only [hp, hq, if_true, if_false, List.length_append, List.length_cons] at hlen
    omega
  · simp only [hp, hq, if_false, List.append_cancel_right_eq] at hlist
    exact String.toList_inj.mp hlist

/-! ## Dotted prefixes -/

/-- A name, or what stands before one of its dots. -/
def DottedPrefix (q name : String) : Prop := q = name ∨ ∃ rest, name = q ++ "." ++ rest

theorem DottedPrefix.childName {q name : String} (h : DottedPrefix q name) (s : String) :
    DottedPrefix (childName s q) (childName s name) := by
  obtain rfl | ⟨rest, rfl⟩ := h
  · exact .inl rfl
  · refine .inr ⟨rest, ?_⟩
    by_cases hs : s = ""
    · rw [hs, childName_empty, childName_empty]
    · rw [childName_of_ne hs, childName_of_ne hs]
      simp only [String.append_assoc]

/-- A dotted prefix of the parent's full name is one of the child's. -/
theorem DottedPrefix.child {q p : String} (h : DottedPrefix q p) (hq : q ≠ "") (a : String) :
    DottedPrefix q (Graph.childName p a) := by
  obtain rfl | ⟨rest, rfl⟩ := h
  · exact .inr ⟨a, childName_of_ne hq a⟩
  · have hne : q ++ "." ++ rest ≠ "" := childName_of_ne hq rest ▸ childName_ne_of_ne hq rest
    refine .inr ⟨rest ++ "." ++ a, ?_⟩
    rw [childName_of_ne hne]
    simp only [String.append_assoc]

/-- The first part of a name. -/
theorem dottedPrefix_first (name : String) :
    DottedPrefix (String.ofList (name.toList.takeWhile (· != '.'))) name := by
  have hsplit := List.takeWhile_append_dropWhile (p := (· != '.')) (l := name.toList)
  cases hrest : name.toList.dropWhile (· != '.') with
  | nil =>
    rw [hrest, List.append_nil] at hsplit
    exact .inl (by rw [hsplit, String.ofList_toList])
  | cons c rest =>
    obtain rfl : c = '.' := by
      have hhead := List.head?_dropWhile_not (· != '.') name.toList
      rw [hrest] at hhead
      simpa using hhead
    refine .inr ⟨String.ofList rest, String.toList_inj.mp ?_⟩
    rw [hrest] at hsplit
    simpa using hsplit.symm

/-- A dotted prefix of a child's full name is all of it or one of the parent's. -/
theorem DottedPrefix.of_childName {q p a : String} (ha : Plain a) (h : DottedPrefix q (Graph.childName p a)) :
    q = Graph.childName p a ∨ DottedPrefix q p := by
  obtain h | ⟨rest, hrest⟩ := h
  · exact .inl h
  · right
    have hlist := congrArg String.toList hrest
    rw [toList_childName] at hlist
    by_cases hp : p = ""
    · rw [if_pos hp] at hlist
      exact absurd (hlist ▸ by simp : '.' ∈ a.toList) ha
    · simp only [hp, if_false, String.toList_append, String.reduceToList, List.append_assoc,
        List.singleton_append] at hlist
      obtain ⟨more, hq, hmore⟩ | ⟨more, hp', hmore⟩ := List.append_eq_append_iff.mp hlist
      · cases more with
        | nil => exact .inl (String.toList_inj.mp (by simpa using hq))
        | cons c more =>
          -- The name after the last dot would have a dot.
          obtain ⟨rfl, htail⟩ := List.cons.inj hmore
          exact absurd (htail ▸ by simp : '.' ∈ a.toList) ha
      · cases more with
        | nil => exact .inl (String.toList_inj.mp (by simpa using hp'.symm))
        | cons c more =>
          obtain ⟨rfl, -⟩ := List.cons.inj hmore
          exact .inr ⟨String.ofList more, String.toList_inj.mp (by simpa using hp')⟩

/-- A graph whose nodes have names without dots. -/
structure Named (g : Graph) : Prop extends g.Arena where
  plain : ∀ n ∈ g.nodes, Plain n.name

/-- **The full names of a graph are closed under dotted prefixes.** -/
theorem Named.declared {g : Graph} (h : g.Named) {q : String} (i : Nat) : ∀ {n : Node}, g.node? i = some n →
    DottedPrefix q n.fullName → ∃ m ∈ g.nodes, m.fullName = q := by
  induction i using Nat.strongRecOn with
  | ind i ih =>
    intro n hn hq
    by_cases h0 : i = 0
    · obtain ⟨root, hroot, -, -, hempty⟩ := h.root
      obtain rfl : root = n := by
        rw [h0, hroot] at hn
        exact Option.some.inj hn
      obtain rfl | ⟨rest, hrest⟩ := hq
      · exact ⟨root, List.mem_of_getElem? hroot, rfl⟩
      · rw [hempty] at hrest
        exact absurd (congrArg String.toList hrest) (by simp)
    · obtain ⟨p, pn, -, hlt, hpn, hname⟩ := h.parent hn h0
      rw [hname] at hq
      obtain rfl | hq := hq.of_childName (h.plain n (List.mem_of_getElem? hn))
      · exact ⟨n, List.mem_of_getElem? hn, hname⟩
      · exact ih p hlt hpn hq

end ProtoBind.Schema.Graph
