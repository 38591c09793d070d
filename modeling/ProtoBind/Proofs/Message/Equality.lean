/-
Values that are equal.

`Library.Equals a b` says that `a` is equal to `b` under any depth that `a`
allows; a container inherits it from what it holds. It is what a round trip
gives back: the same value up to the kinds of its numbers, the order in which
groups were set, and the places of its messages.
-/
import Mathlib.Tactic.Tauto
import ProtoBind.Message.Equal
import ProtoBind.Proofs.Results

namespace ProtoBind

namespace Value

/-- The value holds no others. -/
def Flat : Value → Prop
  | .list _ | .dict _ | .message _ _ _ _ => False
  | _ => True

theorem Flat.depth {v : Value} (h : v.Flat) : v.depth = 0 := by
  cases v <;> first | rfl | cases h

theorem depth_mem {v : Value} : ∀ {items : List Value}, v ∈ items → v.depth ≤ depthAll items
  | w :: rest, h => by
    rw [depthAll]
    rcases List.mem_cons.mp h with rfl | h
    · exact Nat.le_max_left _ _
    · exact Nat.le_trans (depth_mem h) (Nat.le_max_right _ _)

theorem depth_entry {k v : Value} : ∀ {entries : List (Value × Value)}, (k, v) ∈ entries →
    v.depth ≤ depthEntries entries
  | (k', v') :: rest, h => by
    rw [depthEntries]
    rcases List.mem_cons.mp h with h | h
    · cases h
      exact Nat.le_trans (Nat.le_max_right _ _) (Nat.le_max_left _ _)
    · exact Nat.le_trans (depth_entry h) (Nat.le_max_right _ _)

theorem depth_attr {attr : String} {v : Value} : ∀ {attrs : List (String × Value)},
    attrs.lookup attr = some v → v.depth ≤ depthAttrs attrs
  | (a, w) :: rest, h => by
    rw [depthAttrs]
    rw [List.lookup_cons] at h
    split at h
    · cases h
      exact Nat.le_max_left _ _
    · exact Nat.le_trans (depth_attr h) (Nat.le_max_right _ _)

theorem depth_choice {group member : String} {v : Value} : ∀ {choices : List (String × String × Value)},
    choices.lookup group = some (member, v) → v.depth ≤ depthChoices choices
  | (g, a, w) :: rest, h => by
    rw [depthChoices]
    rw [List.lookup_cons] at h
    split at h
    · cases h
      exact Nat.le_max_left _ _
    · exact Nat.le_trans (depth_choice h) (Nat.le_max_right _ _)

theorem numberEqual_comm (a b : Value) : a.numberEqual b = b.numberEqual a := by
  have hfloat (x y : Binary64) : x.equal y = y.equal x := by
    rw [Bool.eq_iff_iff]
    simp only [Binary64.equal, Bool.and_eq_true, Bool.or_eq_true, beq_iff_eq, @eq_comm _ x y]
    tauto
  cases a <;> cases b <;> simp [numberEqual, integer?, hfloat, @eq_comm Int]

theorem sameKey_comm (a b : Value) : a.sameKey b = b.sameKey a := by
  have hnumber := numberEqual_comm a b
  cases a <;> cases b <;> simp_all [sameKey, string?, eq_comm]

end Value

namespace Message.Library

variable {lib : Library}

/-- The first value is equal to the second, under any depth that it allows. -/
def Equals (lib : Library) (a b : Value) : Prop :=
  ∀ fuel, a.depth ≤ fuel → lib.equalUpTo fuel false a b = true

namespace Equals

theorem equal {a b : Value} (h : lib.Equals a b) : lib.equal a b = true := h _ (Nat.le_refl _)

theorem flat {a b : Value} (hb : b.Flat) (h : a.sameKey b = true) : lib.Equals a b := by
  intro fuel _
  cases fuel with
  | zero => exact h
  | succ fuel => cases b <;> first | (cases hb; done) | (cases a <;> exact h)

theorem list {xs ys : List Value} (h : List.Forall₂ lib.Equals xs ys) :
    lib.Equals (.list xs) (.list ys) := by
  intro fuel hf
  rw [Value.depth] at hf
  obtain ⟨fuel, rfl⟩ : ∃ k, fuel = k + 1 := ⟨fuel - 1, by omega⟩
  simp only [equalUpTo, Bool.false_or, Bool.and_eq_true, beq_iff_eq, List.all_eq_true]
  refine ⟨h.length_eq, fun ⟨x, y⟩ hxy => ?_⟩
  have hx := Value.depth_mem (List.of_mem_zip hxy).1
  rw [List.forall₂_zip h hxy fuel (by omega), Bool.or_true]

/-- A key of a mapping finds its own value. -/
theorem get?_of_mem {k v : Value} (hk : k.sameKey k = true) : ∀ {entries : List (Value × Value)},
    entries.Pairwise (fun x y => x.1.sameKey y.1 = false) → (k, v) ∈ entries →
    Entries.get? Value.sameKey k entries = some v
  | e :: rest, hp, hm => by
    rw [List.pairwise_cons] at hp
    rcases List.mem_cons.mp hm with rfl | hm
    · simp [Entries.get?, hk]
    · simpa [Entries.get?, List.find?_cons, hp.1 (k, v) hm] using get?_of_mem hk hp.2 hm

theorem dict {xs ys : List (Value × Value)}
    (h : List.Forall₂ (fun x y => x.1 = y.1 ∧ lib.Equals x.2 y.2) xs ys)
    (hkeys : ys.Pairwise fun x y => x.1.sameKey y.1 = false) (hself : ∀ y ∈ ys, y.1.sameKey y.1 = true) :
    lib.Equals (.dict xs) (.dict ys) := by
  intro fuel hf
  rw [Value.depth] at hf
  obtain ⟨fuel, rfl⟩ : ∃ k, fuel = k + 1 := ⟨fuel - 1, by omega⟩
  simp only [equalUpTo, Bool.false_or, Bool.and_eq_true, beq_iff_eq, List.all_eq_true]
  refine ⟨h.length_eq, fun ⟨k, x⟩ hx => ?_⟩
  obtain ⟨⟨k', y⟩, hy, hk, he⟩ := forall₂_mem h hx
  obtain rfl : k = k' := hk
  have hd := Value.depth_entry hx
  have he : lib.Equals x y := he
  simp only [get?_of_mem (hself _ hy) hkeys hy, he fuel (by omega), Bool.or_true]

/-- Values that are equal are so also as what one container holds. -/
theorem within {a b : Value} (h : lib.Equals a b) {fuel : Nat} (hf : a.depth ≤ fuel) (same : Bool) :
    lib.equalUpTo fuel same a b = true := by
  have h := h fuel hf
  cases same with
  | false => exact h
  | true =>
    cases fuel with
    | zero => exact h
    | succ fuel =>
      cases a <;> cases b <;> first | exact h | rfl

/-- Messages of one class are equal when they have the same members set and agree on the present
fields. -/
theorem message {c : MessageClass} {m n : Instance} (hc : lib.message? m.type = some c)
    (htype : m.type = n.type) (hchoices : sameChoices m n = true)
    (hfields : ∀ f ∈ c.present m, ∃ x y, c.get m f.attr = .ok x ∧ c.get n f.attr = .ok y ∧
      x.depth < m.value.depth ∧ lib.Equals x y) : lib.Equals m.value n.value := by
  intro fuel hf
  have hpos : 0 < m.value.depth := Nat.succ_pos _
  obtain ⟨fuel, rfl⟩ : ∃ k, fuel = k + 1 := ⟨fuel - 1, by omega⟩
  obtain ⟨home, type, attrs, choices⟩ := m
  obtain ⟨home', _, attrs', choices'⟩ := n
  obtain rfl : type = _ := htype
  simp only [Instance.value, equalUpTo, hc, beq_self_eq_true, Bool.true_and, Bool.and_eq_true, List.all_eq_true]
  refine ⟨hchoices, fun f hf' => ?_⟩
  obtain ⟨x, y, hx, hy, hd, he⟩ := hfields f hf'
  simp only [hx, hy, he.within (by omega : x.depth ≤ fuel)]

end Equals

end Message.Library
end ProtoBind
