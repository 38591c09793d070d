/-
Names that are escaped.

A name that is a keyword or reserved gets an underscore, and may so become a
name that was there before. Names stay apart just when they are distinct and
none of them is another one escaped (`map_guard_nodup_iff`).
-/
import Mathlib.Data.List.Nodup
import ProtoBind.Naming

namespace ProtoBind.Naming

variable {reserved names : List String} {x y : String}

/-- The name gets an underscore. -/
def Escaped (reserved : List String) (name : String) : Prop := name ∈ keywords ∨ name ∈ reserved

instance (reserved : List String) (name : String) : Decidable (Escaped reserved name) :=
  inferInstanceAs (Decidable (_ ∨ _))

/-- No escaped name is reserved itself. -/
def Stable (reserved : List String) : Prop :=
  ∀ k ∈ keywords ++ reserved, k ++ "_" ∉ keywords ++ reserved

instance (reserved : List String) : Decidable (Stable reserved) := inferInstanceAs (Decidable (∀ k ∈ _, _))

theorem guard_of_escaped (h : Escaped reserved x) : guard reserved x = x ++ "_" := by
  refine if_pos ?_
  simpa [Escaped] using h

theorem guard_of_not_escaped (h : ¬ Escaped reserved x) : guard reserved x = x := by
  refine if_neg ?_
  simpa [Escaped] using h

theorem Stable.not_escaped (h : Stable reserved) (hx : Escaped reserved x) : ¬ Escaped reserved (x ++ "_") := by
  have hmem {z : String} : Escaped reserved z ↔ z ∈ keywords ++ reserved := List.mem_append.symm
  rw [hmem] at hx ⊢
  exact h x hx

/-- Two names become one when they are one, or when one of them is the other escaped. -/
theorem guard_eq_guard_iff (h : Stable reserved) : guard reserved x = guard reserved y ↔
    x = y ∨ (Escaped reserved x ∧ y = x ++ "_") ∨ (Escaped reserved y ∧ x = y ++ "_") := by
  constructor
  · intro he
    by_cases hx : Escaped reserved x <;> by_cases hy : Escaped reserved y
    · rw [guard_of_escaped hx, guard_of_escaped hy] at he
      exact .inl (String.append_left_inj _ |>.mp he)
    · rw [guard_of_escaped hx, guard_of_not_escaped hy] at he
      exact .inr (.inl ⟨hx, he.symm⟩)
    · rw [guard_of_not_escaped hx, guard_of_escaped hy] at he
      exact .inr (.inr ⟨hy, he⟩)
    · rw [guard_of_not_escaped hx, guard_of_not_escaped hy] at he
      exact .inl he
  · rintro (rfl | ⟨hx, rfl⟩ | ⟨hy, rfl⟩)
    · rfl
    · rw [guard_of_escaped hx, guard_of_not_escaped (h.not_escaped hx)]
    · rw [guard_of_escaped hy, guard_of_not_escaped (h.not_escaped hy)]

/-- **Names stay apart when they are distinct and none is another one escaped.** -/
theorem map_guard_nodup_iff (h : Stable reserved) : (names.map (guard reserved)).Nodup ↔
    names.Nodup ∧ ∀ x ∈ names, Escaped reserved x → x ++ "_" ∉ names := by
  constructor
  · intro hn
    refine ⟨hn.of_map, fun x hx hesc hmem => ?_⟩
    have hne : x ≠ x ++ "_" := fun he => h.not_escaped hesc (he ▸ hesc)
    exact hne (List.inj_on_of_nodup_map hn hx hmem ((guard_eq_guard_iff h).mpr (.inr (.inl ⟨hesc, rfl⟩))))
  · rintro ⟨hn, hapart⟩
    refine hn.map_on fun x hx y hy he => ?_
    rcases (guard_eq_guard_iff h).mp he with heq | ⟨hesc, rfl⟩ | ⟨hesc, rfl⟩
    · exact heq
    · exact absurd hy (hapart x hx hesc)
    · exact absurd hx (hapart y hy hesc)

theorem stable_nil : Stable [] := by decide

theorem stable_messageReserved : Stable messageReserved := by decide

theorem stable_enumReserved : Stable enumReserved := by decide

theorem stable_clientReserved : Stable clientReserved := by decide

end ProtoBind.Naming
