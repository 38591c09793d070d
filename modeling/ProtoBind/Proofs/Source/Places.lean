/-
Where tokens and comments stand.

The lexer counts lines and columns as it goes: lines are counted in line feeds,
and columns from the last of them (`place_eq`).
-/
import Mathlib.Data.List.Induction
import Mathlib.Data.List.TakeWhile
import ProtoBind.Source.Token

namespace ProtoBind.Source

/-! ## Places -/

theorem place_append (s t : List Char) : ∀ line column : Nat,
    place line column (s ++ t) = place (place line column s).1 (place line column s).2 t := by
  induction s with
  | nil => exact fun _ _ => rfl
  | cons c s ih =>
    intro line column
    rw [List.cons_append, place, place]
    split <;> exact ih _ _

theorem place_ge (s : List Char) : ∀ line column : Nat, line ≤ (place line column s).1 := by
  induction s with
  | nil => exact fun _ _ => Nat.le_refl _
  | cons c s ih =>
    intro line column
    rw [place]
    split
    · exact Nat.le_trans (Nat.le_succ line) (ih _ _)
    · exact ih _ _

/-! ## Lines -/

/-- What stands behind the last line feed. -/
def ownLine (pre : List Char) : List Char := (pre.reverse.takeWhile (· != '\n')).reverse

theorem takeWhile_append_lineFeed (s t : List Char) :
    (s ++ '\n' :: t).takeWhile (· != '\n') = s.takeWhile (· != '\n') := by
  induction s with
  | nil => rfl
  | cons c s ih => rw [List.cons_append, List.takeWhile_cons, List.takeWhile_cons, ih]

/-- Behind a line feed the line begins anew. -/
theorem ownLine_lineFeed (s t : List Char) : ownLine (s ++ '\n' :: t) = ownLine t := by
  rw [ownLine, List.reverse_append, List.reverse_cons, List.append_assoc, List.singleton_append,
    takeWhile_append_lineFeed]
  rfl

theorem ownLine_of_notMem {s : List Char} (h : '\n' ∉ s) : ownLine s = s := by
  rw [ownLine, List.takeWhile_eq_self_iff.mpr, List.reverse_reverse]
  exact fun c hc => bne_iff_ne.mpr fun he => h (he ▸ List.mem_reverse.mp hc)

/-- **Lines are counted in line feeds, and columns from the last of them.** -/
theorem place_eq (s : List Char) (line : Nat) : place line 1 s = (line + s.count '\n', 1 + (ownLine s).length) := by
  induction s using List.reverseRecOn generalizing line with
  | nil => rfl
  | append_singleton s c ih =>
    rw [place_append, ih, place, place]
    by_cases hc : c = '\n'
    · subst hc
      rw [if_pos (beq_self_eq_true _), ownLine_lineFeed, List.count_append, List.count_singleton_self, Nat.add_assoc]
      rfl
    · have hown : ownLine (s ++ [c]) = ownLine s ++ [c] := by
        rw [ownLine, List.reverse_append, List.reverse_singleton, List.singleton_append,
          List.takeWhile_cons_of_pos (by simpa using hc), List.reverse_cons, ownLine]
      have hcount : [c].count '\n' = 0 := List.count_eq_zero_of_not_mem (by simpa using Ne.symm hc)
      rw [if_neg (by simpa using hc), hown, List.count_append, hcount, List.length_append, List.length_singleton]
      rfl

theorem place_line (s : List Char) (line column : Nat) : (place line column s).1 = line + s.count '\n' := by
  induction s generalizing line column with
  | nil => rfl
  | cons c s ih =>
    rw [place, List.count_cons]
    split <;> rw [ih] <;> omega

/-! ## Comments -/

/-- What is before a comment in a text: the comment stands at the place behind it and ends on the line on which its
text ends. -/
structure Comment.Behind (c : Comment) (pre text : List Char) : Prop where
  text : ∃ post, text = pre ++ (c.text.toList ++ post)
  place : place 1 1 pre = (c.line, c.column)
  ends : (Source.place c.line c.column c.text.toList).1 = c.endLine

end ProtoBind.Source
