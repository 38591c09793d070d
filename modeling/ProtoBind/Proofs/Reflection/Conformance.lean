/-
What it means that a document has a shape.

`Conforms` gives the meaning of shapes as a relation, for documents of any
depth. Testing a document goes through a bounded number of steps; a document
takes two of them for each level (`holds_of_conforms`), so the test finds
exactly the documents that conform (`isValid_iff`).
-/
import Mathlib.Data.List.Nodup
import ProtoBind.Reflection.Shape

namespace ProtoBind.Reflection

/-- The document has the shape. -/
inductive Conforms : Shape → Json → Prop
  | any (j : Json) : Conforms .any j
  | text (s : String) : Conforms .text (.string s)
  | boolean (b : Bool) : Conforms .boolean (.bool b)
  | integer {minimum : Option Int} {j : Json} (number : Shape.isInteger minimum j = true) :
      Conforms (.integer minimum) j
  | exactly (s : String) : Conforms (.exactly s) (.string s)
  | list {least : Nat} {item : Shape} {items : List Json} (enough : least ≤ items.length)
      (each : ∀ j ∈ items, Conforms item j) : Conforms (.list least item) (.array items)
  /-- The required keys are there, every key is known or has the shape of other keys, and what stands at a key has the
  shape for it. -/
  | record {required : List String} {properties : List (String × Shape)} {others : Option Shape}
      {entries : List (String × Json)} (present : ∀ k ∈ required, (entries.lookup k).isSome)
      (known : ∀ e ∈ entries, ((properties.lookup e.1).or others).isSome)
      (each : ∀ e ∈ entries, ∀ shape, (properties.lookup e.1).or others = some shape → Conforms shape e.2) :
      Conforms (.record required properties others) (.object entries)
  | anyOf {names : List ShapeName} {name : ShapeName} {j : Json} (alternative : name ∈ names)
      (conforms : Conforms (.definition name) j) : Conforms (.anyOf names) j
  | named {name : ShapeName} {j : Json} (conforms : Conforms (.definition name) j) : Conforms (.named name) j

variable {fuel : Nat} {shape : Shape} {j : Json}

/-- The test of an entry of an object, by the shape for its key. -/
theorem holds_entry {properties : List (String × Shape)} {others : Option Shape} {e : String × Json} :
    (match properties.lookup e.1 with
      | some s => s.holds fuel e.2
      | none => match others with
        | some s => s.holds fuel e.2
        | none => false) = true ↔
    ∃ shape, (properties.lookup e.1).or others = some shape ∧ shape.holds fuel e.2 = true := by
  cases properties.lookup e.1 with
  | some s => simp
  | none => cases others <;> simp

/-- A document that passes the test has the shape. -/
theorem conforms_of_holds (h : shape.holds fuel j = true) : Conforms shape j := by
  induction fuel generalizing shape j with
  | zero => cases h
  | succ fuel ih =>
    unfold Shape.holds at h
    split at h
    next => exact .any _
    next => exact .text _
    next => exact .boolean _
    next => exact .integer h
    next => exact beq_iff_eq.mp h ▸ .exactly _
    next least item items =>
      rw [Bool.and_eq_true, decide_eq_true_eq, List.all_eq_true] at h
      exact .list h.1 fun j hj => ih (h.2 j hj)
    next required properties others entries =>
      rw [Bool.and_eq_true, List.all_eq_true, List.all_eq_true] at h
      refine .record h.1 (fun e he => ?_) fun e he shape hshape => ?_
      · obtain ⟨shape, hshape, -⟩ := holds_entry.mp (h.2 e he)
        rw [hshape]
        rfl
      · obtain ⟨shape', hshape', hholds⟩ := holds_entry.mp (h.2 e he)
        obtain rfl : shape' = shape := Option.some.inj (hshape'.symm.trans hshape)
        exact ih hholds
    next names =>
      obtain ⟨name, hname, hholds⟩ := List.any_eq_true.mp h
      exact .anyOf hname (ih hholds)
    next => exact .named (ih h)
    next => cases h

/-! ## Enough steps -/

theorem depth_pos : 1 ≤ depth j := by
  unfold depth
  split <;> omega

theorem depth_le_depthAll : ∀ {items : List Json}, j ∈ items → depth j ≤ depthAll items
  | i :: rest, h => by
    rw [depthAll]
    rcases List.mem_cons.mp h with rfl | h
    · exact Nat.le_max_left _ _
    · exact Nat.le_trans (depth_le_depthAll h) (Nat.le_max_right _ _)

theorem depth_le_depthEntries {e : String × Json} : ∀ {entries : List (String × Json)}, e ∈ entries →
    depth e.2 ≤ depthEntries entries
  | i :: rest, h => by
    rw [depthEntries]
    rcases List.mem_cons.mp h with rfl | h
    · exact Nat.le_max_left _ _
    · exact Nat.le_trans (depth_le_depthEntries h) (Nat.le_max_right _ _)

/-- A shape that names others takes a step more at its level. -/
def Shape.spared : Shape → Nat
  | .anyOf _ | .named _ => 0
  | _ => 1

theorem spared_definition (name : ShapeName) : (Shape.definition name).spared = 1 := by
  cases name <;> rfl

theorem spared_le (shape : Shape) : shape.spared ≤ 1 := by
  unfold Shape.spared
  split <;> omega

/-- A document that has a shape passes the test in two steps for each of its levels. -/
theorem holds_of_conforms (h : Conforms shape j) : ∀ {fuel : Nat}, 2 * depth j ≤ fuel + shape.spared →
    shape.holds fuel j = true := by
  -- One step is left at least, whatever the shape.
  have hstep {shape : Shape} {j : Json} {fuel : Nat} (hfuel : 2 * depth j ≤ fuel + shape.spared) :
      ∃ k, fuel = k + 1 := by
    have hpos := @depth_pos j
    have hspared := spared_le shape
    exact Nat.exists_eq_add_one_of_ne_zero (by omega)
  induction h with
  | any | text | boolean =>
    intro fuel hfuel
    obtain ⟨k, rfl⟩ := hstep hfuel
    simp only [Shape.holds]
  | integer number =>
    intro fuel hfuel
    obtain ⟨k, rfl⟩ := hstep hfuel
    simpa only [Shape.holds] using number
  | exactly s =>
    intro fuel hfuel
    obtain ⟨k, rfl⟩ := hstep hfuel
    simp only [Shape.holds, beq_self_eq_true]
  | @list least item items enough each ih =>
    intro fuel hfuel
    obtain ⟨k, rfl⟩ := hstep hfuel
    rw [Shape.holds, Bool.and_eq_true, decide_eq_true_eq, List.all_eq_true]
    refine ⟨enough, fun j hj => ih j hj ?_⟩
    have hdepth := depth_le_depthAll hj
    simp only [depth, Shape.spared] at hfuel
    omega
  | @record required properties others entries present known each ih =>
    intro fuel hfuel
    obtain ⟨k, rfl⟩ := hstep hfuel
    rw [Shape.holds, Bool.and_eq_true, List.all_eq_true, List.all_eq_true]
    refine ⟨present, fun e he => holds_entry.mpr ?_⟩
    obtain ⟨shape, hshape⟩ := Option.isSome_iff_exists.mp (known e he)
    refine ⟨shape, hshape, ih e he shape hshape ?_⟩
    have hdepth := depth_le_depthEntries he
    simp only [depth, Shape.spared] at hfuel
    omega
  | @anyOf names name j alternative conforms ih =>
    intro fuel hfuel
    obtain ⟨k, rfl⟩ := hstep hfuel
    rw [Shape.holds]
    refine List.any_eq_true.mpr ⟨name, alternative, ih ?_⟩
    rw [spared_definition]
    exact hfuel
  | @named name j conforms ih =>
    intro fuel hfuel
    obtain ⟨k, rfl⟩ := hstep hfuel
    rw [Shape.holds]
    refine ih ?_
    rw [spared_definition]
    exact hfuel

/-- **The test finds the documents that have the shape of a package.** -/
theorem isValid_iff : isValid j = true ↔ Conforms (.named .package) j := by
  refine ⟨conforms_of_holds, fun h => holds_of_conforms h ?_⟩
  rw [Shape.spared]
  omega

end ProtoBind.Reflection
