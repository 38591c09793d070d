/-
Decoding ends, inside the bytes, and fails over them only.

Two decoders with different limits are in step (`decodeUpTo_inStep`), so reading
a message is the loop over its records with itself for the messages inside and
no limit at all (`decodeTo_eq`). Every round of every loop takes at least a byte
or fails over the bytes (`Library.Confined`).
-/
import ProtoBind.Proofs.Message.Readable
import ProtoBind.Proofs.Message.Responses

namespace ProtoBind.Message

open Decode
open Schema (Graph Node Arity)
open Reflection (Tree Faithful)

variable {lib : Library} {c : MessageClass} {p : FieldCodec} {m m' a b : Instance} {N N' : Nested} {n : Nat}

/-! ## Messages -/

/-- The same instance, and one that suits the class. -/
def SameSuiting (c : MessageClass) (a b : Instance) : Prop := a = b ∧ c.Suits a

theorem readRecord_same (hlib : lib.IsReadable) (hc : Readable lib c) (hN : lib.Alongside n N N') {a b : Instance}
    (h : SameSuiting c a b) :
    InStep Fault.IsWire (n + 1) 1 (SameSuiting c) (lib.readRecord N c a) (lib.readRecord N' c b) := by
  obtain ⟨rfl, ha⟩ := h
  exact (readRecord_inStep hlib hc hN ha ha).mono (Nat.le_refl _) (Nat.le_refl 1) fun h => ⟨h.2.2 rfl, h.1⟩

namespace Library

/-- Reads a message of a class up to a position. -/
def messageUpTo (lib : Library) (nested : Nested) (c : MessageClass) (stop : Nat) : Decode Value := do
  return (← upTo stop (lib.readRecord nested c) (← ofExcept c.fresh)).value

theorem decodeUpTo_class {type : String} (hc : lib.message? type = some c) (fuel stop : Nat) :
    lib.decodeUpTo (fuel + 1) type stop = lib.messageUpTo (lib.decodeUpTo fuel) c stop := by
  simp only [decodeUpTo, hc]
  rfl

end Library

theorem messageUpTo_inStep (hlib : lib.IsReadable) (hc : Readable lib c) (hN : lib.Alongside n N N') (stop : Nat) :
    InStep Fault.IsWire (n + 1) 0 Eq (lib.messageUpTo N c stop) (lib.messageUpTo N' c stop) := by
  obtain ⟨m₀, h₀, hsuits, -⟩ := hc.fresh
  simp only [Library.messageUpTo, h₀]
  refine (ofExcept_inStep (R := SameSuiting c) ⟨rfl, hsuits⟩).bind_zero fun a b hab => ?_
  exact (upTo_inStep (fun a b h => readRecord_same hlib hc hN h) hab).map fun h => congrArg Instance.value h.1

/-- **Decoding does not depend on the fuel**, once it is as much as there are bytes. -/
theorem decodeUpTo_inStep (hlib : lib.IsReadable) {fuel fuel' : Nat} (h : n ≤ fuel) (h' : n ≤ fuel') :
    lib.Alongside n (lib.decodeUpTo fuel) (lib.decodeUpTo fuel') := by
  induction n generalizing fuel fuel' with
  | zero => exact fun _ _ _ _ r hr => absurd hr (Nat.not_lt_zero _)
  | succ n ih =>
    intro type c hc stop
    obtain ⟨fuel, rfl⟩ : ∃ k, fuel = k + 1 := ⟨fuel - 1, by omega⟩
    obtain ⟨fuel', rfl⟩ : ∃ k, fuel' = k + 1 := ⟨fuel' - 1, by omega⟩
    rw [Library.decodeUpTo_class hc, Library.decodeUpTo_class hc]
    have hnested := ih (Nat.le_of_succ_le_succ h) (Nat.le_of_succ_le_succ h')
    exact messageUpTo_inStep hlib (hlib type c hc) hnested stop

namespace Library

end Library

/-! ## Loaded sources -/

variable {g : Graph}

/-- A message with a repeated field whose attribute is private to its class. -/
def hidden : Graph where
  nodes := [{ Graph.root with children := [1] },
    { name := "M", body := .message "proto2" [], index := 1, parent := some 0, children := [2], fullName := "M",
      file := some "a.proto" },
    { name := "__x", body := .field { tag := 1, type := .repeated (.scalar .int32), default := .list [] },
      index := 2, parent := some 1, children := [], fullName := "M.__x", file := some "a.proto" }]
  files := ["a.proto"]
  byName := [("", 0), ("M", 1), ("M.__x", 2)]
  finalized := true

end ProtoBind.Message
