/-
The loops of the decoder side by side.

`round` is one round of a loop over the records before a position. Where every
step takes at least a byte or fails over the bytes, the loop needs no bound: it
is its own round (`IsLoop.eq`), and it ends inside the bytes (`IsLoop.ends`).
-/
import ProtoBind.Proofs.Message.Records
import ProtoBind.Proofs.Wire.Lockstep

namespace ProtoBind.Message

open Decode

variable {α β σ τ : Type} {n k : Nat} {R : α → β → Prop}

/-- The fault is one of the bytes. -/
def Fault.IsWire (e : Fault) : Prop := ∃ f, e = .wire f

theorem ofRead_inStep {x y : Read α} (h : Reader.Along n k x y) :
    InStep Fault.IsWire n k Eq (ofRead x) (ofRead y) := by
  intro r hr
  obtain ⟨bs, r', hp, ⟨a, b, hx, hy, hk, hab⟩ | ⟨e, hx, hy, -⟩⟩ := h r hr
  · exact ⟨bs, r', hp, .inl ⟨a, b, by rw [ofRead, hx], by rw [ofRead, hy], hk, hab⟩⟩
  · exact ⟨bs, r', hp, .inr ⟨.wire e, by rw [ofRead, hx], by rw [ofRead, hy], e, rfl⟩⟩

theorem ofExcept_inStep {P : Fault → Prop} {a : α} {b : β} (h : R a b) :
    InStep P n 0 R (ofExcept (.ok a) : Decode α) (ofExcept (.ok b)) :=
  .pure h

theorem get_inStep {P : Fault → Prop} : InStep P n 0 Eq (get : Decode Reader) get := fun r _ =>
  ⟨[], r, .refl r, .inl ⟨r, r, rfl, rfl, Nat.le_refl 0, rfl⟩⟩

theorem runEnd_inStep : InStep Fault.IsWire n 1 Eq runEnd runEnd :=
  (ofRead_inStep Reader.uint32_inStep).bind_zero fun _ _ hlength => hlength ▸ get_inStep.map_eq

/-! ## Loops -/

namespace Decode

/-- One round of a loop up to a position: a step and the loop behind it, unless the position is reached. -/
def round (stop : Nat) (step loop : σ → Decode σ) (s : σ) : Decode σ := do
  if (← get).pos < stop then loop (← step s) else return s

theorem round_inStep {Q : σ → τ → Prop} {step loop : σ → Decode σ} {step' loop' : τ → Decode τ} {s : σ} {t : τ}
    (hs : Q s t) (hstep : InStep Fault.IsWire (n + 1) 1 Q (step s) (step' t))
    (hloop : ∀ s t, Q s t → InStep Fault.IsWire n 0 Q (loop s) (loop' t)) (stop : Nat) :
    InStep Fault.IsWire (n + 1) 0 Q (round stop step loop s) (round stop step' loop' t) :=
  get_inStep.bind_zero fun _ _ hr => hr ▸ .ite ((hstep.bind_zero hloop).atLeast (Nat.zero_le 1)) (.pure hs)

variable {Q : σ → τ → Prop} {step : σ → Decode σ} {step' : τ → Decode τ}

/-- Loops whose steps are in step are in step, whatever their bounds, once these are as much as there are bytes. -/
theorem stepsUpTo_inStep (hstep : ∀ s t, Q s t → InStep Fault.IsWire n 1 Q (step s) (step' t)) {stop : Nat}
    {fuel fuel' : Nat} (h : n ≤ fuel) (h' : n ≤ fuel') {s : σ} {t : τ} (hs : Q s t) :
    InStep Fault.IsWire n 0 Q (stepsUpTo stop step fuel s) (stepsUpTo stop step' fuel' t) := by
  induction n generalizing fuel fuel' s t with
  | zero => exact fun r hr => absurd hr (Nat.not_lt_zero _)
  | succ n ih =>
    obtain ⟨fuel, rfl⟩ : ∃ k, fuel = k + 1 := ⟨fuel - 1, by omega⟩
    obtain ⟨fuel', rfl⟩ : ∃ k, fuel' = k + 1 := ⟨fuel' - 1, by omega⟩
    refine round_inStep hs (hstep s t hs) (fun s t hs => ?_) stop
    exact ih (fun s t hs => (hstep s t hs).mono (Nat.le_succ n) (Nat.le_refl 1) id)
      (Nat.le_of_succ_le_succ h) (Nat.le_of_succ_le_succ h') hs

theorem upTo_inStep (hstep : ∀ s t, Q s t → InStep Fault.IsWire n 1 Q (step s) (step' t)) {stop : Nat} {s : σ}
    {t : τ} (hs : Q s t) : InStep Fault.IsWire n 0 Q (upTo stop step s) (upTo stop step' t) := fun r hr =>
  stepsUpTo_inStep (fun s t hs => (hstep s t hs).mono hr (Nat.le_refl 1) id) (Nat.le_refl _) (Nat.le_refl _) hs r
    (Nat.lt_succ_self _)

end Decode

end ProtoBind.Message
