/-
Readers side by side.

`InStep P n k R x y` says that `x` and `y` take the same bytes of every reader
with less than `n` bytes left: both give values that are related by `R`, behind
at least `k` bytes, or both fail with the same fault, which satisfies `P`. Of a
reader beside itself it says that the position only moves forward inside the
bytes, also where reading fails; of one reader under two limits it says that the
limits are never met. It passes through sequencing, and every reader of the
wire format has it (`Reader.scalar_inStep`, `Reader.skipType_inStep`).
-/
import ProtoBind.Proofs.Wire.Grammar

namespace ProtoBind

variable {ε α β γ δ : Type} {P : ε → Prop} {R : α → β → Prop} {n k j : Nat}

/-- Both computations take the same bytes of a reader, and end alike. -/
def InStepAt (P : ε → Prop) (k : Nat) (R : α → β → Prop) (x : EStateM ε Reader α) (y : EStateM ε Reader β)
    (r : Reader) : Prop :=
  ∃ bs r', r.Past bs r' ∧
    ((∃ a b, x r = .ok a r' ∧ y r = .ok b r' ∧ k ≤ bs.length ∧ R a b) ∨
      ∃ e, x r = .error e r' ∧ y r = .error e r' ∧ P e)

/-- Both computations take the same bytes of every reader with less than `n` bytes, and end alike. -/
def InStep (P : ε → Prop) (n k : Nat) (R : α → β → Prop) (x : EStateM ε Reader α) (y : EStateM ε Reader β) : Prop :=
  ∀ r : Reader, r.rest.length < n → InStepAt P k R x y r

theorem Reader.Past.length {r r' : Reader} {bs : List UInt8} (h : r.Past bs r') :
    r.rest.length = bs.length + r'.rest.length := by
  rw [h.1, List.length_append]

/-! ## Sequencing -/

theorem InStepAt.mono {j : Nat} {S : α → β → Prop} {x : EStateM ε Reader α} {y : EStateM ε Reader β} {r : Reader}
    (h : InStepAt P k R x y r) (hj : j ≤ k) (hS : ∀ {a b}, R a b → S a b) : InStepAt P j S x y r := by
  obtain ⟨bs, r', hp, ⟨a, b, hx, hy, hk, hR⟩ | herror⟩ := h
  · exact ⟨bs, r', hp, .inl ⟨a, b, hx, hy, Nat.le_trans hj hk, hS hR⟩⟩
  · exact ⟨bs, r', hp, .inr herror⟩

theorem InStep.pure {a : α} {b : β} (h : R a b) :
    InStep P n 0 R (Pure.pure a : EStateM ε Reader α) (Pure.pure b) := fun r _ =>
  ⟨[], r, .refl r, .inl ⟨a, b, rfl, rfl, Nat.le_refl 0, h⟩⟩

theorem InStep.throw {e : ε} (h : P e) :
    InStep P n k R (MonadExcept.throw e : EStateM ε Reader α) (MonadExcept.throw e) := fun r _ =>
  ⟨[], r, .refl r, .inr ⟨e, rfl, rfl, h⟩⟩

/-- What is done behind the first `k` bytes has `k` bytes less. -/
theorem InStep.bind {S : γ → δ → Prop} {x : EStateM ε Reader α} {y : EStateM ε Reader β}
    {f : α → EStateM ε Reader γ} {g : β → EStateM ε Reader δ} (hx : InStep P n k R x y)
    (hf : ∀ a b, R a b → InStep P (n - k) j S (f a) (g b)) : InStep P n (k + j) S (x >>= f) (y >>= g) := by
  intro r hr
  obtain ⟨bs, r₁, hp, ⟨a, b, hxa, hyb, hk, hR⟩ | ⟨e, hxe, hye, he⟩⟩ := hx r hr
  · have hlen := hp.length
    obtain ⟨cs, r', hp', hcases⟩ := hf a b hR r₁ (by omega)
    refine ⟨bs ++ cs, r', hp.trans hp', ?_⟩
    rcases hcases with ⟨c, d, hfc, hgd, hj, hS⟩ | ⟨e, hfe, hge, he⟩
    · refine .inl ⟨c, d, bind_eq_ok.mpr ⟨a, r₁, hxa, hfc⟩, bind_eq_ok.mpr ⟨b, r₁, hyb, hgd⟩, ?_, hS⟩
      rw [List.length_append]
      omega
    · exact .inr ⟨e, bind_eq_error.mpr (.inr ⟨a, r₁, hxa, hfe⟩), bind_eq_error.mpr (.inr ⟨b, r₁, hyb, hge⟩), he⟩
  · exact ⟨bs, r₁, hp, .inr ⟨e, bind_eq_error.mpr (.inl hxe), bind_eq_error.mpr (.inl hye), he⟩⟩

theorem InStep.mono {S : α → β → Prop} {x : EStateM ε Reader α} {y : EStateM ε Reader β} {m : Nat}
    (h : InStep P n k R x y) (hm : m ≤ n) (hj : j ≤ k) (hS : ∀ {a b}, R a b → S a b) : InStep P m j S x y :=
  fun r hr => (h r (Nat.lt_of_lt_of_le hr hm)).mono hj hS

/-- A last step that takes nothing. -/
theorem InStep.bind_zero {S : γ → δ → Prop} {x : EStateM ε Reader α} {y : EStateM ε Reader β}
    {f : α → EStateM ε Reader γ} {g : β → EStateM ε Reader δ} (hx : InStep P n k R x y)
    (hf : ∀ a b, R a b → InStep P (n - k) 0 S (f a) (g b)) : InStep P n k S (x >>= f) (y >>= g) :=
  hx.bind hf

theorem InStep.map {S : γ → δ → Prop} {x : EStateM ε Reader α} {y : EStateM ε Reader β} {f : α → γ} {g : β → δ}
    (hx : InStep P n k R x y) (hS : ∀ {a b}, R a b → S (f a) (g b)) :
    InStep P n k S (do return f (← x)) (do return g (← y)) :=
  hx.bind_zero fun _ _ hR => .pure (hS hR)

theorem InStep.map_eq {x y : EStateM ε Reader α} {f : α → β} (hx : InStep P n k Eq x y) :
    InStep P n k Eq (do return f (← x)) (do return f (← y)) :=
  hx.map (congrArg f)

theorem InStep.ite {p : Prop} [Decidable p] {x x' : EStateM ε Reader α} {y y' : EStateM ε Reader β}
    (hx : InStep P n k R x y) (hx' : InStep P n k R x' y') :
    InStep P n k R (if p then x else x') (if p then y else y') := by
  split
  · exact hx
  · exact hx'

/-- Fewer bytes are promised. -/
theorem InStep.atLeast {x : EStateM ε Reader α} {y : EStateM ε Reader β} (h : InStep P n k R x y) (hj : j ≤ k) :
    InStep P n j R x y :=
  h.mono (Nat.le_refl n) hj id

/-- Only what the computations do on the reader matters. -/
theorem InStepAt.congr {x x' : EStateM ε Reader α} {y y' : EStateM ε Reader β} {r : Reader}
    (h : InStepAt P k R x y r) (hx : x r = x' r) (hy : y r = y' r) : InStepAt P k R x' y' r := by
  rw [InStepAt, hx, hy] at h
  exact h

/-- Computations in step give the same result. -/
theorem InStepAt.eq {x y : EStateM ε Reader α} {r : Reader} (h : InStepAt P k Eq x y r) : x r = y r := by
  obtain ⟨_, _, _, ⟨a, b, hx, hy, -, rfl⟩ | ⟨e, hx, hy, -⟩⟩ := h
  · rw [hx, hy]
  · rw [hx, hy]

/-! ## The readers of the wire format -/

namespace Reader

/-- Two readers in step, with any faults. -/
abbrev Along (n k : Nat) (x y : Read α) : Prop := InStep (fun _ => True) n k Eq x y

theorem byte_inStep : Along n 1 byte byte := by
  intro r _
  obtain ⟨pos, rest⟩ := r
  cases rest with
  | nil => exact ⟨[], _, .refl _, .inr ⟨_, rfl, rfl, trivial⟩⟩
  | cons b rest => exact ⟨[b], _, ⟨rfl, rfl⟩, .inl ⟨b, b, rfl, rfl, Nat.le_refl 1, rfl⟩⟩

theorem take_inStep (m : Nat) : Along n m (take m) (take m) := by
  intro r _
  cases h : take m r with
  | ok bs r' =>
    obtain ⟨hp, hm⟩ := take_sound h
    exact ⟨bs, r', hp, .inl ⟨bs, bs, h, h, Nat.le_of_eq hm.symm, rfl⟩⟩
  | error e r' =>
    obtain rfl : r = r' := by
      simp only [take] at h
      split at h <;> cases h
      rfl
    exact ⟨[], r, .refl r, .inr ⟨e, h, h, trivial⟩⟩

theorem varintUpTo_inStep (limit : Nat) : Along n 1 (varintUpTo limit) (varintUpTo limit) := by
  induction limit generalizing n with
  | zero => exact .throw trivial
  | succ limit ih =>
    refine byte_inStep.bind_zero fun b _ h => h ▸ ?_
    exact .ite (.pure rfl) (ih.map_eq.atLeast (Nat.zero_le 1))

theorem uint32_inStep : Along n 1 uint32 uint32 := (varintUpTo_inStep 10).map_eq

theorem uint64_inStep : Along n 1 uint64 uint64 := (varintUpTo_inStep 10).map_eq

theorem fixed_inStep (m : Nat) : Along n m (fixed m) (fixed m) := (take_inStep m).map_eq

theorem bytes_inStep : Along n 1 bytes bytes :=
  uint32_inStep.bind_zero fun m _ h => h ▸ (take_inStep m).atLeast (Nat.zero_le m)

theorem string_inStep : Along n 1 string string := by
  refine bytes_inStep.bind_zero fun bs _ h => h ▸ ?_
  split
  · exact .pure rfl
  · exact .throw trivial

/-- A scalar takes at least one byte. -/
theorem scalar_inStep (k : Scalar) : Along n 1 (scalar k) (scalar k) := by
  cases k with
  | uint32 => exact uint32_inStep.map_eq
  | int32 | sint32 => exact uint32_inStep.map_eq.map_eq
  | uint64 => exact uint64_inStep.map_eq
  | int64 | sint64 => exact uint64_inStep.map_eq.map_eq
  | bool => exact (varintUpTo_inStep 10).map_eq.map_eq
  | fixed32 | sfixed32 => exact ((fixed_inStep 4).map_eq).atLeast (by omega)
  | fixed64 | sfixed64 => exact ((fixed_inStep 8).map_eq).atLeast (by omega)
  | float => exact ((fixed_inStep 4).map_eq.map_eq).atLeast (by omega)
  | double => exact ((fixed_inStep 8).map_eq.map_eq).atLeast (by omega)
  | bytes => exact bytes_inStep.map_eq
  | string => exact string_inStep.map_eq

/-! ## Passing over values -/

theorem skipVarint_inStep : Along n 0 skipVarint skipVarint :=
  ((varintUpTo_inStep 10).map_eq (f := fun _ => ())).atLeast (Nat.zero_le 1)

theorem skip_inStep (m : Nat) : Along n 0 (skip m) (skip m) :=
  ((take_inStep m).map_eq (f := fun _ => ())).atLeast (Nat.zero_le m)

theorem skipWith_inStep {group group' : Read Unit} (h : Along n 0 group group') (w : Int) :
    Along n 0 (skipWith group w) (skipWith group' w) := by
  have hlength : Along n 0 (do skip (← uint32)) (do skip (← uint32)) :=
    (uint32_inStep.bind_zero fun m _ hm => hm ▸ skip_inStep m).atLeast (Nat.zero_le 1)
  have hwrong : Along n 0 (fun r => .error (.badWireType w r.pos) r : Read Unit)
      (fun r => .error (.badWireType w r.pos) r) :=
    fun r _ => ⟨[], r, .refl r, .inr ⟨_, rfl, rfl, trivial⟩⟩
  exact .ite skipVarint_inStep (.ite (skip_inStep 8) (.ite hlength (.ite h (.ite (skip_inStep 4) hwrong))))

/-- One field of a group, or its end, and then what is behind the field; `group` passes over the rest of a
group. -/
def skipFields (group : Read Unit) : Read Unit := do
  let wireType := (← uint32) % 8
  if wireType = 4 then return
  skipWith group wireType
  group

theorem skipFields_inStep {group group' : Read Unit} (h : Along n 0 group group') :
    Along (n + 1) 1 (skipFields group) (skipFields group') :=
  uint32_inStep.bind_zero fun _ _ hkey => hkey ▸
    .ite (.pure rfl) ((skipWith_inStep h _).bind_zero fun _ _ _ => h)

/-- Passing over a group does not depend on the fuel, once it is as much as there are bytes. -/
theorem skipGroup_inStep {fuel fuel' : Nat} (h : n ≤ fuel) (h' : n ≤ fuel') :
    Along n 0 (skipGroup fuel) (skipGroup fuel') := by
  induction n generalizing fuel fuel' with
  | zero => exact fun r hr => absurd hr (Nat.not_lt_zero _)
  | succ n ih =>
    obtain ⟨fuel, rfl⟩ : ∃ k, fuel = k + 1 := ⟨fuel - 1, by omega⟩
    obtain ⟨fuel', rfl⟩ : ∃ k, fuel' = k + 1 := ⟨fuel' - 1, by omega⟩
    have hgroup := ih (Nat.le_of_succ_le_succ h) (Nat.le_of_succ_le_succ h')
    exact (skipFields_inStep hgroup).atLeast (Nat.zero_le 1)

theorem skipType_inStep (w : Int) : Along n 0 (skipType w) (skipType w) := fun r _ =>
  skipWith_inStep (skipGroup_inStep (Nat.le_refl _) (Nat.le_refl _)) w r (Nat.lt_succ_self _)

end Reader
end ProtoBind
