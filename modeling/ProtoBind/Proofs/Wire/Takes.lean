/-
Computations on a reader, by the bytes they take.

`Takes x bs a` says that `x` takes exactly the bytes `bs` and gives `a`, at
any position and whatever follows. `Repeats X x` says that everything `x`
ever takes is of that kind for `X`, once `X` has as much fuel as there were
bytes; with it a run at one place can be moved to another place, and under
another fuel. Both pass through sequencing, so a reader inherits them from
its parts.
-/
import ProtoBind.Proofs.Results
import ProtoBind.Wire.Reader

namespace ProtoBind

variable {ε α β : Type}

/-- The computation takes exactly the bytes, wherever they stand, and gives the value. -/
def Takes (x : EStateM ε Reader α) (bs : List UInt8) (a : α) : Prop :=
  ∀ pos tail, x ⟨pos, bs ++ tail⟩ = .ok a ⟨pos + bs.length, tail⟩

/-- The reader `r'` stands behind the bytes `bs` of `r`. -/
def Reader.Past (r : Reader) (bs : List UInt8) (r' : Reader) : Prop :=
  r.rest = bs ++ r'.rest ∧ r'.pos = r.pos + bs.length

/-- Whatever `x` takes, `X` takes everywhere with at least as much fuel as there are bytes. -/
def Repeats (X : Nat → EStateM ε Reader α) (x : EStateM ε Reader α) : Prop :=
  ∀ r a r', x r = .ok a r' →
    ∃ bs, r.Past bs r' ∧ ∀ fuel, bs.length ≤ fuel → Takes (X fuel) bs a

/-- A computation without fuel that repeats itself. -/
abbrev Local (x : EStateM ε Reader α) : Prop := Repeats (fun _ => x) x

/-- The computation fails at the end of the bytes, so it never succeeds without taking any. -/
def Advances (x : EStateM ε Reader α) : Prop := ∀ pos a r', x ⟨pos, []⟩ ≠ .ok a r'

/-! ## Sequencing -/

theorem Reader.Past.refl (r : Reader) : r.Past [] r := ⟨rfl, rfl⟩

theorem Reader.Past.trans {r r₁ r₂ : Reader} {bs cs : List UInt8} (h₁ : r.Past bs r₁)
    (h₂ : r₁.Past cs r₂) : r.Past (bs ++ cs) r₂ := by
  obtain ⟨hr, hp⟩ := h₁
  obtain ⟨hr', hp'⟩ := h₂
  refine ⟨by rw [hr, hr', List.append_assoc], ?_⟩
  rw [hp', hp, List.length_append]
  omega

theorem Takes.pure (a : α) : Takes (Pure.pure a : EStateM ε Reader α) [] a := fun _ _ => rfl

theorem Takes.bind {x : EStateM ε Reader α} {f : α → EStateM ε Reader β} {bs cs a b}
    (hx : Takes x bs a) (hf : Takes (f a) cs b) : Takes (x >>= f) (bs ++ cs) b := by
  intro pos tail
  rw [bind_eq_ok]
  refine ⟨a, ⟨pos + bs.length, cs ++ tail⟩, ?_, ?_⟩
  · rw [List.append_assoc]
    exact hx pos (cs ++ tail)
  · rw [List.length_append, ← Nat.add_assoc]
    exact hf (pos + bs.length) tail

/-- A last step that takes nothing. -/
theorem Takes.bind_nil {x : EStateM ε Reader α} {f : α → EStateM ε Reader β} {bs a b}
    (hx : Takes x bs a) (hf : Takes (f a) [] b) : Takes (x >>= f) bs b := by
  have h := hx.bind hf
  rwa [List.append_nil] at h

theorem Takes.map {x : EStateM ε Reader α} {f : α → β} {bs a} (hx : Takes x bs a) :
    Takes (do return f (← x)) bs (f a) :=
  hx.bind_nil (Takes.pure (f a))

theorem Takes.giving {x : EStateM ε Reader α} {bs : List UInt8} {a b : α} (h : Takes x bs a)
    (ha : a = b) : Takes x bs b := ha ▸ h

/-- What a computation takes from the front of some bytes is determined by the bytes. -/
theorem Takes.unique {x : EStateM ε Reader α} {bs cs t u : List UInt8} {a b : α} (h₁ : Takes x bs a)
    (h₂ : Takes x cs b) (h : bs ++ t = cs ++ u) : bs = cs ∧ a = b ∧ t = u := by
  have e₁ := h₁ 0 t
  have e₂ := h₂ 0 u
  rw [h, e₂] at e₁
  simp only [EStateM.Result.ok.injEq, Reader.mk.injEq] at e₁
  obtain ⟨ha, -, ht⟩ := e₁
  subst ht
  exact ⟨List.append_cancel_right h, ha.symm, rfl⟩

theorem Repeats.pure (a : α) : Repeats (fun _ => Pure.pure a) (Pure.pure a : EStateM ε Reader α) := by
  rintro r b r' h
  change EStateM.Result.ok a r = _ at h
  cases h
  exact ⟨[], Reader.Past.refl r, fun _ _ => Takes.pure a⟩

theorem Repeats.throw {X : Nat → EStateM ε Reader α} (e : ε) : Repeats X (MonadExcept.throw e) := by
  rintro r b r' h
  cases h

theorem Repeats.bind {X : Nat → EStateM ε Reader α} {x : EStateM ε Reader α}
    {F : α → Nat → EStateM ε Reader β} {f : α → EStateM ε Reader β} (hx : Repeats X x)
    (hf : ∀ a, Repeats (F a) (f a)) : Repeats (fun n => X n >>= fun a => F a n) (x >>= f) := by
  intro r b r' h
  obtain ⟨a, r₁, h₁, h₂⟩ := bind_eq_ok.mp h
  obtain ⟨bs, hp, ht⟩ := hx _ _ _ h₁
  obtain ⟨cs, hp', ht'⟩ := hf a _ _ _ h₂
  refine ⟨bs ++ cs, hp.trans hp', fun fuel hl => ?_⟩
  rw [List.length_append] at hl
  exact (ht fuel (by omega)).bind (ht' fuel (by omega))

theorem Repeats.map {X : Nat → EStateM ε Reader α} {x : EStateM ε Reader α} {f : α → β}
    (hx : Repeats X x) : Repeats (fun n => do return f (← X n)) (do return f (← x)) :=
  hx.bind fun a => Repeats.pure (f a)

theorem Repeats.ite {X Y : Nat → EStateM ε Reader α} {x y : EStateM ε Reader α} {p : Prop}
    [Decidable p] (hx : Repeats X x) (hy : Repeats Y y) :
    Repeats (fun n => if p then X n else Y n) (if p then x else y) := by
  by_cases h : p
  · simp only [h, if_true]
    exact hx
  · simp only [h, if_false]
    exact hy

/-- A sequence advances when its first part does. -/
theorem Advances.bind {x : EStateM ε Reader α} {f : α → EStateM ε Reader β} (hx : Advances x) :
    Advances (x >>= f) := by
  intro pos b r' h
  obtain ⟨a, r₁, h₁, -⟩ := bind_eq_ok.mp h
  exact hx pos a r₁ h₁

theorem Advances.ne_nil {x : EStateM ε Reader α} {bs : List UInt8} {a : α} (hx : Advances x)
    (h : Takes x bs a) : bs ≠ [] := by
  rintro rfl
  exact hx _ _ _ (h 0 [])

end ProtoBind
