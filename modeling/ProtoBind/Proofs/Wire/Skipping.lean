/-
Passing over a value, exactly.

A value is passed over just where the grammar has one (`Reader.skipType_eq_ok_iff`),
and everything else is refused as wire data that is malformed or ends too
early (`Reader.skipType_throws`).
-/
import ProtoBind.Proofs.Wire.Lockstep

namespace ProtoBind

variable {α β : Type}

/-- Bytes that are a value of a wire type; a number that is no wire type has no values. -/
def ValueOf (wireType : Int) (bs : List UInt8) : Prop := ∃ w : Nat, wireType = w ∧ WireValue w bs

theorem WireValue.ne_nil {w : Nat} {bs : List UInt8} (h : WireValue w bs) : bs ≠ [] := by
  cases h with
  | varint h | groupEnd h => exact h.ne_nil
  | fixed64 h | fixed32 h => exact fun he => by simp [he] at h
  | delimited h | groupField h => exact fun he => h.ne_nil (List.append_eq_nil_iff.mp he).1

/-! ## Faults -/

/-- A fault of wire data: they are malformed, or end too early. -/
def WireFault.IsMalformed (e : WireFault) : Prop := e ≠ .notText

/-- Fails only on malformed wire data. -/
def Reader.Throws (x : Read α) : Prop := ∀ r e r', x r = .error e r' → e.IsMalformed

namespace Reader

theorem Throws.pure (a : α) : Throws (Pure.pure a : Read α) := nofun

theorem Throws.bind {x : Read α} {f : α → Read β} (hx : Throws x) (hf : ∀ a, Throws (f a)) : Throws (x >>= f) := by
  intro r e r' h
  rcases bind_eq_error.mp h with h | ⟨a, r₁, -, h⟩
  · exact hx r e r' h
  · exact hf a r₁ e r' h

theorem Throws.map {x : Read α} (f : α → β) (hx : Throws x) : Throws (do return f (← x)) :=
  hx.bind fun a => .pure (f a)

theorem Throws.ite {p : Prop} [Decidable p] {x y : Read α} (hx : Throws x) (hy : Throws y) :
    Throws (if p then x else y) := by
  split
  · exact hx
  · exact hy

theorem byte_throws : Throws byte := by
  rintro ⟨pos, _ | ⟨b, rest⟩⟩ e r' h
  · cases h
    exact nofun
  · cases h

theorem take_throws (n : Nat) : Throws (take n) := by
  intro r e r' h
  simp only [take] at h
  split at h
  · cases h
    intro he
    cases he
  · cases h

theorem varintUpTo_throws : ∀ limit, Throws (varintUpTo limit)
  | 0 => by
    intro r e r' h
    cases h
    exact nofun
  | limit + 1 => byte_throws.bind fun _ => .ite (.pure _) ((varintUpTo_throws limit).map _)

theorem uint32_throws : Throws uint32 := (varintUpTo_throws 10).map _

theorem skip_throws (n : Nat) : Throws (skip n) := (take_throws n).map _

theorem skipWith_throws {group : Read Unit} (h : Throws group) (w : Int) : Throws (skipWith group w) := by
  have hwrong : Throws (fun r => .error (.badWireType w r.pos) r : Read Unit) := by
    intro r e r' h
    cases h
    exact nofun
  exact .ite ((varintUpTo_throws 10).map _) (.ite (skip_throws 8) (.ite (uint32_throws.bind fun n => skip_throws n)
    (.ite h (.ite (skip_throws 4) hwrong))))

theorem skipGroup_throws : ∀ fuel, Throws (skipGroup fuel)
  | 0 => by
    intro r e r' h
    cases h
    exact nofun
  | fuel + 1 => uint32_throws.bind fun _ =>
    .ite (.pure ()) ((skipWith_throws (skipGroup_throws fuel) _).bind fun _ => skipGroup_throws fuel)

theorem skipType_throws (w : Int) : Throws (skipType w) := fun r e r' h =>
  skipWith_throws (skipGroup_throws _) w r e r' h

/-! ## Values -/

theorem skipWith_unknown {group : Read Unit} {w : Int} (h : ∀ k ∈ [0, 1, 2, 3, 5], w ≠ (k : Nat)) (r : Reader) :
    skipWith group w r = .error (.badWireType w r.pos) r := by
  simp only [List.forall_mem_cons, List.not_mem_nil, false_implies, implies_true, and_true] at h
  obtain ⟨h0, h1, h2, h3, h5⟩ : w ≠ 0 ∧ w ≠ 1 ∧ w ≠ 2 ∧ w ≠ 3 ∧ w ≠ 5 := h
  simp only [skipWith, h0, h1, h2, h3, if_false]
  exact congrFun (if_neg h5) r

/-- **A value is passed over just where there is one.** -/
theorem skipType_eq_ok_iff {w : Int} {r r' : Reader} :
    skipType w r = .ok () r' ↔ ∃ bs, r.Past bs r' ∧ ValueOf w bs := by
  constructor
  · intro h
    by_cases hw : ∀ k ∈ [0, 1, 2, 3, 5], w ≠ (k : Nat)
    · cases (skipWith_unknown hw r).symm.trans h
    · push Not at hw
      obtain ⟨k, -, rfl⟩ := hw
      obtain ⟨bs, hpast, hvalue⟩ := skipType_sound h
      exact ⟨bs, hpast, k, rfl, hvalue⟩
  · rintro ⟨bs, ⟨hrest, hpos⟩, k, rfl, hvalue⟩
    have h := skipType_takes hvalue r.pos r'.rest
    rw [← hrest, ← hpos] at h
    exact h

/-- **Passing over takes exactly one well-formed value.** It succeeds and ends at a place just when the bytes up to there
are a value of the wire type; no two beginnings of some bytes are, so the place is the only one. Otherwise the wire data
are refused as malformed. A success moves ahead, and no group needs more rounds than there are bytes. -/
theorem skipType_exact (w : Int) :
    (∀ r r', skipType w r = .ok () r' ↔ ∃ bs, r.Past bs r' ∧ ValueOf w bs) ∧
    (∀ bs cs t u, ValueOf w bs → ValueOf w cs → bs ++ t = cs ++ u → bs = cs) ∧
    (∀ r, (∃ r', skipType w r = .ok () r' ∧ r.pos < r'.pos) ∨
      ∃ e r', skipType w r = .error e r' ∧ e.IsMalformed) ∧
    ∀ r fuel, r.rest.length < fuel → skipWith (skipGroup fuel) w r = skipType w r := by
  refine ⟨fun _ _ => skipType_eq_ok_iff, ?_, fun r => ?_, fun r fuel hfuel => ?_⟩
  · rintro bs cs t u ⟨k, hk, hbs⟩ ⟨k', hk', hcs⟩ he
    obtain rfl : k = k' := by omega
    exact ((skipType_takes hbs).unique (skipType_takes hcs) he).1
  · cases h : skipType w r with
    | ok u r' =>
      obtain ⟨bs, ⟨-, hpos⟩, k, -, hvalue⟩ := skipType_eq_ok_iff.mp h
      have := List.length_pos_iff.mpr hvalue.ne_nil
      exact .inl ⟨r', rfl, by omega⟩
    | error e r' => exact .inr ⟨e, r', rfl, skipType_throws w r e r' h⟩
  · exact (skipWith_inStep (skipGroup_inStep hfuel (Nat.le_refl _)) w r (Nat.lt_succ_self _)).eq

end Reader
end ProtoBind
