/-
What a message class reads, record by record.

`Run T s bs s'` is a run of steps that take the bytes `bs` one part after
another. The loops of the decoder are such runs (`upTo_takes`, `upTo_sound`),
and a byte string is a message exactly when it is a run of records from a
fresh instance (`Library.ofBytes_eq_ok_iff`). One record is `Library.Reads`:
it is read in the same way at any place and under any fuel that its bytes
allow, because nothing in the decoder looks beyond what it takes
(`Library.readRecord_repeats`).
-/
import ProtoBind.Message.Decode
import ProtoBind.Proofs.Wire.Grammar

namespace ProtoBind.Message

open Decode

variable {σ α β : Type}

/-! ## Runs of steps -/

/-- Zero or more steps, each with the bytes it takes. -/
inductive Run (T : σ → List UInt8 → σ → Prop) : σ → List UInt8 → σ → Prop
  | nil (s : σ) : Run T s [] s
  | cons {s s₁ s₂ : σ} {bs cs : List UInt8} (step : T s bs s₁) (rest : Run T s₁ cs s₂) :
      Run T s (bs ++ cs) s₂

/-- A run that goes on while there are bytes left of the `n` it was given. -/
inductive Steps (T : σ → List UInt8 → σ → Prop) : Nat → σ → List UInt8 → σ → Prop
  | done (s : σ) : Steps T 0 s [] s
  | next {n : Nat} {s s₁ s₂ : σ} {bs cs : List UInt8} (more : n ≠ 0) (step : T s bs s₁)
      (rest : Steps T (n - bs.length) s₁ cs s₂) : Steps T n s (bs ++ cs) s₂

theorem Run.one {T : σ → List UInt8 → σ → Prop} {s s' : σ} {bs : List UInt8} (h : T s bs s') :
    Run T s bs s' := by
  have := Run.cons h (.nil s')
  rwa [List.append_nil] at this

theorem Run.trans {T : σ → List UInt8 → σ → Prop} {s s₁ s₂ : σ} {bs cs : List UInt8}
    (h₁ : Run T s bs s₁) (h₂ : Run T s₁ cs s₂) : Run T s (bs ++ cs) s₂ := by
  induction h₁ with
  | nil => exact h₂
  | cons step _ ih =>
    rw [List.append_assoc]
    exact .cons step (ih h₂)

theorem Steps.run {T : σ → List UInt8 → σ → Prop} {n : Nat} {s s' : σ} {bs : List UInt8}
    (h : Steps T n s bs s') : Run T s bs s' := by
  induction h with
  | done s => exact .nil s
  | next _ step _ ih => exact .cons step ih

/-- A run of steps that all take bytes goes on for exactly its bytes. -/
theorem Run.steps {T : σ → List UInt8 → σ → Prop} (hT : ∀ {s bs s'}, T s bs s' → bs ≠ []) {s s' : σ}
    {bs : List UInt8} (h : Run T s bs s') : Steps T bs.length s bs s' := by
  induction h with
  | nil s => exact .done s
  | cons step _ ih =>
    have hpos := List.length_pos_iff.mpr (hT step)
    rw [List.length_append]
    refine .next (by omega) step ?_
    rw [Nat.add_sub_cancel_left]
    exact ih

theorem Steps.le_length {T : σ → List UInt8 → σ → Prop} {n : Nat} {s s' : σ} {bs : List UInt8}
    (h : Steps T n s bs s') : n ≤ bs.length := by
  induction h with
  | done => exact Nat.le_refl 0
  | next _ _ _ ih =>
    rw [List.length_append]
    omega

theorem Steps.mono {T U : σ → List UInt8 → σ → Prop} {n : Nat} {s s' : σ} {bs : List UInt8}
    (h : Steps T n s bs s') (hTU : ∀ {s cs s'}, cs.length ≤ bs.length → T s cs s' → U s cs s') :
    Steps U n s bs s' := by
  induction h with
  | done s => exact .done s
  | next more step _ ih =>
    refine .next more (hTU (by rw [List.length_append]; omega) step) (ih fun hl => hTU ?_)
    rw [List.length_append]
    omega

/-- A run from one state that starts with the bytes of another goes on where the other ends. -/
theorem Run.rest {T : σ → List UInt8 → σ → Prop}
    (hu : ∀ {s bs cs t u s₁ s₂}, T s bs s₁ → T s cs s₂ → bs ++ t = cs ++ u → bs = cs ∧ s₁ = s₂ ∧ t = u)
    (hT : ∀ {s bs s'}, T s bs s' → bs ≠ []) {s s₁ s₂ : σ} {bs cs ds : List UInt8}
    (h₁ : Run T s bs s₁) (h₂ : Run T s ds s₂) (hd : ds = bs ++ cs) : Run T s₁ cs s₂ := by
  induction h₁ generalizing ds with
  | nil s =>
    subst hd
    exact h₂
  | @cons s s' s₁ b bs step _ ih =>
    cases h₂ with
    | nil =>
      simp only [List.nil_eq, List.append_eq_nil_iff] at hd
      exact absurd hd.1.1 (hT step)
    | @cons _ s'' _ b' bs' step' rest' =>
      rw [List.append_assoc] at hd
      obtain ⟨rfl, rfl, rfl⟩ := hu step' step hd
      exact ih rest' rfl

/-! ## Loops up to a position -/

/-- With `n` bytes left before the position, the computation takes exactly the bytes. -/
def TakesUpTo (n : Nat) (f : Nat → Decode α) (bs : List UInt8) (a : α) : Prop :=
  ∀ pos stop tail, stop - pos = n → f stop ⟨pos, bs ++ tail⟩ = .ok a ⟨pos + bs.length, tail⟩

/-- As `Repeats`, for computations up to a position. -/
def RepeatsUpTo (F : Nat → Nat → Decode α) (f : Nat → Decode α) : Prop :=
  ∀ stop r a r', f stop r = .ok a r' →
    ∃ bs, r.Past bs r' ∧ ∀ fuel, bs.length < fuel → TakesUpTo (stop - r.pos) (F fuel) bs a

theorem stepsUpTo_takes {step : σ → Decode σ} (ha : ∀ s, Advances (step s)) {n : Nat} {s s' : σ}
    {bs : List UInt8} (h : Steps (fun s => Takes (step s)) n s bs s') :
    ∀ fuel, bs.length < fuel → TakesUpTo n (fun stop => stepsUpTo stop step fuel s) bs s' := by
  induction h with
  | done s =>
    intro fuel hf pos stop tail hn
    obtain ⟨fuel, rfl⟩ : ∃ k, fuel = k + 1 := ⟨fuel - 1, by omega⟩
    have hp : ¬ pos < stop := by omega
    show (if pos < stop then _ else _ : Decode σ) _ = _
    simp only [hp, if_false]
    rfl
  | @next n s s₁ s₂ bs cs more step' _ ih =>
    intro fuel hf pos stop tail hn
    have hb := List.length_pos_iff.mpr ((ha s).ne_nil step')
    rw [List.length_append] at hf
    obtain ⟨fuel, rfl⟩ : ∃ k, fuel = k + 1 := ⟨fuel - 1, by omega⟩
    have hp : pos < stop := by omega
    show (if pos < stop then (step s >>= fun s => stepsUpTo stop step fuel s) else _ : Decode σ) _ = _
    simp only [hp, if_true]
    refine bind_eq_ok.mpr ⟨s₁, ⟨pos + bs.length, cs ++ tail⟩, ?_, ?_⟩
    · rw [List.append_assoc]
      exact step' pos (cs ++ tail)
    · rw [List.length_append, ← Nat.add_assoc]
      exact ih fuel (by omega) (pos + bs.length) stop tail (by omega)

/-- A loop takes the bytes of its steps. -/
theorem upTo_takes {step : σ → Decode σ} (ha : ∀ s, Advances (step s)) {n : Nat} {s s' : σ}
    {bs : List UInt8} (h : Steps (fun s => Takes (step s)) n s bs s') :
    TakesUpTo n (fun stop => upTo stop step s) bs s' := by
  intro pos stop tail hn
  exact stepsUpTo_takes ha h _ (by simp only [List.length_append]; omega) pos stop tail hn

/-- A loop that ended was a run of steps; `T` is what its single steps are known to do. -/
theorem stepsUpTo_sound {step : σ → Decode σ} {T : σ → List UInt8 → σ → Prop}
    (hstep : ∀ s r s' r', step s r = .ok s' r' → ∃ bs, bs ≠ [] ∧ r.Past bs r' ∧ T s bs s') {stop : Nat} :
    ∀ {fuel : Nat} {s s' : σ} {r r' : Reader}, r.rest.length < fuel →
      stepsUpTo stop step fuel s r = .ok s' r' →
      ∃ bs, r.Past bs r' ∧ Steps T (stop - r.pos) s bs s'
  | 0, _, _, _, _, hf, _ => by omega
  | fuel + 1, s, s', r, r', hf, h => by
    change (if r.pos < stop then (step s >>= fun s => stepsUpTo stop step fuel s) else pure s : Decode σ) r = _ at h
    by_cases hp : r.pos < stop
    · simp only [hp, if_true] at h
      obtain ⟨s₁, r₁, h₁, h₂⟩ := bind_eq_ok.mp h
      obtain ⟨bs, hb, hpast, hT⟩ := hstep _ _ _ _ h₁
      have hpos := List.length_pos_iff.mpr hb
      have hlen : r.rest.length = bs.length + r₁.rest.length := by rw [hpast.1, List.length_append]
      obtain ⟨cs, hpast', hs⟩ := stepsUpTo_sound hstep (by omega) h₂
      refine ⟨bs ++ cs, hpast.trans hpast', .next (by omega) hT ?_⟩
      rw [hpast.2] at hs
      rwa [Nat.sub_sub]
    · simp only [hp, if_false] at h
      cases h
      refine ⟨[], Reader.Past.refl r, ?_⟩
      rw [show stop - r.pos = 0 by omega]
      exact .done s

/-- One step of a family takes the bytes, under any fuel that they allow. -/
def Ample (S : Nat → σ → Decode σ) (s : σ) (bs : List UInt8) (s' : σ) : Prop :=
  ∀ fuel, bs.length ≤ fuel → Takes (S fuel s) bs s'

theorem Ample.ne_nil {S : Nat → σ → Decode σ} (ha : ∀ fuel s, Advances (S fuel s)) {s s' : σ}
    {bs : List UInt8} (h : Ample S s bs s') : bs ≠ [] :=
  (ha _ s).ne_nil (h _ (Nat.le_refl _))

theorem Ample.unique {S : Nat → σ → Decode σ} {s s₁ s₂ : σ} {bs cs t u : List UInt8}
    (h₁ : Ample S s bs s₁) (h₂ : Ample S s cs s₂) (h : bs ++ t = cs ++ u) :
    bs = cs ∧ s₁ = s₂ ∧ t = u :=
  (h₁ (bs.length + cs.length) (by omega)).unique (h₂ (bs.length + cs.length) (by omega)) h

/-- A loop that ended was a run of steps that can be repeated. -/
theorem upTo_sound {S : Nat → σ → Decode σ} {step : σ → Decode σ}
    (hr : ∀ s, Repeats (fun fuel => S fuel s) (step s)) (ha : ∀ fuel s, Advances (S fuel s)) {stop : Nat}
    {s s' : σ} {r r' : Reader} (h : upTo stop step s r = .ok s' r') :
    ∃ bs, r.Past bs r' ∧ Steps (Ample S) (stop - r.pos) s bs s' := by
  refine stepsUpTo_sound (fun s r s' r' h => ?_) (Nat.lt_succ_self _) h
  obtain ⟨bs, hp, ht⟩ := hr s r s' r' h
  exact ⟨bs, Ample.ne_nil ha ht, hp, ht⟩

theorem Steps.upTo {S : Nat → σ → Decode σ} (ha : ∀ fuel s, Advances (S fuel s)) {n : Nat} {s s' : σ}
    {bs : List UInt8} (h : Steps (Ample S) n s bs s') {fuel : Nat} (hf : bs.length ≤ fuel) :
    TakesUpTo n (fun stop => Decode.upTo stop (S fuel) s) bs s' :=
  upTo_takes (ha fuel) (h.mono fun hl ht => ht fuel (Nat.le_trans hl hf))

/-- A loop of steps that repeat repeats as a whole. -/
theorem upTo_repeats {S : Nat → σ → Decode σ} {step : σ → Decode σ}
    (hr : ∀ s, Repeats (fun fuel => S fuel s) (step s)) (ha : ∀ fuel s, Advances (S fuel s)) (s : σ) :
    RepeatsUpTo (fun fuel stop => upTo stop (S fuel) s) (fun stop => upTo stop step s) := by
  intro stop r s' r' h
  obtain ⟨bs, hp, hs⟩ := upTo_sound hr ha h
  exact ⟨bs, hp, fun fuel hf => hs.upTo ha (Nat.le_of_lt hf)⟩

theorem TakesUpTo.bind {n : Nat} {f : Nat → Decode α} {g : α → Decode β} {bs cs : List UInt8} {a : α}
    {b : β} (hf : TakesUpTo n f bs a) (hg : Takes (g a) cs b) :
    TakesUpTo n (fun stop => f stop >>= g) (bs ++ cs) b := by
  intro pos stop tail hn
  refine bind_eq_ok.mpr ⟨a, ⟨pos + bs.length, cs ++ tail⟩, ?_, ?_⟩
  · rw [List.append_assoc]
    exact hf pos stop (cs ++ tail) hn
  · rw [List.length_append, ← Nat.add_assoc]
    exact hg (pos + bs.length) tail

theorem TakesUpTo.bind_nil {n : Nat} {f : Nat → Decode α} {g : α → Decode β} {bs : List UInt8} {a : α}
    {b : β} (hf : TakesUpTo n f bs a) (hg : Takes (g a) [] b) : TakesUpTo n (fun stop => f stop >>= g) bs b := by
  have h := hf.bind hg
  rwa [List.append_nil] at h

theorem RepeatsUpTo.bind {F : Nat → Nat → Decode α} {f : Nat → Decode α} {g : α → Decode β}
    (hf : RepeatsUpTo F f) (hg : ∀ a, Local (g a)) :
    RepeatsUpTo (fun fuel stop => F fuel stop >>= g) (fun stop => f stop >>= g) := by
  intro stop r b r' h
  obtain ⟨a, r₁, h₁, h₂⟩ := bind_eq_ok.mp h
  obtain ⟨bs, hp, ht⟩ := hf _ _ _ _ h₁
  obtain ⟨cs, hp', ht'⟩ := hg a _ _ _ h₂
  refine ⟨bs ++ cs, hp.trans hp', fun fuel hl => ?_⟩
  rw [List.length_append] at hl
  exact (ht fuel (by omega)).bind (ht' cs.length (Nat.le_refl _))

theorem RepeatsUpTo.throw {F : Nat → Nat → Decode α} (e : Fault) :
    RepeatsUpTo F (fun _ => MonadExcept.throw e) := by
  rintro stop r a r' h
  cases h

/-! ## Parts of the decoder -/

theorem ofRead_takes {x : Read α} {bs : List UInt8} {a : α} (h : Takes x bs a) : Takes (ofRead x) bs a := by
  intro pos tail
  simp only [ofRead, h pos tail]

theorem ofRead_sound {x : Read α} {r r' : Reader} {a : α} (h : ofRead x r = .ok a r') : x r = .ok a r' := by
  simp only [ofRead] at h
  split at h
  next hx =>
    cases h
    exact hx
  · cases h

theorem ofRead_local {x : Read α} (hx : Local x) : Local (ofRead x) := by
  intro r a r' h
  obtain ⟨bs, hp, ht⟩ := hx _ _ _ (ofRead_sound h)
  exact ⟨bs, hp, fun fuel hf => ofRead_takes (ht fuel hf)⟩

theorem ofRead_advances {x : Read α} (hx : Advances x) : Advances (ofRead x) := fun pos a r' h =>
  hx pos a r' (ofRead_sound h)

theorem ofExcept_takes (a : α) : Takes (ofExcept (.ok a : Except Fault α) : Decode α) [] a := Takes.pure a

theorem ofExcept_local (e : Except Fault α) : Local (ofExcept e : Decode α) := by
  cases e with
  | error e => exact Repeats.throw e
  | ok a => exact Repeats.pure a

theorem runEnd_advances {f : Nat → Decode α} : Advances (runEnd >>= f) :=
  Advances.bind (Advances.bind (ofRead_advances Reader.uint32_advances))

/-- A length and then a computation up to the position it gives. -/
theorem runEnd_takes {f : Nat → Decode α} {ls bs : List UInt8} {n : Nat} {a : α} (h : Varint 10 ls n)
    (hf : TakesUpTo (n % Nat.pow 2 32) f bs a) : Takes (runEnd >>= f) (ls ++ bs) a := by
  intro pos tail
  refine bind_eq_ok.mpr ⟨n % Nat.pow 2 32 + (pos + ls.length), ⟨pos + ls.length, bs ++ tail⟩, ?_, ?_⟩
  · rw [List.append_assoc]
    refine bind_eq_ok.mpr ⟨_, _, ofRead_takes (Reader.uint32_takes h) pos (bs ++ tail), rfl⟩
  · have := hf (pos + ls.length) _ tail (Nat.add_sub_cancel (n % Nat.pow 2 32) (pos + ls.length))
    rwa [Nat.add_assoc, ← List.length_append] at this

theorem runEnd_repeats {F : Nat → Nat → Decode α} {f : Nat → Decode α} (hf : RepeatsUpTo F f) :
    Repeats (fun fuel => runEnd >>= F fuel) (runEnd >>= f) := by
  intro r a r' h
  obtain ⟨stop, r₁, h₁, h₂⟩ := bind_eq_ok.mp h
  obtain ⟨k, r₂, hk, h₁⟩ := bind_eq_ok.mp h₁
  cases h₁
  obtain ⟨ls, n, hp, hv, rfl⟩ := Reader.uint32_sound (ofRead_sound hk)
  obtain ⟨bs, hp', ht⟩ := hf _ _ _ _ h₂
  have hl := List.length_pos_iff.mpr hv.ne_nil
  refine ⟨ls ++ bs, hp.trans hp', fun fuel hfuel => runEnd_takes hv ?_⟩
  rw [List.length_append] at hfuel
  have := ht fuel (by omega)
  rwa [show n % Nat.pow 2 32 + r₁.pos - r₁.pos = n % Nat.pow 2 32 from Nat.add_sub_cancel ..] at this

namespace Library

variable (lib : Library)

/-- The reader of nested messages repeats under fuel. -/
def NestedRepeats (nested : Nested) : Prop :=
  ∀ type, RepeatsUpTo (fun fuel => lib.decodeUpTo fuel type) (nested type)

variable {lib} {nested : Nested}

theorem readElement_repeats (hn : lib.NestedRepeats nested) : ∀ e : Element,
    Repeats (fun fuel => lib.readElement (lib.decodeUpTo fuel) e) (lib.readElement nested e)
  | .scalar k => ofRead_local (Reader.scalar_local k)
  | .enum _ => (ofRead_local Reader.uint32_local.map).map
  | .message type => runEnd_repeats (hn type)

theorem readElement_advances (nested : Nested) : ∀ e : Element, Advances (lib.readElement nested e)
  | .scalar k => ofRead_advances (Reader.scalar_advances k)
  | .enum _ => (ofRead_advances Reader.uint32_advances.bind).bind
  | .message _ => runEnd_advances

theorem readPart_repeats (hn : lib.NestedRepeats nested) (p : FieldCodec) :
    Repeats (fun fuel => lib.readPart (lib.decodeUpTo fuel) p) (lib.readPart nested p) := by
  unfold readPart
  split
  · exact readElement_repeats hn _
  · exact Repeats.throw _
  · exact (ofRead_local Reader.uint32_local.map).map.bind fun _ => Repeats.throw _

theorem readPart_advances (nested : Nested) (p : FieldCodec) : Advances (lib.readPart nested p) := by
  unfold readPart
  split
  · exact readElement_advances nested _
  · rintro pos v r' ⟨⟩
  · exact (ofRead_advances Reader.uint32_advances.bind).bind.bind

theorem readEntryPart_advances (nested : Nested) (key : Scalar) (p : FieldCodec) (entry : MapEntry) :
    Advances (lib.readEntryPart nested key p entry) :=
  (ofRead_advances Reader.uint32_advances).bind

theorem readEntryPart_repeats (hn : lib.NestedRepeats nested) (key : Scalar) (p : FieldCodec)
    (entry : MapEntry) :
    Repeats (fun fuel => lib.readEntryPart (lib.decodeUpTo fuel) key p entry)
      (lib.readEntryPart nested key p entry) := by
  refine (ofRead_local Reader.uint32_local).bind fun tag => ?_
  refine Repeats.ite (ofRead_local (Reader.scalar_local key)).map ?_
  refine Repeats.ite (readPart_repeats hn p).map ?_
  exact (ofRead_local (Reader.skipType_local _)).bind fun _ => Repeats.pure entry

theorem readEntry_repeats (hn : lib.NestedRepeats nested) (c : MessageClass) (p : FieldCodec)
    (key : Scalar) (m : Instance) :
    Repeats (fun fuel => lib.readEntry (lib.decodeUpTo fuel) c p key m) (lib.readEntry nested c p key m) := by
  refine runEnd_repeats ?_
  cases lib.missingPart p with
  | error e => exact RepeatsUpTo.throw e
  | ok v =>
    exact (upTo_repeats (readEntryPart_repeats hn key p)
      (fun fuel => readEntryPart_advances _ key p) ⟨key.zero, v⟩).bind fun entry => ofExcept_local _

theorem readItem_repeats (hn : lib.NestedRepeats nested) (c : MessageClass) (p : FieldCodec)
    (m : Instance) :
    Repeats (fun fuel => lib.readItem (lib.decodeUpTo fuel) c p m) (lib.readItem nested c p m) := by
  refine (ofExcept_local (c.get m p.target)).bind fun held => ?_
  split
  · exact (readPart_repeats hn p).bind fun v => ofExcept_local _
  · exact Repeats.throw _

theorem readItem_advances (nested : Nested) (c : MessageClass) (p : FieldCodec) (m : Instance) :
    Advances (lib.readItem nested c p m) := by
  intro pos m' r' h
  obtain ⟨held, r₁, h₁, h⟩ := bind_eq_ok.mp h
  cases hg : c.get m p.target with
  | error e =>
    rw [hg] at h₁
    cases h₁
  | ok v =>
    rw [hg] at h₁
    cases h₁
    split at h
    · exact (readPart_advances nested p).bind pos m' r' h
    · cases h

theorem readField_repeats (hn : lib.NestedRepeats nested) (c : MessageClass) (p : FieldCodec)
    (wireType : Nat) (m : Instance) :
    Repeats (fun fuel => lib.readField (lib.decodeUpTo fuel) c p wireType m)
      (lib.readField nested c p wireType m) := by
  simp only [readField]
  cases p.arity with
  | map key => exact readEntry_repeats hn c p key m
  | repeated =>
    refine Repeats.ite ?_ (readItem_repeats hn c p m)
    exact runEnd_repeats (upTo_repeats (readItem_repeats hn c p) (fun fuel => readItem_advances _ c p) m)
  | single => exact (readPart_repeats hn p).bind fun v => ofExcept_local _

theorem readRecord_repeats (hn : lib.NestedRepeats nested) (c : MessageClass) (m : Instance) :
    Repeats (fun fuel => lib.readRecord (lib.decodeUpTo fuel) c m) (lib.readRecord nested c m) := by
  refine (ofRead_local Reader.uint32_local).bind fun tag => ?_
  cases c.codecs.find? (·.number == ((tag / 8 : Nat) : Int)) with
  | some p => exact readField_repeats hn c p (tag % 8) m
  | none => exact (ofRead_local (Reader.skipType_local _)).bind fun _ => Repeats.pure m

theorem readRecord_advances (nested : Nested) (c : MessageClass) (m : Instance) :
    Advances (lib.readRecord nested c m) :=
  (ofRead_advances Reader.uint32_advances).bind

/-- Where reading takes a field for what it is declared to hold. -/
theorem readPart_eq {p : FieldCodec} (h : p.read = some p.element) (nested : Nested) :
    lib.readPart nested p = lib.readElement nested p.element := by
  rw [readPart, h]

theorem missingPart_eq {p : FieldCodec} (h : p.read = some p.element) :
    lib.missingPart p = lib.missingValue p.element := by
  rw [missingPart, h]

/-- One record of a class, from one instance to another. -/
def Reads (lib : Library) (c : MessageClass) : Instance → List UInt8 → Instance → Prop :=
  Ample fun fuel => lib.readRecord (lib.decodeUpTo fuel) c

theorem Reads.ne_nil {c : MessageClass} {m m' : Instance} {bs : List UInt8} (h : lib.Reads c m bs m') :
    bs ≠ [] :=
  Ample.ne_nil (fun _ => readRecord_advances _ c) h

theorem Reads.unique {c : MessageClass} {m m₁ m₂ : Instance} {bs cs t u : List UInt8}
    (h₁ : lib.Reads c m bs m₁) (h₂ : lib.Reads c m cs m₂) (h : bs ++ t = cs ++ u) :
    bs = cs ∧ m₁ = m₂ ∧ t = u :=
  Ample.unique h₁ h₂ h

/-- Reading a message is a loop over its records. -/
theorem decodeUpTo_succ {type : String} {c : MessageClass} {m₀ : Instance} (hc : lib.message? type = some c)
    (h₀ : c.fresh = .ok m₀) (fuel stop : Nat) :
    lib.decodeUpTo (fuel + 1) type stop =
      (upTo stop (lib.readRecord (lib.decodeUpTo fuel) c) m₀ >>= fun m => pure m.value) := by
  simp only [decodeUpTo, hc, h₀]
  rfl

theorem decodeUpTo_sound {type : String} {fuel stop : Nat} {r r' : Reader} {v : Value}
    (hn : ∀ fuel' < fuel, lib.NestedRepeats (lib.decodeUpTo fuel')) (h : lib.decodeUpTo fuel type stop r = .ok v r') :
    ∃ c m₀ m bs, lib.message? type = some c ∧ c.fresh = .ok m₀ ∧ r.Past bs r' ∧
      Steps (lib.Reads c) (stop - r.pos) m₀ bs m ∧ v = m.value := by
  cases fuel with
  | zero => cases h
  | succ fuel =>
    cases hc : lib.message? type with
    | none =>
      simp only [decodeUpTo, hc] at h
      cases h
    | some c =>
      cases h₀ : c.fresh with
      | error e =>
        simp only [decodeUpTo, hc, h₀] at h
        cases h
      | ok m₀ =>
        rw [decodeUpTo_succ hc h₀] at h
        obtain ⟨m, r₁, h₁, h₂⟩ := bind_eq_ok.mp h
        cases h₂
        obtain ⟨bs, hp, hs⟩ := upTo_sound (readRecord_repeats (hn fuel (Nat.lt_succ_self _)) c)
          (fun _ => readRecord_advances _ c) h₁
        exact ⟨c, m₀, m, bs, rfl, h₀, hp, hs, rfl⟩

theorem Reads.decodeUpTo {type : String} {c : MessageClass} {m₀ m : Instance} {bs : List UInt8} {n fuel : Nat}
    (hc : lib.message? type = some c) (h₀ : c.fresh = .ok m₀) (h : Steps (lib.Reads c) n m₀ bs m)
    (hf : bs.length < fuel) : TakesUpTo n (lib.decodeUpTo fuel type) bs m.value := by
  obtain ⟨fuel, rfl⟩ : ∃ k, fuel = k + 1 := ⟨fuel - 1, by omega⟩
  have ht := (h.upTo (fun _ => readRecord_advances _ c) (Nat.le_of_lt_succ hf)).bind_nil
    (g := fun m => pure m.value) (Takes.pure m.value)
  intro pos stop tail hn
  rw [decodeUpTo_succ hc h₀]
  exact ht pos stop tail hn

/-- A message that was read once is read in the same way everywhere. -/
theorem decodeUpTo_repeats (lib : Library) (fuel : Nat) : lib.NestedRepeats (lib.decodeUpTo fuel) := by
  induction fuel using Nat.strongRecOn with
  | ind fuel ih =>
    intro type stop r v r' h
    obtain ⟨c, m₀, m, bs, hc, h₀, hp, hs, rfl⟩ := decodeUpTo_sound ih h
    exact ⟨bs, hp, fun fuel' hf => Reads.decodeUpTo hc h₀ hs hf⟩

/-! ## Whole messages -/

/-- The records of a message one after another. -/
abbrev RunOf (lib : Library) (c : MessageClass) : Instance → List UInt8 → Instance → Prop :=
  Run (lib.Reads c)

/-- **A byte string is a message exactly when it is a run of records from a fresh instance.** -/
theorem ofBytes_eq_ok_iff {type : String} {bs : List UInt8} {v : Value} :
    lib.ofBytes type bs = .ok v ↔
      ∃ c m₀ m, lib.message? type = some c ∧ c.fresh = .ok m₀ ∧ lib.RunOf c m₀ bs m ∧ v = m.value := by
  have hb : lib.ofBytes type bs = .ok v ↔
      ∃ r', lib.decodeUpTo (bs.length + 1) type bs.length ⟨0, bs⟩ = .ok v r' := by
    simp only [ofBytes, decode, Reader.ofBytes, Option.getD_none, Nat.zero_add]
    split
    next w r' hw =>
      rw [hw]
      simp only [Except.ok.injEq, EStateM.Result.ok.injEq, exists_and_left, exists_eq', and_true]
    next e r' hw =>
      rw [hw]
      simp
  rw [hb]
  constructor
  · rintro ⟨r', h⟩
    obtain ⟨c, m₀, m, cs, hc, h₀, ⟨hr, -⟩, hs, rfl⟩ :=
      decodeUpTo_sound (fun fuel _ => decodeUpTo_repeats lib fuel) h
    have hl := hs.le_length
    have hlen := congrArg List.length hr
    rw [List.length_append] at hlen
    simp only [Nat.sub_zero] at hl hlen
    have hnil : r'.rest = [] := List.length_eq_zero_iff.mp (by omega)
    rw [hnil, List.append_nil] at hr
    simp only at hr
    subst hr
    exact ⟨c, m₀, m, hc, h₀, hs.run, rfl⟩
  · rintro ⟨c, m₀, m, hc, h₀, hrun, rfl⟩
    have hs := hrun.steps Reads.ne_nil
    have ht := Reads.decodeUpTo hc h₀ hs (Nat.lt_succ_self _) 0 bs.length [] (Nat.sub_zero _)
    rw [List.append_nil] at ht
    exact ⟨_, ht⟩

end Library

end ProtoBind.Message
