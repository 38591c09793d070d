/-
Results of computations in steps: what the parts did when the whole
succeeded.
-/
import Mathlib.Data.List.Forall2

namespace ProtoBind

variable {ε σ α β : Type}

/-! ## Results with faults -/

theorem bind_ok_iff {x : Except ε α} {f : α → Except ε β} {b : β} :
    x >>= f = .ok b ↔ ∃ a, x = .ok a ∧ f a = .ok b := by
  cases x with
  | ok a =>
    constructor
    · exact fun h => ⟨a, rfl, h⟩
    · rintro ⟨a', h, h'⟩
      cases h
      exact h'
  | error e =>
    constructor
    · intro h
      cases h
    · rintro ⟨a', h, _⟩
      cases h

theorem exists_ok {x : Except ε α} (h : x.toOption.isSome = true) : ∃ a, x = .ok a := by
  cases x with
  | ok a => exact ⟨a, rfl⟩
  | error e => cases h

theorem eq_ok_of_toOption {x : Except ε α} {a : α} (h : x.toOption = some a) : x = .ok a := by
  cases x with
  | ok b => exact congrArg _ (Option.some.inj h)
  | error e => cases h

theorem map_ok_iff {x : Except ε α} {f : α → β} {b : β} :
    (x >>= fun a => pure (f a)) = .ok b ↔ ∃ a, x = .ok a ∧ f a = b := by
  rw [bind_ok_iff]
  exact exists_congr fun a => and_congr_right fun _ => ⟨Except.ok.inj, fun h => by rw [h]; rfl⟩

theorem mapped_ok_iff {x : Except ε α} {f : α → β} {b : β} : x.map f = .ok b ↔ ∃ a, x = .ok a ∧ f a = b := by
  cases x <;> simp [Except.map]

theorem mapError_ok_iff {δ : Type*} {x : Except ε α} {f : ε → δ} {a : α} : x.mapError f = .ok a ↔ x = .ok a := by
  cases x <;> simp [Except.mapError]

theorem mapM_ok_iff {f : α → Except ε β} : ∀ {xs : List α} {ys : List β},
    xs.mapM f = .ok ys ↔ List.Forall₂ (fun x y => f x = .ok y) xs ys
  | [], ys => by
    rw [List.mapM_nil, List.forall₂_nil_left_iff]
    exact ⟨fun h => (Except.ok.inj h).symm, fun h => by rw [h]; rfl⟩
  | x :: xs, ys => by
    rw [List.mapM_cons, bind_ok_iff, List.forall₂_cons_left_iff]
    constructor
    · rintro ⟨y, hy, h⟩
      obtain ⟨zs, hzs, h⟩ := bind_ok_iff.mp h
      exact ⟨y, zs, hy, mapM_ok_iff.mp hzs, (Except.ok.inj h).symm⟩
    · rintro ⟨y, zs, hy, hzs, rfl⟩
      exact ⟨y, hy, bind_ok_iff.mpr ⟨zs, mapM_ok_iff.mpr hzs, rfl⟩⟩

theorem mapM_some_iff {f : α → Option β} : ∀ {xs : List α} {ys : List β},
    xs.mapM f = some ys ↔ List.Forall₂ (fun x y => f x = some y) xs ys
  | [], ys => by
    rw [List.mapM_nil, List.forall₂_nil_left_iff]
    exact ⟨fun h => (Option.some.inj h).symm, fun h => by rw [h]; rfl⟩
  | x :: xs, ys => by
    rw [List.mapM_cons, List.forall₂_cons_left_iff]
    constructor
    · intro h
      obtain ⟨y, hy, h⟩ := Option.bind_eq_some_iff.mp h
      obtain ⟨rest, hrest, h⟩ := Option.bind_eq_some_iff.mp h
      cases h
      exact ⟨y, rest, hy, mapM_some_iff.mp hrest, rfl⟩
    · rintro ⟨y, rest, hy, hrest, rfl⟩
      rw [hy, mapM_some_iff.mpr hrest]
      rfl

/-- Where all steps give something, it is all kept. -/
theorem mapM_eq_some_filterMap {f f' : α → Option β} : ∀ {xs : List α},
    (∀ x ∈ xs, ∃ y, f x = some y ∧ f' x = some y) → xs.mapM f = some (xs.filterMap f')
  | [], _ => rfl
  | x :: xs, h => by
    obtain ⟨y, hy, hy'⟩ := h x (by simp)
    rw [List.mapM_cons, hy, mapM_eq_some_filterMap fun x' hx' => h x' (List.mem_cons_of_mem x hx'),
      List.filterMap_cons_some hy']
    rfl

/-- A loop whose rounds all succeed and change nothing. -/
theorem forIn_ok {f : α → Unit → Except ε (ForInStep Unit)} : ∀ {xs : List α},
    (∀ x ∈ xs, f x () = .ok (.yield ())) → forIn xs () f = .ok ()
  | [], _ => rfl
  | x :: xs, h => by
    rw [List.forIn_cons, h x (by simp)]
    exact forIn_ok fun y hy => h y (by simp [hy])

/-! ## Lists side by side -/

theorem forall₂_getElem? {R : α → β → Prop} {as : List α} {bs : List β} (h : List.Forall₂ R as bs) :
    ∀ {i : Nat} {a : α}, as[i]? = some a → ∃ b, bs[i]? = some b ∧ R a b := by
  induction h with
  | nil => simp
  | @cons a b as bs hab _ ih =>
    intro i a' ha
    cases i with
    | zero =>
      obtain rfl : a = a' := by simpa using ha
      exact ⟨b, rfl, hab⟩
    | succ i => exact ih (by simpa using ha)

theorem forall₂_exists {R : α → β → Prop} : ∀ {as : List α}, (∀ a ∈ as, ∃ b, R a b) →
    ∃ bs, List.Forall₂ R as bs
  | [], _ => ⟨[], .nil⟩
  | a :: as, h => by
    obtain ⟨b, hb⟩ := h a (by simp)
    obtain ⟨bs, hbs⟩ := forall₂_exists fun a' ha' => h a' (List.mem_cons_of_mem a ha')
    exact ⟨b :: bs, .cons hb hbs⟩

theorem forall₂_zip {γ : Type} {R : α → β → Prop} {S : α → γ → Prop} {as : List α} {bs : List β} {cs : List γ}
    (h : List.Forall₂ R as bs) (h' : List.Forall₂ S as cs) :
    List.Forall₂ (fun a x => a = x.1 ∧ R a x.2.1 ∧ S a x.2.2) as (as.zip (bs.zip cs)) := by
  induction h generalizing cs with
  | nil => exact .nil
  | cons hr _ ih =>
    cases h' with
    | cons hs hrest => exact .cons ⟨rfl, hr, hs⟩ (ih hrest)

theorem find?_of_nodup {γ : Type} [BEq γ] [LawfulBEq γ] {key : α → γ} : ∀ {as : List α},
    (as.map key).Nodup → ∀ {a : α}, a ∈ as → as.find? (key · == key a) = some a
  | b :: as, h, a, ha => by
    rw [List.map_cons, List.nodup_cons] at h
    rw [List.find?_cons]
    rcases List.mem_cons.mp ha with rfl | ha
    · simp
    · have hne : key b ≠ key a := fun he => h.1 (he ▸ List.mem_map_of_mem ha)
      rw [beq_false_of_ne hne]
      exact find?_of_nodup h.2 ha

theorem forall₂_mem {R : α → β → Prop} {as : List α} {bs : List β} (h : List.Forall₂ R as bs) {a : α}
    (ha : a ∈ as) : ∃ b ∈ bs, R a b := by
  obtain ⟨i, hi⟩ := List.mem_iff_getElem?.mp ha
  obtain ⟨b, hb, hR⟩ := forall₂_getElem? h hi
  exact ⟨b, List.mem_of_getElem? hb, hR⟩

theorem forall₂_with_mem {R : α → β → Prop} {as : List α} {bs : List β} (h : List.Forall₂ R as bs) :
    List.Forall₂ (fun a b => a ∈ as ∧ b ∈ bs ∧ R a b) as bs := by
  rw [List.forall₂_iff_zip] at h ⊢
  refine ⟨h.1, fun {a b} hab => ?_⟩
  obtain ⟨ha, hb⟩ := List.of_mem_zip hab
  exact ⟨ha, hb, h.2 hab⟩

theorem map_eq_of_forall₂ {γ : Type} {R : α → β → Prop} {f : α → γ} {h : β → γ}
    (hR : ∀ a b, R a b → h b = f a) {as : List α} {bs : List β} (hall : List.Forall₂ R as bs) :
    bs.map h = as.map f := by
  induction hall with
  | nil => rfl
  | cons hab _ ih => rw [List.map_cons, List.map_cons, hR _ _ hab, ih]

theorem forall₂_of_map_eq {γ : Type} {f : α → γ} {h : β → γ} {as : List α} {bs : List β}
    (he : as.map f = bs.map h) : List.Forall₂ (fun a b => f a = h b) as bs :=
  List.forall₂_map_left_iff.mp (List.forall₂_map_right_iff.mp (List.forall₂_eq_eq_eq ▸ he))

/-- What stands beside the same elements stands side by side. -/
theorem forall₂_comp {γ : Type} {R : α → β → Prop} {S : α → γ → Prop} {as : List α} {bs : List β}
    (h : List.Forall₂ R as bs) : ∀ {cs : List γ}, List.Forall₂ S as cs →
      List.Forall₂ (fun b c => ∃ a ∈ as, R a b ∧ S a c) bs cs := by
  induction h with
  | nil =>
    rintro _ ⟨⟩
    exact .nil
  | @cons a b as bs hab _ ih =>
    rintro _ (_ | ⟨hac, hcs⟩)
    refine .cons ⟨a, List.mem_cons_self, hab, hac⟩ ((ih hcs).imp ?_)
    rintro b c ⟨a', ha', hboth⟩
    exact ⟨a', List.mem_cons_of_mem a ha', hboth⟩

/-! ## Results with a state -/

theorem bind_eq_ok {x : EStateM ε σ α} {f : α → EStateM ε σ β} {s s' : σ} {b : β} :
    (x >>= f) s = .ok b s' ↔ ∃ a s₁, x s = .ok a s₁ ∧ f a s₁ = .ok b s' := by
  show EStateM.bind x f s = _ ↔ _
  simp only [EStateM.bind]
  cases x s with
  | ok a s₁ =>
    constructor
    · exact fun h => ⟨a, s₁, rfl, h⟩
    · rintro ⟨a', s', h, h'⟩
      cases h
      exact h'
  | error e s₁ => simp

theorem map_eq_ok {x : EStateM ε σ α} {f : α → β} {s s' : σ} {b : β} :
    (do return f (← x) : EStateM ε σ β) s = .ok b s' ↔ ∃ a, x s = .ok a s' ∧ b = f a := by
  rw [bind_eq_ok]
  constructor
  · rintro ⟨a, s₁, h, ⟨⟩⟩
    exact ⟨a, h, rfl⟩
  · rintro ⟨a, h, rfl⟩
    exact ⟨a, s', h, rfl⟩

theorem bind_eq_error {x : EStateM ε σ α} {f : α → EStateM ε σ β} {s s' : σ} {e : ε} :
    (x >>= f) s = .error e s' ↔ x s = .error e s' ∨ ∃ a s₁, x s = .ok a s₁ ∧ f a s₁ = .error e s' := by
  show EStateM.bind x f s = _ ↔ _
  simp only [EStateM.bind]
  cases x s <;> simp

theorem bind_of_ok {x : EStateM ε σ α} {f : α → EStateM ε σ β} {s s₁ : σ} {a : α} (h : x s = .ok a s₁) :
    (x >>= f) s = f a s₁ := by
  show EStateM.bind x f s = _
  simp only [EStateM.bind, h]

theorem length_of_mapM {f : α → EStateM ε σ β} : ∀ {xs : List α} {ys : List β} {s s' : σ},
    xs.mapM f s = .ok ys s' → ys.length = xs.length
  | [], ys, s, s', h => by
    cases h
    rfl
  | x :: xs, ys, s, s', h => by
    rw [List.mapM_cons] at h
    obtain ⟨y, s₁, -, h⟩ := bind_eq_ok.mp h
    obtain ⟨rest, hrest, rfl⟩ := map_eq_ok.mp h
    rw [List.length_cons, List.length_cons, length_of_mapM hrest]

/-- The computation succeeds, and its result passes a test. -/
def succeedsWith (x : EStateM ε σ α) (s : σ) (test : α → Bool) : Bool :=
  match x s with
  | .ok a _ => test a
  | .error _ _ => false

theorem exists_of_succeedsWith {x : EStateM ε σ α} {s : σ} {test : α → Bool} (h : succeedsWith x s test = true) :
    ∃ a s', x s = .ok a s' ∧ test a = true := by
  unfold succeedsWith at h
  split at h
  next a s' hx => exact ⟨a, s', hx, h⟩
  next => cases h

/-- The computation fails, and its fault passes a test. -/
def failsWith (x : EStateM ε σ α) (s : σ) (test : ε → Bool) : Bool :=
  match x s with
  | .ok _ _ => false
  | .error e _ => test e

theorem exists_of_failsWith {x : EStateM ε σ α} {s : σ} {test : ε → Bool} (h : failsWith x s test = true) :
    ∃ e s', x s = .error e s' ∧ test e = true := by
  unfold failsWith at h
  split at h
  next => cases h
  next e s' hx => exact ⟨e, s', hx, h⟩

/-- The state in which a computation ends, with a result or a fault. -/
def endState : EStateM.Result ε σ α → σ
  | .ok _ s | .error _ s => s

theorem endState_bind {P : σ → Prop} {x : EStateM ε σ α} {f : α → EStateM ε σ β} {s : σ} (hx : P (endState (x s)))
    (hf : ∀ a s₁, x s = .ok a s₁ → P s₁ → P (endState (f a s₁))) : P (endState ((x >>= f) s)) := by
  show P (endState (EStateM.bind x f s))
  simp only [EStateM.bind]
  cases hr : x s with
  | ok a s₁ =>
    rw [hr] at hx
    exact hf a s₁ hr hx
  | error e s₁ =>
    rw [hr] at hx
    exact hx

/-- What every round of a loop keeps, however it ends, the loop keeps. -/
theorem endState_forIn {P : σ → Prop} {f : α → Unit → EStateM ε σ (ForInStep Unit)} : ∀ {xs : List α} {s : σ},
    (∀ x ∈ xs, ∀ s, P s → P (endState (f x () s))) → P s → P (endState ((forIn xs () f : EStateM ε σ Unit) s))
  | [], _, _, hs => hs
  | x :: xs, s, hf, hs => by
    rw [List.forIn_cons]
    refine endState_bind (hf x List.mem_cons_self s hs) fun step s₁ _ hs₁ => ?_
    cases step with
    | done => exact hs₁
    | yield => exact endState_forIn (fun y hy => hf y (List.mem_cons_of_mem x hy)) hs₁

/-- What every round of a loop keeps, the loop keeps. -/
theorem forIn_keeps {P : σ → Prop} {f : α → Unit → EStateM ε σ (ForInStep Unit)} {s' : σ} {u : Unit} :
    ∀ {xs : List α} {s : σ}, (∀ x ∈ xs, ∀ s step s₁, P s → f x () s = .ok step s₁ → P s₁) → P s →
      forIn xs () f s = .ok u s' → P s'
  | [], s, _, hs, h => by
    cases h
    exact hs
  | x :: xs, s, hf, hs, h => by
    rw [List.forIn_cons] at h
    obtain ⟨step, s₁, hx, h⟩ := bind_eq_ok.mp h
    have hs₁ := hf x (by simp) s step s₁ hs hx
    cases step with
    | done =>
      cases h
      exact hs₁
    | yield => exact forIn_keeps (fun y hy => hf y (by simp [hy])) hs₁ h

end ProtoBind
