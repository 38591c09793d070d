/-
Messages as mappings, and messages created from mappings.

A typed value without NaN is equal to itself, and the mapping that shows a
message has the present fields under their attributes. The class that shows a
message creates an equal one from the mapping (`TypedUpTo.restored`): scalars
convert to themselves, the number of an enum to the member it has, and the
messages inside are restored in their turn. The loop over the fields is the one
that a reader runs, so `Collects` is its invariant here too.
-/
import ProtoBind.Message.Create
import ProtoBind.Proofs.Message.Typed

namespace ProtoBind.Message

variable {lib : Library} {nested : Instance → Prop} {S : String → Prop} {c : MessageClass} {m : Instance}
  {f : Reflection.Field} {p : FieldCodec} {v : Value}

/-! ## Values that are equal to themselves -/

theorem Scalar.Definite.flat {k : Scalar} (h : k.Definite v) : v.Flat := Scalar.Accepts.flat h.1

theorem Scalar.Definite.self {k : Scalar} (h : k.Definite v) : v.sameKey v = true := by
  obtain ⟨haccepts, hnumber⟩ := h
  unfold Scalar.Accepts at haccepts
  cases hk : k.valueClass <;> (simp only [hk] at haccepts; obtain ⟨x, rfl⟩ := haccepts)
  case floating => simp [Value.sameKey, Value.string?, Value.numberEqual, Binary64.equal, hnumber x rfl]
  all_goals simp [Value.sameKey, Value.string?, Value.numberEqual, Value.integer?]

theorem EnumTyped.self (h : EnumTyped v) : v.sameKey v = true := by
  obtain ⟨n, rfl | ⟨owner, name, rfl⟩⟩ := h <;>
    simp [Value.sameKey, Value.string?, Value.numberEqual, Value.integer?]

theorem ElementTyped.self (hn : ∀ m, nested m → lib.Equals m.value m.value) {e : Element}
    (h : ElementTyped Scalar.Definite nested e v) : lib.Equals v v := by
  cases e with
  | scalar k => exact .flat (Scalar.Definite.flat h) (Scalar.Definite.self h)
  | enum type => exact .flat (EnumTyped.flat h) (EnumTyped.self h)
  | message type =>
    obtain ⟨m, rfl, -, hm⟩ := h
    exact hn m hm

theorem FieldTyped.self (hn : ∀ m, nested m → lib.Equals m.value m.value)
    (h : FieldTyped Scalar.Definite lib nested f v) : lib.Equals v v := by
  cases h with
  | single map rep elem typed => exact typed.self hn
  | unset => exact .flat trivial rfl
  | list map rep elem typed => exact .list (List.forall₂_same.mpr fun v hv => (typed v hv).self hn)
  | dict map elem distinct typed =>
    exact .dict (List.forall₂_same.mpr fun x hx => ⟨rfl, (typed x hx).2.self hn⟩) distinct
      fun x hx => Scalar.Definite.self (typed x hx).1

/-- A typed instance is equal to itself. -/
theorem InstanceTyped.self (hc : Arranged c) (hfind : lib.message? m.type = some c)
    (hn : ∀ m, nested m → lib.Equals m.value m.value) (h : InstanceTyped Scalar.Definite lib nested c m) :
    lib.Equals m.value m.value := by
  have hchosen : lib.SameChosen m m := by
    intro group
    cases hlook : m.choices.lookup group with
    | none => exact .inl ⟨rfl, rfl⟩
    | some x =>
      obtain ⟨f, hf, hgroup, hattr⟩ := h.wellSet.chosen _ (Entries.mem_of_lookup hlook)
      obtain ⟨e, -, typed⟩ := h.chosen f hf group x.2 ⟨hgroup, by rw [hlook, hattr]⟩
      exact .inr ⟨x.1, x.2, x.2, rfl, rfl, typed.self hn⟩
  refine .message hfind rfl (hchosen.sameChoices h.wellSet.groups h.wellSet.groups) fun f hf => ?_
  obtain ⟨v, hget, hdepth, ⟨-, -, typed⟩ | ⟨_, e, -, -, typed⟩⟩ := h.present hc hf
  · exact ⟨v, v, hget, hget, hdepth, typed.self hn⟩
  · exact ⟨v, v, hget, hget, hdepth, typed.self hn⟩

theorem Library.TypedUpTo.self (hl : lib.IsPaired) : ∀ (fuel : Nat) {m : Instance},
    lib.TypedUpTo Scalar.Definite fuel m → lib.Equals m.value m.value
  | 0, _, h => h.elim
  | fuel + 1, m, ⟨c, hc, h⟩ =>
    h.self (hl m.type c hc).toArranged hc fun _ hn => TypedUpTo.self hl fuel hn

/-! ## The mapping of a message -/

/-- Pairs with keys that can be told apart are a mapping already. -/
theorem ofList_of_distinct {pairs : List (Value × Value)}
    (h : pairs.Pairwise fun x y => x.1.sameKey y.1 = false) : Entries.ofList Value.sameKey pairs = pairs := by
  have hfold : ∀ (rest done : List (Value × Value)),
      (done ++ rest).Pairwise (fun x y => x.1.sameKey y.1 = false) →
      rest.foldl (fun acc p => Entries.put Value.sameKey p.1 p.2 acc) done = done ++ rest := by
    intro rest
    induction rest with
    | nil => simp
    | cons p rest ih =>
      intro done hdistinct
      have hput := put_of_distinct (v := p.2) fun e he =>
        (List.pairwise_append.mp hdistinct).2.2 e he p List.mem_cons_self
      rw [List.foldl_cons, hput, ih _ (by simpa using hdistinct)]
      simp
  exact hfold pairs [] h

namespace Library

theorem plainUpTo_flat (h : v.Flat) (k : Nat) : lib.plainUpTo k v = v := by
  cases k with
  | zero => rfl
  | succ k => cases v <;> first | rfl | cases h

theorem plainUpTo_ne_null (h : v ≠ .null) (k : Nat) : lib.plainUpTo k v ≠ .null := by
  cases k with
  | zero => exact h
  | succ k =>
    cases v with
    | message =>
      simp only [plainUpTo]
      split
      · rintro ⟨⟩
      · exact h
    | null => exact absurd rfl h
    | _ => rintro ⟨⟩

/-- What a mapping shows of an instance, under the attributes. -/
def shownFields (lib : Library) (k : Nat) (c : MessageClass) (m : Instance) : List (Value × Value) :=
  (c.contents m).map fun x => (.text x.1, lib.plainUpTo k x.2)

end Library

theorem Arranged.contents_attrs (hc : Arranged c) (m : Instance) : ((c.contents m).map (·.1)).Nodup := by
  have hsub : ∀ fs : List Reflection.Field,
      ((fs.filterMap fun f => ((c.get m f.attr).toOption).map fun v => (f.attr, v)).map (·.1)).Sublist
        (fs.map (·.attr)) := by
    intro fs
    induction fs with
    | nil => exact .slnil
    | cons f fs ih =>
      rw [List.filterMap_cons, List.map_cons]
      cases (c.get m f.attr).toOption with
      | none => exact .cons _ ih
      | some v => exact ih.cons_cons _
  exact (hc.attrs.sublist (List.filter_sublist.map _)).sublist (hsub _)

theorem Arranged.shownFields_distinct (hc : Arranged c) (lib : Library) (k : Nat) (m : Instance) :
    (lib.shownFields k c m).Pairwise fun x y => x.1.sameKey y.1 = false := by
  rw [Library.shownFields, List.pairwise_map]
  have hnodup := hc.contents_attrs m
  rw [List.Nodup, List.pairwise_map] at hnodup
  exact hnodup.imp fun hne => by simpa [Value.sameKey, Value.string?] using hne

theorem Library.plainUpTo_message (hc : Arranged c) (hfind : lib.message? m.type = some c) (k : Nat) :
    lib.plainUpTo (k + 1) m.value = .dict (lib.shownFields k c m) := by
  simp only [Instance.value, Library.plainUpTo, hfind]
  exact congrArg Value.dict (ofList_of_distinct (hc.shownFields_distinct lib k m))

theorem mem_contents {attr : String} : (attr, v) ∈ c.contents m ↔
    ∃ f ∈ c.present m, f.attr = attr ∧ c.get m attr = .ok v := by
  simp only [MessageClass.contents, List.mem_filterMap, Option.map_eq_some_iff, Prod.mk.injEq]
  constructor
  · rintro ⟨f, hf, w, hw, rfl, rfl⟩
    cases hget : c.get m f.attr with
    | ok a =>
      rw [hget] at hw
      exact ⟨f, hf, rfl, congrArg Except.ok (Option.some.inj hw)⟩
    | error e =>
      rw [hget] at hw
      cases hw
  · rintro ⟨f, hf, rfl, hget⟩
    exact ⟨f, hf, v, by rw [hget]; rfl, rfl, rfl⟩

theorem property?_dict (entries : List (Value × Value)) (attr : String) :
    Library.property? (.dict entries) attr = .ok (match Entries.get? Value.sameKey (.text attr) entries with
      | none | some .null => none
      | some w => some w) := by
  show (match Entries.get? Value.sameKey (.text attr) entries with
    | none | some .null => Except.ok none
    | some w => Except.ok (some w)) = _
  split <;> rfl

section Shown

variable {k : Nat}

theorem mem_shownFields (hf : f ∈ c.present m) (hget : c.get m f.attr = .ok v) :
    (Value.text f.attr, lib.plainUpTo k v) ∈ lib.shownFields k c m :=
  List.mem_map.mpr ⟨(f.attr, v), mem_contents.mpr ⟨f, hf, rfl, hget⟩, rfl⟩

theorem get?_shown (hc : Arranged c) (hf : f ∈ c.present m) (hget : c.get m f.attr = .ok v) :
    Entries.get? Value.sameKey (.text f.attr) (lib.shownFields k c m) = some (lib.plainUpTo k v) :=
  Library.Equals.get?_of_mem (by simp [Value.sameKey, Value.string?]) (hc.shownFields_distinct lib k m)
    (mem_shownFields hf hget)

/-- The properties of a message have its present fields. -/
theorem property?_shown (hc : Arranged c) (hf : f ∈ c.present m) (hget : c.get m f.attr = .ok v)
    (hne : v ≠ .null) :
    Library.property? (.dict (lib.shownFields k c m)) f.attr = .ok (some (lib.plainUpTo k v)) := by
  have hne : lib.plainUpTo k v ≠ .null := Library.plainUpTo_ne_null hne k
  rw [property?_dict, get?_shown hc hf hget]
  split
  next h => cases h
  next h => exact absurd (Option.some.inj h) hne
  next h => rw [Option.some.inj h]

/-- A field without a value is no property. -/
theorem property?_null (hc : Arranged c) (hf : f ∈ c.present m) (hget : c.get m f.attr = .ok .null) :
    Library.property? (.dict (lib.shownFields k c m)) f.attr = .ok none := by
  rw [property?_dict, get?_shown hc hf hget, Library.plainUpTo_flat (v := .null) trivial]

/-- The properties of a message have no others. -/
theorem property?_absent (hc : Arranged c) (hf : f ∈ c.fields) (habsent : f ∉ c.present m) :
    Library.property? (.dict (lib.shownFields k c m)) f.attr = .ok none := by
  have hnone : Entries.get? Value.sameKey (.text f.attr) (lib.shownFields k c m) = none := by
    rw [Entries.get?, Option.map_eq_none_iff, List.find?_eq_none]
    intro x hx hkey
    obtain ⟨⟨attr, v⟩, hmem, rfl⟩ := List.mem_map.mp hx
    obtain ⟨f', hf', rfl, -⟩ := mem_contents.mp hmem
    have hattr : f'.attr = f.attr := by simpa [Value.sameKey, Value.string?] using hkey
    obtain rfl := hc.attr_inj (List.mem_filter.mp hf').1 hf hattr
    exact habsent hf'
  rw [property?_dict, hnone]

end Shown

section SetProperty

variable {create : String → Value → Except Fault Value} {props w : Value}

theorem setProperty_some (h : Library.property? props p.attr = .ok (some w)) (m : Instance) :
    lib.setProperty create c props m p = lib.convertProperty create p w >>= c.set m p.target := by
  rw [Library.setProperty, h]
  rfl

theorem setProperty_none (h : Library.property? props p.attr = .ok none) (m : Instance) :
    lib.setProperty create c props m p = .ok m := by
  rw [Library.setProperty, h]
  rfl

end SetProperty

/-! ## Conversion -/

/-- Where creating takes a field for what it is declared to hold. -/
theorem convertPart_eq (h : p.made = some p.element) (create : String → Value → Except Fault Value) :
    lib.convertPart create p = lib.convertElement create p.element := by
  funext w
  rw [Library.convertPart, h]

/-- If the element is an enum, its class is found and has members. -/
def Element.FindsEnum (lib : Library) (e : Element) : Prop :=
  ∀ type, e = .enum type → ∃ enum, lib.enum? type = some enum ∧ enum.members ≠ []

/-- The class knows its properties by the attributes that it sets and finds the classes of its enums; the
messages inside are of types in `S`. -/
structure Creates (lib : Library) (S : String → Prop) (c : MessageClass) : Prop where
  attr : ∀ p ∈ c.codecs, p.attr = p.target
  enums : ∀ p ∈ c.codecs, p.element.FindsEnum lib
  within : ∀ p ∈ c.codecs, p.element.Within S

/-- The messages that `nested` admits are created again, down to a depth of nesting, from the mappings that
show them. -/
def Restores (lib : Library) (fuel : Nat) (nested : Instance → Prop) : Prop :=
  ∀ m k, nested m → m.value.depth ≤ k → (lib.plainUpTo k m.value).depth < fuel →
    ∃ v', lib.createUpTo fuel m.type (lib.plainUpTo k m.value) = .ok v' ∧ lib.Equals v' m.value ∧ v' ≠ .null

theorem Scalar.Definite.converts {k : Scalar} (h : k.Definite v) : lib.convertScalar k v = .ok v := by
  have h := h.1
  unfold Scalar.Accepts at h
  unfold Library.convertScalar
  cases hk : k.valueClass <;> (simp only [hk] at h; obtain ⟨_, rfl⟩ := h; rfl)

/-- The number of an enum converts to the member it has. -/
theorem EnumTyped.converts (h : EnumTyped v) {enum : EnumClass} (hmembers : enum.members ≠ []) :
    ∃ v', enum.convert v = .ok v' ∧ v'.sameKey v = true ∧ v' ≠ .null := by
  have hself := h.self
  obtain ⟨n, rfl | ⟨owner, name, rfl⟩⟩ := h
  · refine ⟨enum.ofValue (.int n), ?_, enum.ofValue_sameKey ⟨n, .inl rfl⟩ rfl⟩
    show enum.take (.int n) = _
    rw [EnumClass.take, if_neg (by simpa using hmembers)]
  · exact ⟨_, rfl, hself, by rintro ⟨⟩⟩

variable {k fuel : Nat}

theorem ElementTyped.converts (hr : Restores lib fuel nested) {e : Element} (henum : e.FindsEnum lib)
    (h : ElementTyped Scalar.Definite nested e v) (hk : v.depth ≤ k) (hd : (lib.plainUpTo k v).depth < fuel) :
    ∃ v', lib.convertElement (lib.createUpTo fuel) e (lib.plainUpTo k v) = .ok v' ∧ lib.Equals v' v ∧
      v' ≠ .null := by
  have hne := h.ne_null fun _ _ h => h.1
  cases e with
  | scalar kind =>
    rw [Library.plainUpTo_flat (Scalar.Definite.flat h)]
    refine ⟨v, ?_, .flat (Scalar.Definite.flat h) (Scalar.Definite.self h), hne⟩
    simp only [Library.convertElement, Scalar.Definite.converts h]
    rfl
  | enum type =>
    obtain ⟨enum, hfound, hmembers⟩ := henum type rfl
    obtain ⟨v', hv', hkey, hnull⟩ := EnumTyped.converts h hmembers
    rw [Library.plainUpTo_flat (EnumTyped.flat h)]
    refine ⟨v', ?_, .flat (EnumTyped.flat h) hkey, hnull⟩
    simp only [Library.convertElement, hfound, hv']
    rfl
  | message type =>
    obtain ⟨m, rfl, rfl, hm⟩ := h
    exact hr m k hm hk hd

/-- Items convert one by one. -/
theorem items_convert (hr : Restores lib fuel nested) {e : Element} (henum : e.FindsEnum lib) {items : List Value}
    (h : ∀ v ∈ items, ElementTyped Scalar.Definite nested e v) (hk : Value.depthAll items ≤ k)
    (hd : Value.depthAll (items.map (lib.plainUpTo k)) < fuel) :
    ∃ vs, (items.map (lib.plainUpTo k)).mapM (lib.convertElement (lib.createUpTo fuel) e) = .ok vs ∧
      List.Forall₂ lib.Equals vs items := by
  have hall : ∀ v ∈ items, ∃ v', lib.convertElement (lib.createUpTo fuel) e (lib.plainUpTo k v) = .ok v' ∧
      lib.Equals v' v := by
    intro v hv
    have hv' := Value.depth_mem (List.mem_map_of_mem (f := lib.plainUpTo k) hv)
    obtain ⟨v', hc, he, -⟩ := (h v hv).converts hr henum (Nat.le_trans (Value.depth_mem hv) hk) (by omega)
    exact ⟨v', hc, he⟩
  obtain ⟨vs, hvs⟩ := forall₂_exists hall
  refine ⟨vs, mapM_ok_iff.mpr ?_, (hvs.imp fun _ _ hv => hv.2).flip⟩
  rw [List.forall₂_map_left_iff]
  exact hvs.imp fun _ _ hv => hv.1

/-- Entries convert one by one; their keys are what they were. -/
theorem entries_convert (hr : Restores lib fuel nested) {key : Scalar} {e : Element} (henum : e.FindsEnum lib)
    {entries : List (Value × Value)}
    (h : ∀ x ∈ entries, key.Definite x.1 ∧ ElementTyped Scalar.Definite nested e x.2) (hk : Value.depthEntries entries ≤ k)
    (hd : Value.depthEntries (entries.map fun x => (x.1, lib.plainUpTo k x.2)) < fuel) :
    ∃ xs, (entries.map fun x => (x.1, lib.plainUpTo k x.2)).mapM (fun x => do
        return (← lift (lib.convertScalar key x.1), ← lib.convertElement (lib.createUpTo fuel) e x.2)) = .ok xs ∧
      List.Forall₂ (fun x y => x.1 = y.1 ∧ lib.Equals x.2 y.2) xs entries := by
  have hall : ∀ x ∈ entries, ∃ y : Value × Value, (do
      return (← lift (lib.convertScalar key x.1),
        ← lib.convertElement (lib.createUpTo fuel) e (lib.plainUpTo k x.2))) = Except.ok y ∧
      y.1 = x.1 ∧ lib.Equals y.2 x.2 := by
    intro x hx
    have hx' := Value.depth_entry (List.mem_map_of_mem (f := fun x => (x.1, lib.plainUpTo k x.2)) hx)
    obtain ⟨v', hc, he, -⟩ := (h x hx).2.converts hr henum (Nat.le_trans (Value.depth_entry hx) hk) (by omega)
    refine ⟨(x.1, v'), ?_, rfl, he⟩
    rw [Scalar.Definite.converts (h x hx).1, hc]
    rfl
  obtain ⟨xs, hxs⟩ := forall₂_exists hall
  refine ⟨xs, mapM_ok_iff.mpr ?_, (hxs.imp fun _ _ hx => hx.2).flip⟩
  rw [List.forall₂_map_left_iff]
  exact hxs.imp fun _ _ hx => hx.1

/-- **What a field shows converts to an equal of its value.** -/
theorem FieldTyped.converts (hr : Restores lib fuel nested) (ha : Matches lib f p)
    (henum : p.element.FindsEnum lib) (h : FieldTyped Scalar.Definite lib nested f v) (hne : v ≠ .null)
    (hk : v.depth ≤ k) (hd : (lib.plainUpTo k v).depth < fuel) :
    ∃ v', lib.convertProperty (lib.createUpTo fuel) p (lib.plainUpTo k v) = .ok v' ∧ lib.Equals v' v := by
  cases h with
  | single map rep elem typed =>
    obtain rfl := Option.some.inj (ha.element.symm.trans elem)
    obtain ⟨v', hc, he, -⟩ := typed.converts hr henum hk hd
    refine ⟨v', ?_, he⟩
    simp only [Library.convertProperty, ha.shape.eq_single map rep, convertPart_eq ha.made]
    exact hc
  | unset => exact absurd rfl hne
  | @list _ items map rep elem typed =>
    obtain rfl := Option.some.inj (ha.element.symm.trans elem)
    rw [Value.depth] at hk
    obtain ⟨k, rfl⟩ : ∃ j, k = j + 1 := ⟨k - 1, by omega⟩
    rw [Library.plainUpTo, Value.depth] at hd
    obtain ⟨vs, hc, he⟩ := items_convert (k := k) hr henum typed (by omega) (by omega)
    refine ⟨.list vs, ?_, .list he⟩
    simp only [Library.convertProperty, ha.shape.eq_repeated map rep, convertPart_eq ha.made, Library.plainUpTo]
    exact map_ok_iff.mpr ⟨vs, hc, rfl⟩
  | @dict key _ entries map elem distinct typed =>
    obtain rfl := Option.some.inj (ha.element.symm.trans elem)
    rw [Value.depth] at hk
    obtain ⟨k, rfl⟩ : ∃ j, k = j + 1 := ⟨k - 1, by omega⟩
    have hd : Value.depthEntries (entries.map fun x => (x.1, lib.plainUpTo k x.2)) + 1 < fuel := hd
    obtain ⟨xs, hc, he⟩ := entries_convert (k := k) hr henum typed (by omega) (by omega)
    have hkeys : xs.map (·.1) = entries.map (·.1) := map_eq_of_forall₂ (fun _ _ hx => hx.1) he.flip
    have hdistinct : xs.Pairwise fun x y => x.1.sameKey y.1 = false := by
      have hlist : (entries.map (·.1)).Pairwise fun x y => x.sameKey y = false := List.pairwise_map.mpr distinct
      exact List.pairwise_map.mp (hkeys ▸ hlist)
    refine ⟨.dict xs, ?_, .dict he distinct fun x hx => Scalar.Definite.self (typed x hx).1⟩
    simp only [Library.convertProperty, ha.shape.eq_map map, convertPart_eq ha.made, Library.plainUpTo]
    refine bind_ok_iff.mpr ⟨_, rfl, bind_ok_iff.mpr ⟨xs, hc, ?_⟩⟩
    rw [ofList_of_distinct hdistinct]
    rfl

/-! ## Creation -/

/-- **A field of a typed instance is set from what the instance shows, and so collected.** -/
theorem setProperty_collects (hr : Restores lib fuel fun n => nested n ∧ S n.type) (hc : Paired lib c)
    (hcr : Creates lib S c) (hm : InstanceTyped Scalar.Definite lib nested c m) (hf : f ∈ c.fields) (hp : p ∈ c.codecs)
    (ha : Matches lib f p) (hk : m.value.depth ≤ k + 1)
    (hd : (Value.dict (lib.shownFields k c m)).depth ≤ fuel) {m₁ : Instance}
    (hstart : f.oneof = none → m₁.attrs.lookup f.attr = some f.newDefault) :
    ∃ m₂, lib.setProperty (lib.createUpTo fuel) c (.dict (lib.shownFields k c m)) m₁ p = .ok m₂ ∧
      Collects lib c.Has m [f] m₁ m₂ := by
  have hattr : p.attr = f.attr := (hcr.attr p hp).trans ha.target
  have hnone (h : Library.property? (.dict (lib.shownFields k c m)) f.attr = .ok none) :
      lib.setProperty (lib.createUpTo fuel) c (.dict (lib.shownFields k c m)) m₁ p = .ok m₁ :=
    setProperty_none (hattr ▸ h) m₁
  by_cases hpresent : f ∈ c.present m
  · obtain ⟨v, hget, hdepth, hcase⟩ := hm.present hc.toArranged hpresent
    have hshown : (lib.plainUpTo k v).depth < fuel := by
      have := Value.depth_entry (@mem_shownFields lib _ _ _ _ k hpresent hget)
      rw [Value.depth] at hd
      omega
    have hsome (hne : v ≠ .null) (m₁ : Instance) :
        lib.setProperty (lib.createUpTo fuel) c (.dict (lib.shownFields k c m)) m₁ p =
          lib.convertProperty (lib.createUpTo fuel) p (lib.plainUpTo k v) >>= c.set m₁ p.target :=
      setProperty_some (hattr ▸ property?_shown hc.toArranged hpresent hget hne) m₁
    rcases hcase with ⟨hone, hv, typed⟩ | ⟨group, e, hchosen, helem, typed⟩
    · by_cases hne : v = .null
      · -- Only a message field holds nothing, and then it does so from the start.
        subst hne
        refine ⟨m₁, hnone (property?_null hc.toArranged hpresent hget), .plainly hone hv (.refl _ m₁) (hstart hone) ?_⟩
        cases typed with
        | single _ _ _ typed => exact absurd rfl (typed.ne_null fun _ _ h => h.1)
        | unset map rep elem =>
          rw [ha.unset _ (Option.some.inj (ha.element.symm.trans elem)) (ha.shape.eq_single map rep)]
          exact .flat trivial rfl
      · obtain ⟨v', hconvert, he⟩ := (typed.within ha.element (hcr.within p hp)).converts hr ha (hcr.enums p hp) hne
          (by omega) hshown
        refine ⟨m₁.keep f.attr v', ?_, .plainly hone hv (.keep _ m₁ v') (m₁.lookup_keep _ _) he⟩
        rw [hsome hne, hconvert, ha.target]
        exact set_plain (hc.descriptor_regular hf hone) m₁
    · have hne := (typed.ne_null fun _ _ h => h.1)
      obtain rfl := Option.some.inj (ha.element.symm.trans helem)
      obtain ⟨v', hconvert, he, hnull⟩ := (typed.within (hcr.within p hp)).converts hr (hcr.enums p hp)
        (by omega : v.depth ≤ k) hshown
      have hsingle : p.arity = .single := ha.grouped hchosen.grouped
      refine ⟨m₁.choose group f.attr v', ?_, .choose (c.has_self f hf) hchosen he m₁⟩
      rw [hsome hne, Library.convertProperty, hsingle, convertPart_eq ha.made, hconvert, ha.target]
      show c.set m₁ f.attr v' = _
      simp only [MessageClass.set, hc.descriptor_member hf hchosen.1]
      cases v' <;> first | exact absurd rfl hnull | rfl
  · -- A member that is not set is no property and leaves no trace.
    refine ⟨m₁, hnone (property?_absent hc.toArranged hf hpresent), .nothing m₁ ?_ ?_⟩
    · intro f' hf' _ hone
      obtain rfl := List.mem_singleton.mp hf'
      exact hpresent (List.mem_filter.mpr ⟨hf, by simp [hone]⟩)
    · intro f' hf' group v _ hchosen
      obtain rfl := List.mem_singleton.mp hf'
      refine hpresent (List.mem_filter.mpr ⟨hf, ?_⟩)
      rw [MessageClass.isActive_iff.mpr ⟨group, v, hchosen⟩, Bool.or_true]

/-- **All fields of a typed instance are set from what it shows, and so collected.** -/
theorem properties_collect (hr : Restores lib fuel fun n => nested n ∧ S n.type) (hc : Paired lib c)
    (hcr : Creates lib S c) (hm : InstanceTyped Scalar.Definite lib nested c m) (hk : m.value.depth ≤ k + 1)
    (hd : (Value.dict (lib.shownFields k c m)).depth ≤ fuel) {fs : List Reflection.Field} {ps : List FieldCodec}
    (h : List.Forall₂ (fun f p => f ∈ c.fields ∧ p ∈ c.codecs ∧ Matches lib f p) fs ps) :
    ∀ {m₁ : Instance}, (fs.map (·.attr)).Nodup →
      (∀ f ∈ fs, f.oneof = none → m₁.attrs.lookup f.attr = some f.newDefault) →
      ∃ m₂, ps.foldlM (lib.setProperty (lib.createUpTo fuel) c (.dict (lib.shownFields k c m))) m₁ = .ok m₂ ∧
        Collects lib c.Has m fs m₁ m₂ := by
  induction h with
  | nil =>
    intro m₁ _ _
    exact ⟨m₁, rfl, .nothing m₁ (fun _ hf => nomatch hf) fun _ hf => nomatch hf⟩
  | @cons f p fs ps hfirst _ ih =>
    intro m₁ hnodup hstart
    obtain ⟨hf, hp, ha⟩ := hfirst
    rw [List.map_cons, List.nodup_cons] at hnodup
    obtain ⟨m₂, hset, hcollect⟩ := setProperty_collects hr hc hcr hm hf hp ha hk hd (hstart f (by simp))
    obtain ⟨m₃, hsets, hcollects⟩ := ih hnodup.2 fun f' hf' hone => by
      -- The attributes of the later fields are still as they were.
      have hne : f'.attr ≠ f.attr := fun he => hnodup.1 (he ▸ List.mem_map_of_mem hf')
      rw [hcollect.frame f'.attr (by simpa using hne)]
      exact hstart f' (List.mem_cons_of_mem f hf') hone
    refine ⟨m₃, ?_, hcollect.cons hcollects hnodup.1⟩
    rw [List.foldlM_cons]
    exact bind_ok_iff.mpr ⟨m₂, hset, hsets⟩

namespace Library

/-- The classes of the types in `S` create their messages. -/
def CreatesWithin (lib : Library) (S : String → Prop) : Prop :=
  ∀ type c, S type → lib.message? type = some c → Creates lib S c

/-- Nothing is set from an empty mapping, so it need not be told apart from others. -/
theorem createUpTo_dict {type : String} {entries : List (Value × Value)} (hfind : lib.message? type = some c)
    (fuel : Nat) : lib.createUpTo (fuel + 1) type (.dict entries) = do
      let m ← c.fresh
      let m ← c.codecs.foldlM (lib.setProperty (lib.createUpTo fuel) c (.dict entries)) m
      return m.value := by
  simp only [createUpTo, isMessageOf, hfind]
  cases entries with
  | nil =>
    have hall (m : Instance) : ∀ ps : List FieldCodec,
        ps.foldlM (lib.setProperty (lib.createUpTo fuel) c (.dict [])) m = .ok m := by
      intro ps
      induction ps with
      | nil => rfl
      | cons p ps ih =>
        rw [List.foldlM_cons, setProperty_none (property?_dict [] p.attr)]
        exact ih
    simp only [hall]
    rfl
  | cons x rest => rfl

/-- **A typed message is created again from the mapping that shows it**, with the same members set. -/
theorem TypedUpTo.restored (hl : lib.IsPaired) (hS : lib.CreatesWithin S) : ∀ (depth fuel : Nat) {m : Instance} {k : Nat},
    lib.TypedUpTo Scalar.Definite depth m → S m.type → m.value.depth ≤ k → (lib.plainUpTo k m.value).depth < fuel →
    ∃ m' : Instance, lib.createUpTo fuel m.type (lib.plainUpTo k m.value) = .ok m'.value ∧
      lib.Equals m'.value m.value ∧ lib.SameChosen m' m
  | 0, _, _, _, h => h.elim
  | depth + 1, fuel, m, k, ⟨c, hfind, typed⟩ => by
    intro hin hk hd
    have hc := hl m.type c hfind
    obtain ⟨k, rfl⟩ : ∃ j, k = j + 1 := by
      have : 0 < m.value.depth := Nat.succ_pos _
      exact ⟨k - 1, by omega⟩
    rw [plainUpTo_message hc.toArranged hfind] at hd ⊢
    obtain ⟨fuel, rfl⟩ : ∃ j, fuel = j + 1 := ⟨fuel - 1, by omega⟩
    obtain ⟨m₀, h₀, -, htype, hchoices, hdefaults⟩ := hc.toArranged.fresh
    have hr : Restores lib fuel fun n => lib.TypedUpTo Scalar.Definite depth n ∧ S n.type := fun n j hn hj hd => by
      obtain ⟨n', hn', he, -⟩ := TypedUpTo.restored hl hS depth fuel hn.1 hn.2 hj hd
      exact ⟨n'.value, hn', he, by rintro ⟨⟩⟩
    obtain ⟨m', hsets, hcollects⟩ := properties_collect hr hc (hS m.type c hin hfind) typed hk (by omega)
      (forall₂_with_mem hc.fields) hc.attrs (fun f hf hone => hdefaults f hf hone)
    have hname := message?_fullName hfind
    have he := hcollects.equals hc.toArranged (.refl c) (hname.symm ▸ hfind) typed.wellSet htype hchoices
    have hchosen := hcollects.sameChosen typed.wellSet hchoices
    rw [typed.wellSet.project c.has_self hname.symm] at he hchosen
    refine ⟨m', ?_, he, hchosen⟩
    rw [createUpTo_dict hfind]
    exact bind_ok_iff.mpr ⟨m₀, h₀, bind_ok_iff.mpr ⟨m', hsets, rfl⟩⟩

/-- What shows a typed message creates an equal one, with the same members set. -/
theorem Typed.create_plain (hl : lib.IsPaired) (hS : lib.CreatesWithin S) (hm : lib.Typed Scalar.Definite m)
    (hin : S m.type) : ∃ m' : Instance, lib.create m.type (lib.plain m.value) = .ok m'.value ∧
      lib.equal m'.value m.value = true ∧ lib.SameChosen m' m := by
  obtain ⟨m', hcreate, he, hchosen⟩ := TypedUpTo.restored hl hS _ ((lib.plain m.value).depth + 1) hm hin
    (Nat.le_refl _) (Nat.lt_succ_self _)
  exact ⟨m', hcreate, he.equal, hchosen⟩

end Library

end ProtoBind.Message
