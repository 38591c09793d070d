/-
Records that follow one another.

A record of a field is read into any instance as what it contributes
(`Record.Formed.reads`), so records one after another are their contributions one
after another (`run_records`): the last value of a single field and the last
member of a group win, items are added in order, and entries by key (`Merged`).
Two records that go to different attributes and groups can be exchanged
(`Library.Merges`, `merges_of_load`).
-/
import ProtoBind.Proofs.Message.Contributions
import ProtoBind.Proofs.Message.Setters

namespace ProtoBind.Message

open Decode
open Schema (Graph Node)
open Reflection (Tree Faithful)

/-! ## Records -/

/-- A record of a field: its key, with the wire type that it says, and its payload. -/
structure Record where
  codec : FieldCodec
  wireType : Nat
  key : List UInt8
  payload : List UInt8

def Record.bytes (r : Record) : List UInt8 := r.key ++ r.payload

/-- The wire types of the records of a field: that of its elements, or of a run or an entry. -/
def FieldCodec.Frames (p : FieldCodec) (w : Nat) : Prop :=
  match p.arity with
  | .single => w = p.element.wireType.number
  | .repeated =>
    w = p.element.wireType.number ∨ p.element.isPackable = true ∧ w = WireType.lengthDelimited.number
  | .map _ => w = WireType.lengthDelimited.number

/-- A record of a field of the class: a key with the number of the field and a wire type that it uses, and a payload
that the field's read takes whole. -/
structure Record.Formed (lib : Library) (c : MessageClass) (r : Record) : Prop where
  codec : r.codec ∈ c.codecs
  framed : r.codec.Frames r.wireType
  key : ∃ k, Varint 10 r.key k ∧ ((k % 2 ^ 32 : Nat) : Int) = 8 * r.codec.number + r.wireType
  consumed : lib.Consumes c r.codec r.wireType r.payload

/-- The bytes of records one after another. -/
def bytesOf (rs : List Record) : List UInt8 := rs.flatMap Record.bytes

/-- What a record contributes, and to which field. -/
def Record.Contributes (lib : Library) (r : Record) (x : FieldCodec × Contribution) : Prop :=
  x.1 = r.codec ∧ lib.Gives r.codec r.wireType r.payload x.2

/-- The instance with contributions one after another. -/
def MessageClass.addAll (c : MessageClass) (m : Instance) (given : List (FieldCodec × Contribution)) : Instance :=
  given.foldl (fun m x => c.add x.1 m x.2) m

/-! ## What is merged -/

namespace Contribution

def value? : Contribution → Option Value
  | value v => some v
  | _ => none

def itemsOf : Contribution → List Value
  | items vs => vs
  | _ => []

def entriesOf : Contribution → List (Value × Value)
  | entry k v => [(k, v)]
  | _ => []

end Contribution

/-- What is contributed to a field, in order. -/
def contributionsTo (p : FieldCodec) (given : List (FieldCodec × Contribution)) : List Contribution :=
  given.filterMap fun x => if x.1 = p then some x.2 else none

/-- The member of a group that a contribution sets, with its value. -/
def MessageClass.setIn (c : MessageClass) (group : String) (x : FieldCodec × Contribution) : Option (String × Value) :=
  match c.descriptor? x.1.attr with
  | some (.member _ g) => if g = group then x.2.value?.map (x.1.attr, ·) else none
  | _ => none

/-- The instance holds what was contributed to a new one: the last value of a single field and the last member of a
group, all items of a repeated field in order, and the entries of a map, later ones in the place of earlier ones with
their keys. -/
structure Merged (c : MessageClass) (m₀ : Instance) (given : List (FieldCodec × Contribution)) (m : Instance) : Prop where
  home : m.home = m₀.home
  type : m.type = m₀.type
  single : ∀ p ∈ c.codecs, p.arity = .single → c.descriptor? p.attr = none →
    match ((contributionsTo p given).filterMap Contribution.value?).getLast? with
    | some v => c.get m p.attr = .ok v
    | none => c.get m p.attr = c.get m₀ p.attr
  repeated : ∀ p ∈ c.codecs, p.arity = .repeated →
    c.get m p.attr = .ok (.list ((contributionsTo p given).flatMap Contribution.itemsOf))
  maps : ∀ p ∈ c.codecs, ∀ key, p.arity = .map key →
    c.get m p.attr = .ok (.dict (Entries.ofList Value.sameKey ((contributionsTo p given).flatMap Contribution.entriesOf)))
  groups : ∀ group, m.choice? group = (given.filterMap (c.setIn group)).getLast?

/-- The instances hold the same, in their attributes and in their groups. -/
structure Instance.Alike (m m' : Instance) : Prop where
  home : m'.home = m.home
  type : m'.type = m.type
  attrs : ∀ attr, m'.attrs.lookup attr = m.attrs.lookup attr
  choices : ∀ group, m'.choice? group = m.choice? group

/-- Both fields are members of one group. -/
def MessageClass.Siblings (c : MessageClass) (p q : FieldCodec) : Prop :=
  ∃ name name' group, c.descriptor? p.attr = some (.member name group) ∧ c.descriptor? q.attr = some (.member name' group)

namespace Library

/-- Records of a class merge: every list of them is a message that holds what they contribute, and records of
different fields can be exchanged unless both are members of one group. -/
structure Merges (lib : Library) (c : MessageClass) : Prop where
  merged : ∀ rs : List Record, (∀ r ∈ rs, r.Formed lib c) → ∃ m₀ given m, c.fresh = .ok m₀ ∧
    List.Forall₂ (Record.Contributes lib) rs given ∧ lib.ofBytes c.fullName (bytesOf rs) = .ok m.value ∧
    Merged c m₀ given m
  exchanged : ∀ (before : List Record) (r r' : Record) (after : List Record),
    (∀ x ∈ before ++ r :: r' :: after, x.Formed lib c) → r.codec ≠ r'.codec → ¬c.Siblings r.codec r'.codec →
    ∃ m m' : Instance, lib.ofBytes c.fullName (bytesOf (before ++ r :: r' :: after)) = .ok m.value ∧
      lib.ofBytes c.fullName (bytesOf (before ++ r' :: r :: after)) = .ok m'.value ∧ m.Alike m'

end Library

/-- A class that can be read and whose fields have their own numbers and are set under their own attributes. -/
structure Mergeable (lib : Library) (c : MessageClass) : Prop extends Readable lib c where
  numbers : (c.codecs.map (·.number)).Nodup
  own : ∀ p ∈ c.codecs, p.target = p.attr
  members : ∀ p ∈ c.codecs, ∀ name group, c.descriptor? p.attr = some (.member name group) → name = p.attr
  start : ∃ m₀, c.fresh = .ok m₀ ∧ m₀.choices = [] ∧
    ∀ p ∈ c.codecs, ∀ key, p.arity = .map key → m₀.attrs.lookup p.target = some (.dict [])

variable {lib : Library} {c : MessageClass} {p : FieldCodec} {m m₀ m' : Instance} {r : Record} {e : Contribution}
  {given : List (FieldCodec × Contribution)} {rs : List Record}

/-! ## One record -/

theorem FieldCodec.Frames.lt {w : Nat} (h : p.Frames w) : w < 8 := by
  have helement := p.element.wireType_lt
  unfold Frames at h
  split at h
  · exact h ▸ helement
  · rcases h with rfl | ⟨-, rfl⟩
    exacts [helement, by decide]
  · exact h ▸ (by decide)

/-- **A record is read as what it contributes**, into any instance that suits the class. -/
theorem Record.Formed.reads (hr : r.Formed lib c) (hlib : lib.IsReadable) (hc : Mergeable lib c) (hm : c.Suits m)
    (he : lib.Gives r.codec r.wireType r.payload e) : lib.Reads c m r.bytes (c.add r.codec m e) := by
  intro fuel hf
  obtain ⟨k, hkey, hk⟩ := hr.key
  have hw := hr.framed.lt
  have hdiv : ((k % 2 ^ 32 / 8 : Nat) : Int) = r.codec.number := by omega
  have hmod : k % 2 ^ 32 % 8 = r.wireType := by omega
  refine (ofRead_takes (Reader.uint32_takes hkey)).bind ?_
  rw [Nat.pow_eq, hdiv, hmod, find?_of_nodup hc.numbers hr.codec]
  rw [Record.bytes, List.length_append] at hf
  exact he.readField hlib hc.toReadable hr.codec hm fuel (by omega)

/-- **Records one after another are read as their contributions one after another.** -/
theorem run_records (hlib : lib.IsReadable) (hc : Mergeable lib c) (h : List.Forall₂ (Record.Contributes lib) rs given) :
    ∀ {m : Instance}, (∀ r ∈ rs, r.Formed lib c) → c.Suits m →
      lib.RunOf c m (bytesOf rs) (c.addAll m given) ∧ c.Suits (c.addAll m given) := by
  induction h with
  | nil => exact fun _ hm => ⟨.nil _, hm⟩
  | @cons r x rs given hx _ ih =>
    intro m hrs hm
    obtain ⟨codec, e⟩ := x
    obtain ⟨rfl, he⟩ : codec = r.codec ∧ lib.Gives r.codec r.wireType r.payload e := hx
    have hr := hrs r (by simp)
    obtain ⟨hrun, hsuits⟩ := ih (fun r' hr' => hrs r' (by simp [hr'])) (hm.add hc.toReadable hr.codec he.fits)
    exact ⟨.cons (hr.reads hlib hc hm he) hrun, hsuits⟩

/-! ## Contributions one after another -/

/-- The contributions are to fields of the class, each what its field is given. -/
def Suited (c : MessageClass) (given : List (FieldCodec × Contribution)) : Prop :=
  ∀ x ∈ given, x.1 ∈ c.codecs ∧ x.2.Fits x.1.arity

theorem Suited.tail {x : FieldCodec × Contribution} (h : Suited c (x :: given)) : Suited c given := fun y hy =>
  h y (List.mem_cons_of_mem x hy)

theorem Suited.of_contributes (h : List.Forall₂ (Record.Contributes lib) rs given) (hrs : ∀ r ∈ rs, r.Formed lib c) :
    Suited c given := by
  intro x hx
  obtain ⟨r, hr, hcodec, hgives⟩ := forall₂_mem h.flip hx
  exact ⟨hcodec ▸ (hrs r hr).codec, hcodec ▸ hgives.fits⟩

theorem contributionsTo_cons (p : FieldCodec) (x : FieldCodec × Contribution) (given : List (FieldCodec × Contribution)) :
    contributionsTo p (x :: given) = if x.1 = p then x.2 :: contributionsTo p given else contributionsTo p given := by
  unfold contributionsTo
  split
  next h => exact List.filterMap_cons_some (if_pos h)
  next h => exact List.filterMap_cons_none (if_neg h)

/-- A plain attribute holds what its field was given, one contribution after another. -/
theorem lookup_addAll (hc : Mergeable lib c) (hp : p ∈ c.codecs) (hd : c.descriptor? p.target = none) :
    ∀ {given : List (FieldCodec × Contribution)} (m : Instance), Suited c given →
      (c.addAll m given).attrs.lookup p.target =
        (contributionsTo p given).foldl (fun held e => e.into held) (m.attrs.lookup p.target)
  | [], m, _ => rfl
  | x :: given, m, h => by
    have ih := lookup_addAll hc hp hd (c.add x.1 m x.2) h.tail
    show (c.addAll (c.add x.1 m x.2) given).attrs.lookup p.target = _
    rw [ih, contributionsTo_cons]
    by_cases hx : x.1 = p
    · rw [if_pos hx, List.foldl_cons, hx, lookup_add hd, if_pos rfl]
    · have hsame : (c.add x.1 m x.2).attrs.lookup p.target = m.attrs.lookup p.target := by
        by_cases hplain : c.descriptor? x.1.target = none
        · rw [lookup_add hplain, if_neg fun he => hx ?_]
          exact (List.inj_on_of_nodup_map hc.targets hp (h x List.mem_cons_self).1 he).symm
        · rw [attrs_add hplain]
      rw [if_neg hx, hsame]

/-- Any other attribute is left as it was. -/
theorem lookup_addAll_other {attr : String} (hattr : ∀ q ∈ c.codecs, c.descriptor? q.target = none → q.target ≠ attr) :
    ∀ {given : List (FieldCodec × Contribution)} (m : Instance), Suited c given →
      (c.addAll m given).attrs.lookup attr = m.attrs.lookup attr
  | [], _, _ => rfl
  | x :: given, m, h => by
    refine (lookup_addAll_other hattr (c.add x.1 m x.2) h.tail).trans ?_
    by_cases hplain : c.descriptor? x.1.target = none
    · rw [lookup_add hplain, if_neg (hattr x.1 (h x List.mem_cons_self).1 hplain).symm]
    · rw [attrs_add hplain]

/-- One contribution sets its member of a group, and no other group. -/
theorem choice?_add (hc : Mergeable lib c) {x : FieldCodec × Contribution} (hx : x.1 ∈ c.codecs)
    (hfits : x.2.Fits x.1.arity) (m : Instance) (group : String) :
    (c.add x.1 m x.2).choice? group = (c.setIn group x).or (m.choice? group) := by
  have hown := hc.own x.1 hx
  unfold MessageClass.setIn
  rw [← hown]
  cases hd : c.descriptor? x.1.target with
  | none =>
    dsimp only [Option.none_or]
    rw [Instance.choice?, choices_add hd]
    rfl
  | some d =>
    cases d with
    | group name members => exact absurd hd (hc.settable x.1 hx name members)
    | member name other =>
      obtain rfl := (hc.members x.1 hx name other (hown ▸ hd)).trans hown.symm
      have hsingle : x.1.arity = .single := by
        by_contra hne
        rw [hc.plain x.1 hx hne] at hd
        cases hd
      rw [hsingle] at hfits
      obtain ⟨v, hv, -⟩ := hfits
      rw [hv, add_member hd, Instance.choice?_choose]
      by_cases hgroup : group = other
      · subst hgroup
        simp [Contribution.value?]
      · simp [hgroup, Ne.symm hgroup]

/-- The last member of a group that is given a value is the one set. -/
theorem choice?_addAll (hc : Mergeable lib c) (group : String) :
    ∀ {given : List (FieldCodec × Contribution)} (m : Instance), Suited c given →
      (c.addAll m given).choice? group = (given.filterMap (c.setIn group)).getLast?.or (m.choice? group)
  | [], _, _ => rfl
  | x :: given, m, h => by
    obtain ⟨hx, hfits⟩ := h x List.mem_cons_self
    refine (choice?_addAll hc group (c.add x.1 m x.2) h.tail).trans ?_
    rw [choice?_add hc hx hfits]
    cases hset : c.setIn group x with
    | none => rw [List.filterMap_cons_none hset, Option.none_or]
    | some y =>
      rw [List.filterMap_cons_some hset, List.getLast?_cons]
      cases (given.filterMap (c.setIn group)).getLast? <;> rfl

theorem home_addAll : ∀ (given : List (FieldCodec × Contribution)) (m : Instance),
    (c.addAll m given).home = m.home ∧ (c.addAll m given).type = m.type
  | [], _ => ⟨rfl, rfl⟩
  | x :: given, m =>
    have ih := home_addAll given (c.add x.1 m x.2)
    have hx := add_home c x.1 m x.2
    ⟨ih.1.trans hx.1, ih.2.trans hx.2⟩

/-! ## What is held in the end -/

theorem Suited.contributionsTo (h : Suited c given) (p : FieldCodec) : ∀ e ∈ contributionsTo p given, e.Fits p.arity := by
  intro e he
  obtain ⟨x, hx, hxe⟩ := List.mem_filterMap.mp he
  obtain ⟨rfl, rfl⟩ : x.1 = p ∧ x.2 = e := by simpa [Option.ite_none_right_eq_some] using hxe
  exact (h x hx).2

theorem foldl_values : ∀ {es : List Contribution} {held : Option Value}, (∀ e ∈ es, e.Fits .single) →
    es.foldl (fun held e => e.into held) held = (es.filterMap Contribution.value?).getLast?.or held
  | [], _, _ => rfl
  | e :: es, held, h => by
    obtain ⟨v, rfl, -⟩ := h e List.mem_cons_self
    rw [List.foldl_cons, foldl_values fun e' he' => h e' (List.mem_cons_of_mem _ he'),
      List.filterMap_cons_some (show (Contribution.value v).value? = some v from rfl), List.getLast?_cons]
    cases (es.filterMap Contribution.value?).getLast? <;> rfl

theorem foldl_items : ∀ {es : List Contribution} {xs : List Value}, (∀ e ∈ es, e.Fits .repeated) →
    es.foldl (fun held e => e.into held) (some (.list xs)) = some (.list (xs ++ es.flatMap Contribution.itemsOf))
  | [], xs, _ => by simp
  | e :: es, xs, h => by
    obtain ⟨vs, rfl⟩ := h e List.mem_cons_self
    rw [List.foldl_cons, List.flatMap_cons, ← List.append_assoc]
    exact foldl_items fun e' he' => h e' (List.mem_cons_of_mem _ he')

theorem foldl_entries {key : Scalar} : ∀ {es : List Contribution} {ds : List (Value × Value)},
    (∀ e ∈ es, e.Fits (.map key)) → es.foldl (fun held e => e.into held) (some (.dict ds)) =
      some (.dict ((es.flatMap Contribution.entriesOf).foldl (fun acc x => Entries.put Value.sameKey x.1 x.2 acc) ds))
  | [], _, _ => rfl
  | e :: es, ds, h => by
    obtain ⟨k, v, rfl, -⟩ := h e List.mem_cons_self
    rw [List.foldl_cons, List.flatMap_cons, List.foldl_append]
    exact foldl_entries fun e' he' => h e' (List.mem_cons_of_mem _ he')

/-- **What is contributed to a new instance is merged in it.** -/
theorem Mergeable.merged (hc : Mergeable lib c) (h₀ : c.fresh = .ok m₀) (h : Suited c given) :
    Merged c m₀ given (c.addAll m₀ given) := by
  obtain ⟨m₁, h₁, hchoices, hmaps⟩ := hc.start
  obtain rfl : m₀ = m₁ := Except.ok.inj (h₀.symm.trans h₁)
  obtain ⟨m₁, h₁, -, hlists⟩ := hc.fresh
  obtain rfl : m₀ = m₁ := Except.ok.inj (h₀.symm.trans h₁)
  obtain ⟨hhome, htype⟩ := home_addAll (c := c) given m₀
  have hlook {p : FieldCodec} (hp : p ∈ c.codecs) (hd : c.descriptor? p.target = none) :=
    lookup_addAll hc hp hd m₀ h
  refine ⟨hhome, htype, fun p hp harity hd => ?_, fun p hp harity => ?_, fun p hp key harity => ?_, fun group => ?_⟩
  · rw [← hc.own p hp] at hd ⊢
    have hvalues := (hlook hp hd).trans (foldl_values (harity ▸ h.contributionsTo p))
    cases hlast : ((contributionsTo p given).filterMap Contribution.value?).getLast? with
    | none =>
      rw [hlast, Option.none_or] at hvalues
      simp only [MessageClass.get, hd, hvalues]
    | some v =>
      rw [hlast, Option.some_or] at hvalues
      simp only [MessageClass.get, hd, hvalues]
  · rw [← hc.own p hp]
    have hd := hc.plain p hp (fun hsingle => by cases harity.symm.trans hsingle)
    have hitems := hlook hp hd
    rw [hlists p hp harity, foldl_items (harity ▸ h.contributionsTo p), List.nil_append] at hitems
    simp only [MessageClass.get, hd, hitems]
  · rw [← hc.own p hp]
    have hd := hc.plain p hp (fun hsingle => by cases harity.symm.trans hsingle)
    have hentries := hlook hp hd
    rw [hmaps p hp key harity, foldl_entries (harity ▸ h.contributionsTo p)] at hentries
    simp only [MessageClass.get, hd, hentries]
    rfl
  · have hnone : m₀.choice? group = none := by rw [Instance.choice?, hchoices]; rfl
    rw [choice?_addAll hc group m₀ h, hnone, Option.or_none]

/-! ## Exchanging -/

theorem filterMap_swap {α β : Type} {f : α → Option β} {x y : α} (h : f x = none ∨ f y = none) (before after : List α) :
    (before ++ x :: y :: after).filterMap f = (before ++ y :: x :: after).filterMap f := by
  rw [List.filterMap_append, List.filterMap_append]
  congr 1
  rcases h with h | h <;> cases hx : f x <;> cases hy : f y <;> simp_all

/-- **Contributions to different fields can be exchanged**, unless both are members of one group. -/
theorem Mergeable.alike (hc : Mergeable lib c) (m : Instance) {x y : FieldCodec × Contribution}
    {before after : List (FieldCodec × Contribution)} (h : Suited c (before ++ x :: y :: after)) (hxy : x.1 ≠ y.1)
    (hapart : ¬c.Siblings x.1 y.1) :
    (c.addAll m (before ++ x :: y :: after)).Alike (c.addAll m (before ++ y :: x :: after)) := by
  have h' : Suited c (before ++ y :: x :: after) := fun z hz => h z (by simp at hz ⊢; tauto)
  obtain ⟨hhome, htype⟩ := home_addAll (c := c) (before ++ x :: y :: after) m
  obtain ⟨hhome', htype'⟩ := home_addAll (c := c) (before ++ y :: x :: after) m
  refine ⟨hhome'.trans hhome.symm, htype'.trans htype.symm, fun attr => ?_, fun group => ?_⟩
  · by_cases hattr : ∃ p ∈ c.codecs, c.descriptor? p.target = none ∧ p.target = attr
    · obtain ⟨p, hp, hd, rfl⟩ := hattr
      rw [lookup_addAll hc hp hd m h, lookup_addAll hc hp hd m h']
      refine congrArg (fun es => List.foldl _ _ es) (filterMap_swap ?_ before after).symm
      by_cases hx : x.1 = p
      · exact .inr (if_neg fun hy => hxy (hx.trans hy.symm))
      · exact .inl (if_neg hx)
    · have hother : ∀ q ∈ c.codecs, c.descriptor? q.target = none → q.target ≠ attr :=
        fun q hq hd he => hattr ⟨q, hq, hd, he⟩
      rw [lookup_addAll_other hother m h, lookup_addAll_other hother m h']
  · rw [choice?_addAll hc group m h, choice?_addAll hc group m h', filterMap_swap]
    by_contra hboth
    obtain ⟨hy, hx⟩ := not_or.mp hboth
    have hmember {z : FieldCodec × Contribution} (hz : c.setIn group z ≠ none) :
        ∃ name, c.descriptor? z.1.attr = some (.member name group) := by
      unfold MessageClass.setIn at hz
      split at hz
      next name other hd =>
        split at hz
        next he => exact ⟨name, he ▸ hd⟩
        next => exact absurd rfl hz
      next => exact absurd rfl hz
    obtain ⟨name, hname⟩ := hmember hx
    obtain ⟨name', hname'⟩ := hmember hy
    exact hapart ⟨name, name', group, hname, hname'⟩

/-! ## Messages -/

theorem Record.Formed.contributes (hr : r.Formed lib c) (hlib : lib.IsReadable) (hc : Mergeable lib c) :
    ∃ x, r.Contributes lib x := by
  obtain ⟨e, he⟩ := hr.consumed.gives hlib hc.toReadable hr.codec
  exact ⟨(r.codec, e), rfl, he⟩

/-- Records that contribute are a message that holds what they contribute. -/
theorem ofBytes_records (hlib : lib.IsReadable) (hc : Mergeable lib c) (hfound : lib.message? c.fullName = some c)
    (h₀ : c.fresh = .ok m₀) (h : List.Forall₂ (Record.Contributes lib) rs given) (hrs : ∀ r ∈ rs, r.Formed lib c) :
    lib.ofBytes c.fullName (bytesOf rs) = .ok (c.addAll m₀ given).value := by
  obtain ⟨m₁, h₁, hsuits, -⟩ := hc.fresh
  obtain rfl : m₀ = m₁ := Except.ok.inj (h₀.symm.trans h₁)
  exact Library.ofBytes_eq_ok_iff.mpr ⟨c, m₀, _, hfound, h₀, (run_records hlib hc h hrs hsuits).1, rfl⟩

/-- **The records of a class merge.** -/
theorem Mergeable.merges (hlib : lib.IsReadable) (hc : Mergeable lib c) (hfound : lib.message? c.fullName = some c) :
    lib.Merges c := by
  obtain ⟨m₀, h₀, -⟩ := hc.fresh
  refine ⟨fun rs hrs => ?_, fun before r r' after hrs hne hapart => ?_⟩
  · obtain ⟨given, hgiven⟩ := forall₂_exists fun r hr => (hrs r hr).contributes hlib hc
    exact ⟨m₀, given, _, h₀, hgiven, ofBytes_records hlib hc hfound h₀ hgiven hrs,
      hc.merged h₀ (.of_contributes hgiven hrs)⟩
  · obtain ⟨given, hbefore⟩ : ∃ given, List.Forall₂ (Record.Contributes lib) before given :=
      forall₂_exists fun z hz => (hrs z (by simp [hz])).contributes hlib hc
    obtain ⟨x, hx⟩ := (hrs r (by simp)).contributes hlib hc
    obtain ⟨y, hy⟩ := (hrs r' (by simp)).contributes hlib hc
    obtain ⟨later, hafter⟩ : ∃ later, List.Forall₂ (Record.Contributes lib) after later :=
      forall₂_exists fun z hz => (hrs z (by simp [hz])).contributes hlib hc
    have hgiven := List.rel_append hbefore (.cons hx (.cons hy hafter))
    have hgiven' := List.rel_append hbefore (.cons hy (.cons hx hafter))
    refine ⟨_, _, ofBytes_records hlib hc hfound h₀ hgiven hrs, ofBytes_records hlib hc hfound h₀ hgiven' ?_,
      hc.alike m₀ (.of_contributes hgiven hrs) ?_ ?_⟩
    · exact fun z hz => hrs z (by simp at hz ⊢; tauto)
    · rwa [hx.1, hy.1]
    · rwa [hx.1, hy.1]

/-! ## Loaded sources -/

variable {g : Graph} {t : Tree} {n : Node}

/-- A payload that contributes to a field is taken whole by its read. -/
theorem Library.Gives.consumes {w : Nat} {payload : List UInt8} (hlib : lib.IsReadable) (hc : Readable lib c)
    (hp : p ∈ c.codecs) (h : lib.Gives p w payload e) : lib.Consumes c p w payload := by
  obtain ⟨m₀, -, hsuits, -⟩ := hc.fresh
  exact ⟨m₀, _, hsuits, h.readField hlib hc hp hsuits⟩

end ProtoBind.Message
