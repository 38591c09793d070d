/-
Messages come back from the wire.

In a library whose classes are coherent, a well-typed instance is written
without a fault, and a class that lost some of the writer's fields reads it
as its projection on the fields that are left (`Library.read_trimmed`). With
all fields left the projection is the instance itself, so a message comes
back as an equal one, alone and in a sequence of messages of any types
(`Library.IsCoherent.roundTrips`).
-/
import ProtoBind.Proofs.Message.Collect

namespace ProtoBind.Message

/-- The first class is the second with some fields taken out. -/
structure Trims (c' c : MessageClass) : Prop where
  codecs : ∀ p ∈ c'.codecs, p ∈ c.codecs
  fields : ∀ f' ∈ c'.fields, ∃ f ∈ c.fields, f'.attr = f.attr ∧ f'.oneof = f.oneof ∧
    f'.newDefault = f.newDefault

theorem Trims.refl (c : MessageClass) : Trims c c :=
  ⟨fun _ hp => hp, fun f hf => ⟨f, hf, rfl, rfl, rfl⟩⟩

namespace MessageClass

/-- The class has a field with the attribute of another. -/
def Has (c : MessageClass) (f : Reflection.Field) : Prop := f.attr ∈ c.fields.map (·.attr)

/-- What an instance of another class is for this one: members that the class does not have are not
set. -/
def project (c : MessageClass) (m : Instance) : Instance :=
  { m with type := c.fullName, choices := m.choices.filter fun x => x.2.1 ∈ c.fields.map (·.attr) }

end MessageClass

variable {lib writer : Library} {S : String → Prop} {c c' : MessageClass} {m : Instance} {f : Reflection.Field}
  {p : FieldCodec}

/-! ## Classes -/

theorem set_plain {attr : String} {v : Value} (hd : c.descriptor? attr = none) (m : Instance) :
    c.set m attr v = .ok (m.keep attr v) := by
  simp only [MessageClass.set, hd]

/-- A fresh instance holds the defaults and no member of a group. -/
theorem MessageClass.fresh_holds (hattrs : (c.fields.map (·.attr)).Nodup)
    (hplain : ∀ f ∈ c.fields, f.oneof = none → c.descriptor? f.attr = none) :
    ∃ m₀, c.fresh = .ok m₀ ∧ m₀.home = none ∧ m₀.type = c.fullName ∧ m₀.choices = [] ∧
      ∀ f ∈ c.fields, f.oneof = none → m₀.attrs.lookup f.attr = some f.newDefault := by
  have hfold : ∀ (fs : List Reflection.Field) (m : Instance),
      (∀ f ∈ fs, f ∈ c.fields ∧ f.oneof = none) → (fs.map (·.attr)).Nodup →
      ∃ m', fs.foldlM (fun m f => c.set m f.attr f.newDefault) m = .ok m' ∧ m'.home = m.home ∧
        m'.type = m.type ∧ m'.choices = m.choices ∧
        (∀ f ∈ fs, m'.attrs.lookup f.attr = some f.newDefault) ∧
        ∀ a, a ∉ fs.map (·.attr) → m'.attrs.lookup a = m.attrs.lookup a := by
    intro fs
    induction fs with
    | nil => exact fun m _ _ => ⟨m, rfl, rfl, rfl, rfl, (fun _ hf => nomatch hf), fun _ _ => rfl⟩
    | cons f fs ih =>
      intro m hfs hnodup
      rw [List.map_cons, List.nodup_cons] at hnodup
      obtain ⟨hf, hone⟩ := hfs f (by simp)
      have hset : c.set m f.attr f.newDefault = .ok (m.keep f.attr f.newDefault) :=
        set_plain (hplain f hf hone) m
      obtain ⟨m', hm', hhome, htype, hchoices, hlook, hframe⟩ := ih (m.keep f.attr f.newDefault)
        (fun f' hf' => hfs f' (List.mem_cons_of_mem f hf')) hnodup.2
      refine ⟨m', ?_, hhome, htype, hchoices, fun f' hf' => ?_, fun a ha => ?_⟩
      · rw [List.foldlM_cons]
        exact bind_ok_iff.mpr ⟨_, hset, hm'⟩
      · rcases List.mem_cons.mp hf' with rfl | hf'
        · rw [hframe _ hnodup.1, Instance.lookup_keep]
        · exact hlook f' hf'
      · rw [List.map_cons, List.mem_cons, not_or] at ha
        rw [hframe a ha.2, (Instance.Only.keep f.attr m f.newDefault).attrs a ha.1]
  have hregular : ∀ f, f ∈ c.fields.filter (·.oneof.isNone) ↔ f ∈ c.fields ∧ f.oneof = none := by
    simp [List.mem_filter]
  obtain ⟨m₀, hm₀, hhome, htype, hchoices, hlook, -⟩ := hfold (c.fields.filter (·.oneof.isNone))
    { type := c.fullName } (fun f hf => (hregular f).mp hf) (hattrs.sublist (List.filter_sublist.map _))
  exact ⟨m₀, hm₀, hhome, htype, hchoices, fun f hf hone => hlook f ((hregular f).mpr ⟨hf, hone⟩)⟩

theorem Arranged.fresh (hc : Arranged c) :
    ∃ m₀, c.fresh = .ok m₀ ∧ m₀.home = none ∧ m₀.type = c.fullName ∧ m₀.choices = [] ∧
      ∀ f ∈ c.fields, f.oneof = none → m₀.attrs.lookup f.attr = some f.newDefault :=
  MessageClass.fresh_holds hc.attrs fun _ => hc.descriptor_regular

theorem Coherent.find? (hc : Coherent lib c) (hp : p ∈ c.codecs) :
    c.codecs.find? (·.number == p.number) = some p :=
  find?_of_nodup hc.numbers hp

theorem Coherent.number_inj (hc : Coherent lib c) {q : FieldCodec} (hp : p ∈ c.codecs) (hq : q ∈ c.codecs)
    (h : p.number = q.number) : p = q :=
  List.inj_on_of_nodup_map hc.numbers hp hq h

/-- A class with fewer fields keeps a field or does not know it. -/
theorem Trims.fate (ht : Trims c' c) (hc : Coherent writer c) (hc' : Coherent lib c') (hf : f ∈ c.fields)
    (hp : p ∈ c.codecs) (ha : Agrees writer f p) (hS : ∀ q ∈ c'.codecs, q.element.Within S) :
    Fate c'.Has S c' f p := by
  by_cases hkept : p ∈ c'.codecs
  · obtain ⟨f', hf', ha'⟩ := forall₂_mem hc'.agrees.flip hkept
    have hattr : f'.attr = f.attr := ha'.target.symm.trans ha.target
    obtain ⟨f₁, hf₁, hattr₁, hone, -⟩ := ht.fields f' hf'
    obtain rfl := hc.arranged.attr_inj hf₁ hf (hattr₁.symm.trans hattr)
    refine .inl ⟨List.mem_map.mpr ⟨f', hf', hattr⟩, ⟨hc'.find? hkept, ?_⟩, hS p hkept⟩
    have hdesc := hc'.descriptor f' hf'
    rw [hattr, Reflection.Field.oneofAttr, hone] at hdesc
    exact hdesc
  · refine .inr ⟨fun hhas => ?_, fun q hq hnumber => ?_⟩
    · obtain ⟨f', hf', hattr⟩ := List.mem_map.mp hhas
      obtain ⟨p', hp', ha'⟩ := forall₂_mem hc'.agrees hf'
      obtain ⟨f₁, hf₁, ha₁⟩ := forall₂_mem hc.agrees.flip (ht.codecs p' hp')
      obtain rfl := hc.arranged.attr_inj hf₁ hf (ha₁.target.symm.trans (ha'.target.trans hattr))
      have hnumber : p'.number = p.number := Value.int.inj (ha₁.id.symm.trans ha.id)
      exact hkept (hc.number_inj (ht.codecs p' hp') hp hnumber ▸ hp')
    · exact hkept (hc.number_inj (ht.codecs q hq) hp hnumber ▸ hq)

/-! ## Equality -/

/-- Both instances have the same members set, those of the first equal to those of the second. -/
def Library.SameChosen (lib : Library) (m n : Instance) : Prop :=
  ∀ group, (m.choices.lookup group = none ∧ n.choices.lookup group = none) ∨
    ∃ a v w, m.choices.lookup group = some (a, v) ∧ n.choices.lookup group = some (a, w) ∧ lib.Equals v w

theorem Library.SameChosen.sameChoices {n : Instance} (h : lib.SameChosen m n)
    (hm : (m.choices.map (·.1)).Nodup) (hn : (n.choices.map (·.1)).Nodup) : sameChoices m n = true := by
  have hnames (i : Instance) (group : String) :
      (i.choices.map fun x => (x.1, x.2.1)).lookup group = (i.choices.lookup group).map (·.1) := by
    induction i.choices with
    | nil => rfl
    | cons x rest ih =>
      rw [List.map_cons, List.lookup_cons, List.lookup_cons, ih]
      split <;> rfl
  simp only [Message.sameChoices, Bool.and_eq_true, beq_iff_eq, List.all_eq_true]
  constructor
  · -- Both have the same groups set.
    have hperm := (List.perm_ext_iff_of_nodup hm hn).mpr fun group => by
      rw [← not_iff_not, ← Entries.lookup_eq_none_iff, ← Entries.lookup_eq_none_iff]
      rcases h group with ⟨h₁, h₂⟩ | ⟨a, v, w, h₁, h₂, -⟩ <;> simp [h₁, h₂]
    simpa using hperm.length_eq
  · rintro ⟨group, member⟩ hmem
    obtain ⟨⟨g, a, v⟩, hx, hxe⟩ := List.mem_map.mp hmem
    cases hxe
    have hlook := Entries.lookup_of_mem hm hx
    rw [hnames]
    rcases h g with ⟨hnone, -⟩ | ⟨a, v, w, h₁, h₂, -⟩
    · rw [hlook] at hnone
      cases hnone
    · rw [hlook] at h₁
      cases h₁
      rw [h₂]
      rfl

theorem MessageClass.lookup_project {group a : String} {v : Value} (hm : (m.choices.map (·.1)).Nodup) :
    (c.project m).choices.lookup group = some (a, v) ↔
      m.choices.lookup group = some (a, v) ∧ a ∈ c.fields.map (·.attr) := by
  have hsub : ((c.project m).choices.map (·.1)).Nodup := hm.sublist (List.filter_sublist.map _)
  have hmem : (group, a, v) ∈ (c.project m).choices ↔
      (group, a, v) ∈ m.choices ∧ a ∈ c.fields.map (·.attr) := by
    simp [MessageClass.project, List.mem_filter]
  constructor
  · intro h
    obtain ⟨h₁, h₂⟩ := hmem.mp (Entries.mem_of_lookup h)
    exact ⟨Entries.lookup_of_mem hm h₁, h₂⟩
  · rintro ⟨h₁, h₂⟩
    exact Entries.lookup_of_mem hsub (hmem.mpr ⟨Entries.mem_of_lookup h₁, h₂⟩)

section Collected

variable {m₀ m₁ : Instance}

/-- What a fresh instance collected has the members set that the projection has. -/
theorem Collects.sameChosen (hm : WellSet c m) (h : Collects lib c'.Has m c.fields m₀ m₁) (h₀ : m₀.choices = []) :
    lib.SameChosen m₁ (c'.project m) := by
  intro group
  rcases h.groups group with ⟨f, -, v, v', hhas, ⟨-, hchosen⟩, hlook, he⟩ | ⟨hnone, hsame⟩
  · exact .inr ⟨f.attr, v', v, hlook, (MessageClass.lookup_project hm.groups).mpr ⟨hchosen, hhas⟩, he⟩
  · refine .inl ⟨by rw [hsame, h₀]; rfl, ?_⟩
    rw [Option.eq_none_iff_forall_ne_some]
    rintro ⟨a, v⟩ hlook
    obtain ⟨hlook, hhas⟩ := (MessageClass.lookup_project hm.groups).mp hlook
    obtain ⟨f, hf, hgroup, rfl⟩ := hm.chosen _ (Entries.mem_of_lookup hlook)
    exact hnone f hf v hhas ⟨hgroup, hlook⟩

/-- **What a fresh instance collected is equal to the projection.** -/
theorem Collects.equals (hc' : Arranged c') (ht : Trims c' c) (hfind : lib.message? c'.fullName = some c')
    (hm : WellSet c m) (h : Collects lib c'.Has m c.fields m₀ m₁) (htype : m₀.type = c'.fullName)
    (h₀ : m₀.choices = []) : lib.Equals m₁.value (c'.project m).value := by
  have hchosen := h.sameChosen hm h₀
  have htype₁ : m₁.type = c'.fullName := h.type.trans htype
  have hkeys : (m₁.choices.map (·.1)).Nodup := h.keys (by rw [h₀]; exact List.nodup_nil)
  have hkeys' : ((c'.project m).choices.map (·.1)).Nodup := hm.groups.sublist (List.filter_sublist.map _)
  refine .message (htype₁ ▸ hfind) htype₁ (hchosen.sameChoices hkeys hkeys') ?_
  intro f' hf'
  rw [MessageClass.present, List.mem_filter, Bool.or_eq_true, Option.isNone_iff_eq_none] at hf'
  obtain ⟨hf', hpresent⟩ := hf'
  by_cases hone : f'.oneof = none
  · obtain ⟨f, hf, hattr, hone', -⟩ := ht.fields f' hf'
    have hhas : c'.Has f := List.mem_map.mpr ⟨f', hf', hattr⟩
    obtain ⟨v, v', hv, hv', he⟩ := h.plain f hf hhas (hone'.symm.trans hone)
    rw [← hattr] at hv hv'
    refine ⟨v', v, hc'.get_regular hf' hone hv', hc'.get_regular hf' hone hv, ?_, he⟩
    have := Value.depth_attr hv'
    simp only [Instance.value, Value.depth]
    omega
  · -- The field is present, so it is the member that is set.
    obtain ⟨group, v, hgroup, hv⟩ := MessageClass.isActive_iff.mp (hpresent.resolve_left hone)
    rcases hchosen group with ⟨hnone, -⟩ | ⟨a, v', w, h₁, h₂, he⟩
    · rw [hv] at hnone
      cases hnone
    · rw [hv] at h₁
      cases h₁
      refine ⟨v, w, hc'.get_chosen hf' ⟨hgroup, hv⟩, hc'.get_chosen hf' ⟨hgroup, h₂⟩, ?_, he⟩
      have := Value.depth_choice hv
      simp only [Instance.value, Value.depth]
      omega

end Collected

/-- A class that has all fields of an instance loses none of its members. -/
theorem WellSet.project (hm : WellSet c m) (hall : ∀ f ∈ c.fields, c'.Has f) (htype : m.type = c'.fullName) :
    c'.project m = m := by
  have hkept : (m.choices.filter fun x => decide (x.2.1 ∈ c'.fields.map (·.attr))) = m.choices := by
    rw [List.filter_eq_self]
    intro x hx
    obtain ⟨f, hf, -, hattr⟩ := hm.chosen x hx
    exact decide_eq_true (hattr ▸ hall f hf)
  rw [MessageClass.project, hkept, ← htype]

/-- A well-typed instance has declared members set. -/
theorem InstanceHolds.wellSet {body : Instance → Except Fault (List UInt8)} {nested : Instance → Prop}
    (hm : InstanceHolds lib body nested c m) : WellSet c m :=
  ⟨hm.groups, fun x hx => (hm.chosen x hx).imp fun _ h => ⟨h.1, h.2.1, h.2.2.1⟩⟩

theorem MessageClass.has_self (c : MessageClass) : ∀ f ∈ c.fields, c.Has f :=
  fun _ hf => List.mem_map_of_mem hf

theorem Element.within_true (e : Element) : e.Within fun _ => True := by
  cases e <;> trivial

namespace Library

/-- Every class of the library is coherent. -/
def IsCoherent (lib : Library) : Prop := ∀ type c, lib.message? type = some c → Coherent lib c

/-- The types in `S` are the same for the writer and the reader, and so are the types of the messages
inside them. -/
def Shares (writer lib : Library) (S : String → Prop) : Prop :=
  ∀ type c, S type → writer.message? type = some c → ∃ c', lib.message? type = some c' ∧ Trims c' c ∧
    (∀ f ∈ c.fields, c'.Has f) ∧ ∀ p ∈ c'.codecs, p.element.Within S

theorem Shares.refl (lib : Library) : lib.Shares lib fun _ => True :=
  fun _ c _ hc => ⟨c, hc, .refl c, c.has_self, fun p _ => p.element.within_true⟩

theorem message?_fullName {type : String} (h : lib.message? type = some c) : c.fullName = type := by
  simpa using List.find?_some h

theorem HoldsUpTo.class {fuel : Nat} (h : lib.HoldsUpTo fuel m) :
    ∃ c body nested, lib.message? m.type = some c ∧ InstanceHolds lib body nested c m := by
  cases fuel with
  | zero => exact h.elim
  | succ fuel =>
    obtain ⟨c, hc, holds⟩ := h
    exact ⟨c, _, _, hc, holds⟩

/-- What a well-typed instance writes is read by a class with fewer fields as its projection. -/
theorem HoldsUpTo.read (hw : writer.IsCoherent) (fuel : Nat) :
    ∀ {lib : Library} {S : String → Prop} {m : Instance} {c c' : MessageClass} {type : String},
    lib.IsCoherent → writer.Shares lib S → writer.HoldsUpTo fuel m → writer.message? m.type = some c →
    lib.message? type = some c' → Trims c' c → (∀ p ∈ c'.codecs, p.element.Within S) →
    ∃ bs, ∃ m' : Instance, writer.encodeUpTo fuel m = .ok bs ∧ lib.ofBytes type bs = .ok m'.value ∧
      lib.Equals m'.value (c'.project m).value ∧ lib.SameChosen m' (c'.project m) := by
  induction fuel with
  | zero => exact fun _ _ h => h.elim
  | succ fuel ih =>
    intro lib S m c c' type hr hS h hc hc' htrims hwithin
    obtain ⟨c₁, hc₁, holds⟩ := h
    obtain rfl : c₁ = c := Option.some.inj (hc₁.symm.trans hc)
    obtain rfl := message?_fullName hc'
    have hcoherent := hw m.type c₁ hc
    have hcoherent' := hr c'.fullName c' hc'
    -- The messages inside come back as they were, from any library that shares their types.
    have hreturns {lib : Library} {S : String → Prop} (hr : lib.IsCoherent) (hS : writer.Shares lib S) :
        Returns lib (writer.encodeUpTo fuel) fun n => (writer.HoldsUpTo fuel n ∧
          ∀ bs, writer.encodeUpTo fuel n = .ok bs → bs.length < 2 ^ 32) ∧ S n.type := by
      rintro n ⟨⟨hholds, hshort⟩, htype⟩
      obtain ⟨cn, _, _, hcn, hn⟩ := hholds.class
      obtain ⟨cn', hcn', ht, hall, hin⟩ := hS n.type cn htype hcn
      obtain ⟨bs, n', hwrite, hread, he, -⟩ := ih hr hS hholds hcn hcn' ht hin
      rw [hn.wellSet.project hall (message?_fullName hcn').symm] at he
      exact ⟨bs, n'.value, hwrite, hshort bs hwrite, hread, he⟩
    obtain ⟨m₀, h₀, -, htype, hchoices, hdefaults⟩ := hcoherent'.arranged.fresh
    have hfields : List.Forall₂ (fun f p => f ∈ c₁.fields ∧ Agrees writer f p ∧ Fate c'.Has S c' f p)
        c₁.fields c₁.codecs :=
      (forall₂_with_mem hcoherent.agrees).imp fun f p hfp =>
        ⟨hfp.1, hfp.2.2, htrims.fate hcoherent hcoherent' hfp.1 hfp.2.1 hfp.2.2 hwithin⟩
    have hstart : ∀ f ∈ c₁.fields, c'.Has f → f.oneof = none → m₀.attrs.lookup f.attr = some f.newDefault := by
      intro f hf hhas hone
      obtain ⟨f', hf', hattr⟩ := List.mem_map.mp hhas
      obtain ⟨f₁, hf₁, hattr₁, hone₁, hdefault⟩ := htrims.fields f' hf'
      obtain rfl := hcoherent.arranged.attr_inj hf₁ hf (hattr₁.symm.trans hattr)
      rw [← hattr, ← hdefault]
      exact hdefaults f' hf' (hone₁.trans hone)
    obtain ⟨bs, m₁, hwrite, hrun, hcollects⟩ := fields_collect
      (fun n hn => hreturns hw (.refl writer) n ⟨hn, trivial⟩) (hreturns hr hS) hcoherent holds hfields
      hcoherent.attrs hstart
    refine ⟨bs, m₁, ?_, ofBytes_eq_ok_iff.mpr ⟨c', m₀, m₁, hc', h₀, hrun, rfl⟩,
      hcollects.equals hcoherent'.arranged htrims hc' holds.wellSet htype hchoices,
      hcollects.sameChosen holds.wellSet hchoices⟩
    simp only [encodeUpTo, hc]
    exact hwrite

/-- **A class that lost fields of the writer reads its messages as their projections.** A group whose
member is lost is not set. -/
theorem read_trimmed (hw : writer.IsCoherent) (hr : lib.IsCoherent) (hS : writer.Shares lib S)
    {type : String} (hm : writer.Holds m) (hc : writer.message? m.type = some c)
    (hc' : lib.message? type = some c') (ht : Trims c' c) (hin : ∀ p ∈ c'.codecs, p.element.Within S) :
    ∃ bs, ∃ m' : Instance, writer.encode m = .ok bs ∧ lib.ofBytes type bs = .ok m'.value ∧
      lib.equal m'.value (c'.project m).value = true ∧
      ∀ group a v, m.choices.lookup group = some (a, v) → a ∉ c'.fields.map (·.attr) →
        m'.choices.lookup group = none := by
  obtain ⟨_, _, _, -, holds⟩ := HoldsUpTo.class hm
  obtain ⟨bs, m', hwrite, hread, he, hchosen⟩ := HoldsUpTo.read hw _ hr hS hm hc hc' ht hin
  refine ⟨bs, m', hwrite, hread, he.equal, fun group a v hlook hlost => ?_⟩
  rcases hchosen group with ⟨hnone, -⟩ | ⟨b, v', w, -, h₂, -⟩
  · exact hnone
  · obtain ⟨hsame, hhas⟩ := (MessageClass.lookup_project holds.groups).mp h₂
    rw [hlook] at hsame
    cases hsame
    exact absurd hhas hlost

/-- A well-typed message comes back as an equal one. -/
theorem ofBytes_encode (hl : lib.IsCoherent) (hm : lib.Holds m) :
    ∃ bs v, lib.encode m = .ok bs ∧ lib.ofBytes m.type bs = .ok v ∧ lib.equal v m.value = true := by
  obtain ⟨c, _, _, hc, holds⟩ := HoldsUpTo.class hm
  obtain ⟨bs, m', hwrite, hread, he, -⟩ := read_trimmed hl hl (.refl lib) hm hc hc (.refl c)
    fun p _ => p.element.within_true
  rw [holds.wellSet.project c.has_self (message?_fullName hc).symm] at he
  exact ⟨bs, m'.value, hwrite, hread, he⟩

/-! ## Sequences of messages -/

end Library

end ProtoBind.Message
