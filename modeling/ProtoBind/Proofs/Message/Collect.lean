/-
How the fields of one instance are collected in another.

A writer goes through its fields in order, and what each of them writes is
either passed over by the reader or changes one attribute or one group
(`field_collects`). `Collects` is the invariant of this loop: the fields that
the reader keeps have arrived, the others have left no trace
(`fields_collect`).
-/
import ProtoBind.Proofs.Message.Members
import ProtoBind.Proofs.Message.Receiving

namespace ProtoBind.Message

/-- The two sides of a class describe the same fields, under numbers and attributes of their own. -/
structure Coherent (lib : Library) (c : MessageClass) : Prop where
  agrees : List.Forall₂ (Agrees lib) c.fields c.codecs
  numbers : (c.codecs.map (·.number)).Nodup
  attrs : (c.fields.map (·.attr)).Nodup
  descriptor : ∀ f ∈ c.fields, c.descriptor? f.attr = f.oneofAttr.map (.member f.attr)

theorem Coherent.arranged {lib : Library} {c : MessageClass} (hc : Coherent lib c) : Arranged c :=
  ⟨hc.attrs, hc.descriptor⟩

/-- What becomes of a field: the reader keeps it, with messages of types in `S`, or does not know
it. -/
def Fate (K : Reflection.Field → Prop) (S : String → Prop) (c' : MessageClass) (f : Reflection.Field)
    (p : FieldCodec) : Prop :=
  (K f ∧ Keeps c' f p ∧ p.element.Within S) ∨ (¬K f ∧ Drops c' p)

/-- The fields `fs` of `m` that are kept have been added to `m₁`. -/
structure Collects (lib : Library) (K : Reflection.Field → Prop) (m : Instance)
    (fs : List Reflection.Field) (m₁ m₂ : Instance) : Prop where
  home : m₂.home = m₁.home
  type : m₂.type = m₁.type
  frame : ∀ a, a ∉ fs.map (·.attr) → m₂.attrs.lookup a = m₁.attrs.lookup a
  plain : ∀ f ∈ fs, K f → f.oneof = none → ∃ v v', m.attrs.lookup f.attr = some v ∧
    m₂.attrs.lookup f.attr = some v' ∧ lib.Equals v' v
  groups : ∀ group,
    (∃ f ∈ fs, ∃ v v', K f ∧ Chosen m f group v ∧ m₂.choices.lookup group = some (f.attr, v') ∧
      lib.Equals v' v) ∨
    ((∀ f ∈ fs, ∀ v, K f → ¬Chosen m f group v) ∧ m₂.choices.lookup group = m₁.choices.lookup group)
  keys : (m₁.choices.map (·.1)).Nodup → (m₂.choices.map (·.1)).Nodup

variable {lib writer : Library} {K : Reflection.Field → Prop} {S : String → Prop} {m m₁ m₂ m₃ : Instance}

/-- A field that is not kept, or a member that is not set, leaves no trace. -/
theorem Collects.nothing {fs : List Reflection.Field} (m₁ : Instance)
    (hplain : ∀ f ∈ fs, K f → f.oneof ≠ none) (hgroup : ∀ f ∈ fs, ∀ group v, K f → ¬Chosen m f group v) :
    Collects lib K m fs m₁ m₁ where
  home := rfl
  type := rfl
  frame _ _ := rfl
  plain f hf hK hone := absurd hone (hplain f hf hK)
  groups group := .inr ⟨fun f hf v => hgroup f hf group v, rfl⟩
  keys := id

theorem Collects.cons {f : Reflection.Field} {fs : List Reflection.Field} (h₁ : Collects lib K m [f] m₁ m₂)
    (h₂ : Collects lib K m fs m₂ m₃) (hf : f.attr ∉ fs.map (·.attr)) : Collects lib K m (f :: fs) m₁ m₃ where
  home := h₂.home.trans h₁.home
  type := h₂.type.trans h₁.type
  frame a ha := by
    rw [List.map_cons, List.mem_cons, not_or] at ha
    exact (h₂.frame a ha.2).trans (h₁.frame a (by simpa using ha.1))
  plain f' hf' hK hone := by
    rcases List.mem_cons.mp hf' with rfl | hf'
    · rw [h₂.frame _ hf]
      exact h₁.plain f' (by simp) hK hone
    · exact h₂.plain f' hf' hK hone
  groups group := by
    rcases h₂.groups group with ⟨f', hf', hrest⟩ | ⟨hnone, hsame⟩
    · exact .inl ⟨f', List.mem_cons_of_mem f hf', hrest⟩
    · rw [hsame]
      rcases h₁.groups group with ⟨f', hf', hrest⟩ | ⟨hnone', hsame'⟩
      · exact .inl ⟨f', by simp_all, hrest⟩
      · refine .inr ⟨fun f' hf' => ?_, hsame'⟩
        rcases List.mem_cons.mp hf' with rfl | hf'
        · exact hnone' f' (by simp)
        · exact hnone f' hf'
  keys := h₂.keys ∘ h₁.keys

/-! ## One field -/

section Field

variable {body : Instance → Except Fault (List UInt8)} {nested : Instance → Prop} {c c' : MessageClass}
  {f : Reflection.Field} {p : FieldCodec}

/-- A member of a group that a reader keeps becomes the one that is set. -/
theorem Collects.choose {group : String} {v v' : Value} (hK : K f) (hchosen : Chosen m f group v)
    (hv : lib.Equals v' v) (m₁ : Instance) : Collects lib K m [f] m₁ (m₁.choose group f.attr v') where
  home := rfl
  type := rfl
  frame _ _ := rfl
  plain f' hf' _ hone := by
    obtain rfl := List.mem_singleton.mp hf'
    exact absurd hone hchosen.grouped
  groups group' := by
    by_cases hg : group' = group
    · subst hg
      refine .inl ⟨f, by simp, v, v', hK, hchosen, ?_, hv⟩
      rw [Instance.choose, Entries.lookup_put, if_pos rfl]
    · refine .inr ⟨fun f' hf' w _ hw => ?_, ?_⟩
      · obtain rfl := List.mem_singleton.mp hf'
        exact hg (Option.some.inj (hw.1.symm.trans hchosen.1))
      · rw [Instance.choose, Entries.lookup_put, if_neg hg]
  keys := Entries.keys_put_nodup

/-- The attribute of a field that a reader keeps has arrived. -/
theorem Collects.plainly {v v' : Value} (hone : f.oneof = none) (hv : m.attrs.lookup f.attr = some v)
    (honly : m₁.Only f.attr m₂) (hv' : m₂.attrs.lookup f.attr = some v') (he : lib.Equals v' v) :
    Collects lib K m [f] m₁ m₂ where
  home := honly.home
  type := honly.type
  frame a ha := honly.attrs a (by simpa using ha)
  plain f' hf' _ _ := by
    obtain rfl := List.mem_singleton.mp hf'
    exact ⟨v, v', hv, hv', he⟩
  groups group := by
    refine .inr ⟨fun f' hf' w _ hw => ?_, by rw [honly.choices]⟩
    obtain rfl := List.mem_singleton.mp hf'
    exact hw.grouped hone
  keys h := honly.choices ▸ h

/-- **One field of a well-typed instance is written, and the reader collects it or passes it over.** -/
theorem field_collects (hw : Returns writer body nested)
    (hr : Returns lib body fun n => nested n ∧ S n.type) (hc : Coherent writer c)
    (hm : InstanceHolds writer body nested c m) (hf : f ∈ c.fields) (ha : Agrees writer f p)
    (hfate : Fate K S c' f p) {m₁ : Instance}
    (hstart : K f → f.oneof = none → m₁.attrs.lookup f.attr = some f.newDefault) :
    ∃ bs m₂, (do writer.writeField body m f (← c.get m f.attr)) = .ok bs ∧ lib.RunOf c' m₁ bs m₂ ∧
      Collects lib K m [f] m₁ m₂ := by
  have hnothing {m₁ : Instance} (hplain : K f → f.oneof ≠ none) (hgroup : ∀ group v, K f → ¬Chosen m f group v) :
      Collects lib K m [f] m₁ m₁ := by
    refine .nothing m₁ (fun f' hf' => ?_) (fun f' hf' => ?_) <;> obtain rfl := List.mem_singleton.mp hf'
    · exact hplain
    · exact hgroup
  have hbytes {v : Value} (hget : c.get m f.attr = .ok v) :
      (do writer.writeField body m f (← c.get m f.attr)) = writer.writeField body m f v := by
    rw [hget]
    rfl
  cases hone : f.oneof with
  | none =>
    obtain ⟨v, hv, holds⟩ := hm.regular f hf hone
    have hbytes := hbytes (hc.arranged.get_regular hf hone hv)
    rcases hfate with ⟨hK, hkeeps, hS⟩ | ⟨hK, hdrops⟩
    · obtain ⟨records, hwrite, hsent⟩ := writeField_sent hr ha hone (holds.within ha.element hS) m
      obtain ⟨m₂, v', hrun, honly, hlook, he⟩ := hsent.received ha hkeeps hone (hstart hK hone)
      exact ⟨_, m₂, hbytes.trans hwrite, hrun, .plainly hone hv honly hlook he⟩
    · -- The writer's own library tells how long the records are.
      obtain ⟨records, hwrite, hsent⟩ := writeField_sent hw ha hone holds m
      exact ⟨_, m₁, hbytes.trans hwrite, hdrops.run ha m₁ hsent.framed,
        hnothing (fun h => absurd h hK) fun _ _ h => absurd h hK⟩
  | some name =>
    have hne : f.oneof ≠ none := by simp [hone]
    cases hisActive : MessageClass.isActive m f with
    | true =>
      obtain ⟨group, v, hchosen⟩ := MessageClass.isActive_iff.mp hisActive
      have hbytes := hbytes (hc.arranged.get_chosen hf hchosen)
      have holds : ElementHolds nested p.element v := by
        obtain ⟨f', hf', -, hattr', e, helem, holds⟩ := hm.chosen _ (Entries.mem_of_lookup hchosen.2)
        obtain rfl := hc.arranged.attr_inj hf' hf hattr'
        rwa [Option.some.inj (ha.element.symm.trans helem)]
      rcases hfate with ⟨hK, hkeeps, hS⟩ | ⟨hK, hdrops⟩
      · obtain ⟨payload, v', hwrite, hcarries⟩ := writeField_member hr ha hne (holds.within hS) hisActive
        have hset : c'.set m₁ p.target v' = .ok (m₁.choose group f.attr v') := by
          have hdesc' := hkeeps.descriptor
          rw [hchosen.1] at hdesc'
          simp only [MessageClass.set, ha.target, hdesc', Option.map_some]
          have hnull := hcarries.ne_null
          cases v' <;> first | exact absurd rfl hnull | rfl
        refine ⟨_, _, hbytes.trans hwrite, ?_, .choose hK hchosen hcarries.equals m₁⟩
        rw [recordBytes, List.flatMap_singleton]
        exact .one (hkeeps.reads ha p.element.wireType_lt
          (readField_single ha.read (ha.grouped hne) hcarries hset))
      · obtain ⟨payload, v', hwrite, hcarries⟩ := writeField_member hw ha hne holds hisActive
        refine ⟨_, m₁, hbytes.trans hwrite, hdrops.run ha m₁ ?_,
          hnothing (fun h => absurd h hK) fun _ _ h => absurd h hK⟩
        exact (Sent.one (f := f) (ha.grouped hne) hcarries).framed
    | false =>
      refine ⟨[], m₁, ?_, .nil m₁, hnothing (fun _ => hne) fun group v _ hchosen => ?_⟩
      · exact (hbytes (hc.arranged.get_inactive hf hne hisActive)).trans (writeField_inactive hne hisActive)
      · rw [MessageClass.isActive_iff.mpr ⟨group, v, hchosen⟩] at hisActive
        cases hisActive

/-! ## All fields -/

theorem writeAll_cons {α : Type} {write : α → Except Fault (List UInt8)} {x : α} {xs : List α}
    {bs cs : List UInt8} (hx : write x = .ok bs) (hxs : writeAll write xs = .ok cs) :
    writeAll write (x :: xs) = .ok (bs ++ cs) := by
  obtain ⟨bss, hmap, rfl⟩ := map_ok_iff.mp hxs
  rw [mapM_ok_iff] at hmap
  exact map_ok_iff.mpr ⟨bs :: bss, mapM_ok_iff.mpr (.cons hx hmap), rfl⟩

/-- **All fields of a well-typed instance are written, and the reader collects those it keeps.** -/
theorem fields_collect (hw : Returns writer body nested)
    (hr : Returns lib body fun n => nested n ∧ S n.type) (hc : Coherent writer c)
    (hm : InstanceHolds writer body nested c m) {fs : List Reflection.Field} {ps : List FieldCodec}
    (h : List.Forall₂ (fun f p => f ∈ c.fields ∧ Agrees writer f p ∧ Fate K S c' f p) fs ps) :
    ∀ {m₁ : Instance}, (fs.map (·.attr)).Nodup →
      (∀ f ∈ fs, K f → f.oneof = none → m₁.attrs.lookup f.attr = some f.newDefault) →
      ∃ bs m₂, writeAll (fun f => do writer.writeField body m f (← c.get m f.attr)) fs = .ok bs ∧
        lib.RunOf c' m₁ bs m₂ ∧ Collects lib K m fs m₁ m₂ := by
  induction h with
  | nil =>
    intro m₁ _ _
    exact ⟨[], m₁, rfl, .nil m₁, .nothing m₁ (fun _ hf => nomatch hf) fun _ hf => nomatch hf⟩
  | @cons f p fs ps hfirst _ ih =>
    intro m₁ hnodup hstart
    obtain ⟨hf, ha, hfate⟩ := hfirst
    rw [List.map_cons, List.nodup_cons] at hnodup
    obtain ⟨bs, m₂, hwrite, hrun, hcollect⟩ := field_collects hw hr hc hm hf ha hfate (hstart f (by simp))
    obtain ⟨cs, m₃, hwrites, hruns, hcollects⟩ := ih hnodup.2 fun f' hf' hK hone => by
      -- The attributes of the later fields are still as they were.
      have hne : f'.attr ≠ f.attr := fun he => hnodup.1 (he ▸ List.mem_map_of_mem hf')
      rw [hcollect.frame f'.attr (by simpa using hne)]
      exact hstart f' (List.mem_cons_of_mem f hf') hK hone
    exact ⟨bs ++ cs, m₃, writeAll_cons hwrite hwrites, hrun.trans hruns, hcollect.cons hcollects hnodup.1⟩

end Field

end ProtoBind.Message
