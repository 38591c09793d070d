/-
Loading keeps graphs well formed.

Each declaration of a parsed file becomes nodes. While the items of a message
are added, the tags in use are those of the fields it has so far, so a new
field cannot repeat one (`addItems_grown`); a message inside another one
leaves the fields of the outer message alone. From this every graph that is
built by loading files is well formed (`load_formed`), and every graph that a
loader returns is also resolved (`loadSources_final`).
-/
import ProtoBind.Proofs.Results
import ProtoBind.Proofs.Schema.Final
import ProtoBind.Schema.Loader

namespace ProtoBind.Schema

open Schema.Graph
open Source (Plain Word ProperAll)

namespace Load

variable {c : Context} {s s' : Loader}

/-! ## Steps -/

theorem add_eq_ok {entry : Entry} {p i : Nat} (h : add entry p s = .ok i s') :
    ∃ pn, s.graph.node? p = some pn ∧ s.graph.find? (childName pn.fullName entry.name) = none ∧
      i = s.graph.nodes.length ∧ s'.graph = s.graph.adopt entry p pn := by
  obtain ⟨_, _, hget, h⟩ := bind_eq_ok.mp h
  cases hget
  cases hadd : s.graph.add entry p with
  | ok r =>
    simp only [hadd] at h
    obtain ⟨_, _, hset, h⟩ := bind_eq_ok.mp h
    cases hset
    cases h
    obtain ⟨pn, hp, hf, hi, hg⟩ := Graph.add_eq_ok hadd
    exact ⟨pn, hp, hf, hi, hg⟩
  | error e =>
    simp only [hadd] at h
    cases h

theorem checkTag_eq_ok {index line : Nat} {tags tags' : Tags} {tag : Int} {name : String}
    (h : checkTag c index tags tag name line s = .ok tags' s') :
    tag ∉ tags.map (·.1) ∧ tags' = tags ++ [(tag, name)] ∧ s' = s := by
  unfold checkTag at h
  cases hl : tags.lookup tag with
  | some previous =>
    simp only [hl] at h
    split at h
    next =>
      obtain ⟨_, _, -, h⟩ := bind_eq_ok.mp h
      cases h
    next => cases h
  | none =>
    rw [hl] at h
    cases h
    refine ⟨?_, rfl, rfl⟩
    intro hmem
    obtain ⟨e, he, rfl⟩ := List.mem_map.mp hmem
    exact absurd (List.lookup_eq_none_iff.mp hl e he) (by simp)

theorem modifyOneofs_eq_ok {index : Nat} {f : List OneofGroup → List OneofGroup} {u : Unit}
    (h : modifyOneofs index f s = .ok u s') : s'.graph = s.graph.regroup index f := by
  cases h
  rfl

theorem report_eq_ok {message : String} {u : Unit} (h : report message s = .ok u s') :
    s'.graph = s.graph := by
  cases h
  rfl

theorem discard_eq_ok {α : Type} {x : Load α} {u : Unit} (h : discard x s = .ok u s') :
    ∃ a, x s = .ok a s' := by
  obtain ⟨a, s₁, hx, h⟩ := bind_eq_ok.mp (show (x >>= fun _ => pure ()) s = .ok u s' from h)
  cases h
  exact ⟨a, hx⟩

/-- A field is added when its option `packed` can be read. -/
theorem addField_eq_ok {decl : Source.FieldDecl} {oneof extendee : Option String} {p : Nat} {u : Unit}
    (h : addField c decl oneof extendee p s = .ok u s') :
    hasReadablePacked decl = true ∧ ∃ i, add (fieldEntry c decl oneof extendee) p s = .ok i s' := by
  unfold addField at h
  split at h
  next hreadable => exact ⟨hreadable, discard_eq_ok h⟩
  next => cases h

/-! ## Messages -/

/-- The tags are those of the fields under a node. -/
def TagsOf (g : Graph) (index : Nat) (tags : Tags) : Prop :=
  tags.map (·.1) = (g.fieldsUnder index).map (·.2.tag)

/-- What adding to the message `index` leaves: it is still there, with the tags of its fields. -/
structure MessageAt (g : Graph) (index : Nat) (tags : Tags) : Prop where
  formed : g.Formed
  message : ∃ n, g.node? index = some n ∧ n.kind = .message
  tags : TagsOf g index tags

variable {index : Nat} {tags tags' : Tags}

theorem MessageAt.of_grown {g g' : Graph} (h : MessageAt g index tags) (hg : Grown index g g')
    (ht : TagsOf g' index tags') : MessageAt g' index tags' := by
  obtain ⟨n, hn, hk⟩ := h.message
  obtain ⟨n', hn', hk', -⟩ := hg.kept hn
  exact ⟨hg.formed, ⟨n', hn', hk'.trans hk⟩, ht⟩

/-- A field outside the groups is added behind a check of its tag. -/
theorem addField_grown {f : Field} {entry : Entry} {name : String} {line i : Nat} {s₁ : Loader}
    (h : MessageAt s.graph index tags) (hb : entry.body = .field f) (hname : Word entry.name)
    (hsound : f.Sound) (hext : f.extendee = none) (hone : f.oneof = none)
    (hc : checkTag c index tags f.tag name line s = .ok tags' s₁)
    (ha : add entry index s₁ = .ok i s') :
    Grown index s.graph s'.graph ∧ TagsOf s'.graph index tags' := by
  obtain ⟨htag, rfl, rfl⟩ := checkTag_eq_ok hc
  obtain ⟨pn, hp, hf, rfl, hg⟩ := add_eq_ok ha
  obtain ⟨n, hn, hk⟩ := h.message
  obtain rfl : n = pn := Option.some.inj (hn.symm.trans hp)
  rw [hg]
  refine ⟨h.formed.adopt_field hp hf hname.plain hk hb hsound hext hone (h.tags ▸ htag), ?_⟩
  simp [TagsOf, fieldsUnder_adopt_field hb, h.tags.symm]

/-- A declared field, as `fieldEntry` reads it. -/
def fieldOf (decl : Source.FieldDecl) (oneof extendee : Option String) : Field where
  tag := decl.tag
  type := if decl.label = some .repeated then .repeated (Leaf.ofName decl.typeName)
    else .single (Leaf.ofName decl.typeName)
  oneof := oneof
  label := decl.label
  explicitDefault := decl.options.lookup "default"
  packed := (decl.options.lookup "packed").map fun v => v.plainText.toOption == some "true"
  extendee := extendee

theorem fieldEntry_body (decl : Source.FieldDecl) (oneof extendee : Option String) :
    (fieldEntry c decl oneof extendee).body = .field (fieldOf decl oneof extendee) := rfl

theorem fieldOf_sound {decl : Source.FieldDecl} {oneof extendee : Option String}
    (h : oneof ≠ none → decl.label = none) : (fieldOf decl oneof extendee).Sound where
  leaf := by
    have hleaf : (fieldOf decl oneof extendee).type.leaf = Leaf.ofName decl.typeName := by
      simp only [fieldOf]
      split <;> rfl
    rw [hleaf]
    exact Leaf.ofName_sound _
  single ho := ⟨Leaf.ofName decl.typeName, by simp [fieldOf, h ho]⟩

/-- A declared map, as `mapEntry` reads it. -/
def mapFieldOf (decl : Source.MapDecl) : Field where
  tag := decl.tag
  type := .map decl.keyType (Leaf.ofName decl.valueType)

theorem mapEntry_body (decl : Source.MapDecl) : (mapEntry c decl).body = .field (mapFieldOf decl) := rfl

theorem mapFieldOf_sound (decl : Source.MapDecl) : (mapFieldOf decl).Sound where
  leaf := Leaf.ofName_sound _
  single h := absurd rfl h

/-- The group that the next member of a message joins. -/
def LastGroup (g : Graph) (index : Nat) (group : String) : Prop :=
  ∃ n groups last, g.node? index = some n ∧ n.oneofs = groups ++ [last] ∧ last.name = group

theorem addMember_grown {group : String} {f : Source.FieldDecl} {i : Nat} {u : Unit} {s₁ s₂ : Loader}
    (h : MessageAt s.graph index tags) (hl : LastGroup s.graph index group) (hf : f.Member)
    (hc : checkTag c index tags f.tag f.name f.line s = .ok tags' s₁)
    (ha : add (fieldEntry c f (some group) none) index s₁ = .ok i s₂)
    (hm : modifyOneofs index (fun groups =>
      groups.modify (groups.length - 1) fun g => { g with fields := g.fields ++ [f.name] }) s₂ = .ok u s') :
    Grown index s.graph s'.graph ∧ TagsOf s'.graph index tags' ∧ LastGroup s'.graph index group := by
  obtain ⟨htag, rfl, rfl⟩ := checkTag_eq_ok hc
  obtain ⟨pn, hp, hfresh, rfl, hg⟩ := add_eq_ok ha
  obtain ⟨n, hn, hk⟩ := h.message
  obtain rfl : n = pn := Option.some.inj (hn.symm.trans hp)
  obtain ⟨m, groups, last, hm', hlast, rfl⟩ := hl
  obtain rfl : n = m := Option.some.inj (hn.symm.trans hm')
  have hb := fieldEntry_body (c := c) f (some last.name) none
  have hgrown := h.formed.adopt_member hp hfresh hf.name.plain hk hb (fieldOf_sound fun _ => hf.label) rfl
    hlast rfl (h.tags ▸ htag)
  rw [modifyOneofs_eq_ok hm, hg]
  refine ⟨hgrown, ?_, ?_⟩
  · rw [TagsOf, fieldsUnder_regroup, fieldsUnder_adopt_field hb, List.map_append, List.map_append, h.tags]
    rfl
  · obtain ⟨n', hn', he, -⟩ := node?_adopt_of_node? (fieldEntry c f (some last.name) none) index n hp
    have hbody : n'.body = n.body := congrArg (·.body) he
    have hk' : n'.kind = .message := by rw [← hk, Node.kind, Node.kind, hbody]
    refine ⟨_, groups, { last with fields := last.fields ++ [f.name] },
      node?_regroup.mpr ⟨n', hn', rfl⟩, ?_, rfl⟩
    rw [if_pos rfl, oneofs_regrouped hk', Node.oneofs_congr hbody, hlast, modify_last]

theorem addMembers_grown {group : String} : ∀ {fields : List Source.FieldDecl} {tags : Tags} {s : Loader},
    MessageAt s.graph index tags → LastGroup s.graph index group → (∀ f ∈ fields, f.Member) →
    addMembers c index group fields tags s = .ok tags' s' →
    Grown index s.graph s'.graph ∧ TagsOf s'.graph index tags'
  | [], _, _, h, _, _, hr => by
    cases hr
    exact ⟨.refl h.formed, h.tags⟩
  | f :: rest, tags, s, h, hl, hf, hr => by
    obtain ⟨tags₁, s₁, hc, hr⟩ := bind_eq_ok.mp hr
    obtain ⟨_, s₂, ha, hr⟩ := bind_eq_ok.mp hr
    obtain ⟨_, s₃, hm, hr⟩ := bind_eq_ok.mp hr
    obtain ⟨-, i, ha⟩ := addField_eq_ok ha
    obtain ⟨hg, ht, hl⟩ := addMember_grown h hl (hf f (by simp)) hc ha hm
    obtain ⟨hg', ht'⟩ := addMembers_grown (h.of_grown hg ht) hl (fun f hf' => hf f (by simp [hf'])) hr
    exact ⟨hg.trans hg', ht'⟩

/-- An empty group is the last one. -/
theorem lastGroup_regroup {g : Graph} (h : ∃ n, g.node? index = some n ∧ n.kind = .message)
    (name : String) (doc : Option String) :
    LastGroup (g.regroup index (· ++ [⟨name, doc, []⟩])) index name := by
  obtain ⟨n, hn, hk⟩ := h
  refine ⟨_, n.oneofs, ⟨name, doc, []⟩, node?_regroup.mpr ⟨n, hn, rfl⟩, ?_, rfl⟩
  rw [if_pos rfl, oneofs_regrouped hk]

/-- A node other than a field of a message is added. -/
theorem addOther_grown {entry : Entry} {p i : Nat} {k : Kind} (ha : add entry p s = .ok i s')
    (h : s.graph.Formed) (hp : ∃ pn, s.graph.node? p = some pn ∧ pn.kind = k)
    (hname : Word entry.name) (hsound : entry.body.Sound) (hholds : k.Holds entry.body)
    (hk : entry.body.kind = .field → k ≠ .message)
    (hnew : ∀ dialect groups, entry.body = .message dialect groups → groups = []) :
    i = s.graph.nodes.length ∧ Grown s.graph.nodes.length s.graph s'.graph ∧
      (∃ n, s'.graph.node? i = some n ∧ n.kind = entry.body.kind) ∧ TagsOf s'.graph i [] := by
  obtain ⟨pn, hpn, rfl⟩ := hp
  obtain ⟨pn', hp', hf, rfl, hg⟩ := add_eq_ok ha
  obtain rfl : pn = pn' := Option.some.inj (hpn.symm.trans hp')
  have honeofs : (s.graph.adopted entry p pn).oneofs = [] := by
    unfold Node.oneofs
    split
    next hb => exact hnew _ _ hb
    next => rfl
  rw [hg]
  refine ⟨rfl, h.adopt hp' hf hname.plain hsound hholds hk honeofs, ⟨_, node?_adopt_self, rfl⟩, ?_⟩
  rw [TagsOf, fieldsUnder_adopt_of_ne (Nat.ne_of_gt (lt_of_node? hp')), h.fieldsUnder_length]
  rfl

mutual

theorem addMessage_grown : ∀ {p : Nat} {d : Source.Decl} {u : Unit} {s s' : Loader}, s.graph.Formed →
    (∃ pn, s.graph.node? p = some pn ∧ (pn.kind = .package ∨ pn.kind = .message)) → d.Proper →
    addMessage c p d s = .ok u s' → Grown s.graph.nodes.length s.graph s'.graph
  | p, .message name items line, u, s, s', h, hp, hd, hr => by
    obtain ⟨pn, hpn, hk⟩ := hp
    obtain ⟨index, s₁, ha, hr⟩ := bind_eq_ok.mp hr
    obtain ⟨rfl, hg, hn, htags⟩ := addOther_grown (k := pn.kind) ha h ⟨pn, hpn, rfl⟩ hd.1 trivial
      (by rcases hk with hk | hk <;> rw [hk] <;> trivial) (by rintro ⟨⟩) (by rintro _ _ ⟨⟩; rfl)
    exact hg.trans (addItems_grown ⟨hg.formed, hn, htags⟩ hd.2 hr)
  | _, .dialect _, _, _, _, h, _, _, hr | _, .edition _, _, _, _, h, _, _, hr
  | _, .package _, _, _, _, h, _, _, hr | _, .imports _, _, _, _, h, _, _, hr
  | _, .option _ _, _, _, _, h, _, _, hr | _, .field _, _, _, _, h, _, _, hr
  | _, .map _, _, _, _, h, _, _, hr | _, .oneof _, _, _, _, h, _, _, hr
  | _, .enum _, _, _, _, h, _, _, hr | _, .service _, _, _, _, h, _, _, hr
  | _, .extend _, _, _, _, h, _, _, hr => by
    cases hr
    exact .refl h

theorem addItems_grown : ∀ {index : Nat} {items : List Source.Decl} {tags : Tags} {u : Unit}
    {s s' : Loader}, MessageAt s.graph index tags → ProperAll items →
    addItems c index items tags s = .ok u s' → Grown index s.graph s'.graph
  | _, [], _, _, s, _, h, _, hr => by
    cases hr
    exact .refl h.formed
  | index, .field f :: rest, tags, u, s, s', h, hi, hr => by
    simp only [addItems] at hr
    obtain ⟨tags₁, s₁, hc, hr⟩ := bind_eq_ok.mp hr
    obtain ⟨_, s₂, ha, hr⟩ := bind_eq_ok.mp hr
    obtain ⟨-, i, ha⟩ := addField_eq_ok ha
    obtain ⟨hg, ht⟩ := addField_grown h (fieldEntry_body (c := c) f none none) hi.1
      (fieldOf_sound fun hn => absurd rfl hn) rfl rfl hc ha
    exact hg.trans (addItems_grown (h.of_grown hg ht) hi.2 hr)
  | index, .map m :: rest, tags, u, s, s', h, hi, hr => by
    simp only [addItems] at hr
    obtain ⟨tags₁, s₁, hc, hr⟩ := bind_eq_ok.mp hr
    obtain ⟨_, s₂, ha, hr⟩ := bind_eq_ok.mp hr
    obtain ⟨i, ha⟩ := discard_eq_ok ha
    obtain ⟨hg, ht⟩ := addField_grown h (mapEntry_body (c := c) m) hi.1
      (mapFieldOf_sound m) rfl rfl hc ha
    exact hg.trans (addItems_grown (h.of_grown hg ht) hi.2 hr)
  | index, .oneof o :: rest, tags, u, s, s', h, hi, hr => by
    simp only [addItems] at hr
    obtain ⟨_, s₁, hm, hr⟩ := bind_eq_ok.mp hr
    obtain ⟨tags₁, s₂, ha, hr⟩ := bind_eq_ok.mp hr
    have hgraph := modifyOneofs_eq_ok hm
    have hgroup : Grown index s.graph s₁.graph := hgraph ▸ h.formed.regroup o.name (c.docs.docFor o.line)
    have hlast : LastGroup s₁.graph index o.name := hgraph ▸ lastGroup_regroup h.message _ _
    have htags : TagsOf s₁.graph index tags := by
      rw [TagsOf, hgraph, fieldsUnder_regroup]
      exact h.tags
    obtain ⟨hg, ht⟩ := addMembers_grown (h.of_grown hgroup htags) hlast hi.1 ha
    have hg := hgroup.trans hg
    exact hg.trans (addItems_grown (h.of_grown hg ht) hi.2 hr)
  | index, .message name items line :: rest, tags, u, s, s', h, hi, hr => by
    simp only [addItems] at hr
    obtain ⟨_, s₁, ha, hr⟩ := bind_eq_ok.mp hr
    obtain ⟨n, hn, hk⟩ := h.message
    have hg := addMessage_grown h.formed ⟨n, hn, .inr hk⟩ hi.1 ha
    have ht : TagsOf s₁.graph index tags := by
      rw [TagsOf, hg.fieldsUnder_fresh hn hk]
      exact h.tags
    have hg := hg.fresh index
    exact hg.trans (addItems_grown (h.of_grown hg ht) hi.2 hr)
  | index, .enum e :: rest, tags, u, s, s', h, hi, hr => by
    simp only [addItems] at hr
    obtain ⟨_, s₁, ha, hr⟩ := bind_eq_ok.mp hr
    obtain ⟨i, ha⟩ := discard_eq_ok ha
    obtain ⟨n, hn, hk⟩ := h.message
    obtain ⟨-, hg, -⟩ := addOther_grown ha h.formed h.message hi.1 trivial trivial
      (by rintro ⟨⟩) (by rintro _ _ ⟨⟩)
    have ht : TagsOf s₁.graph index tags := by
      rw [TagsOf, hg.fieldsUnder_fresh hn hk]
      exact h.tags
    have hg := hg.fresh index
    exact hg.trans (addItems_grown (h.of_grown hg ht) hi.2 hr)
  | index, .extend e :: rest, tags, u, s, s', h, hi, hr => by
    simp only [addItems] at hr
    obtain ⟨_, s₁, hname, hr⟩ := bind_eq_ok.mp hr
    cases hname
    obtain ⟨_, s₂, hreport, hr⟩ := bind_eq_ok.mp hr
    have hgraph := report_eq_ok hreport
    rw [← hgraph] at h ⊢
    exact addItems_grown h hi.2 hr
  | index, .dialect _ :: rest, _, _, _, _, h, hi, hr | index, .edition _ :: rest, _, _, _, _, h, hi, hr
  | index, .package _ :: rest, _, _, _, _, h, hi, hr | index, .imports _ :: rest, _, _, _, _, h, hi, hr
  | index, .option _ _ :: rest, _, _, _, _, h, hi, hr | index, .service _ :: rest, _, _, _, _, h, hi, hr => by
    simp only [addItems] at hr
    exact addItems_grown h hi.2 hr

end

/-! ## Packages and files -/

/-- The graph is well formed and has a node of the kind at the index. -/
structure NodeAt (g : Graph) (i : Nat) (k : Kind) : Prop where
  formed : g.Formed
  node : ∃ n, g.node? i = some n ∧ n.kind = k

theorem NodeAt.of_grown {g g' : Graph} {i m : Nat} {k : Kind} (h : NodeAt g i k) (hg : Grown m g g') :
    NodeAt g' i k := by
  obtain ⟨n, hn, hk⟩ := h.node
  obtain ⟨n', hn', hk', -⟩ := hg.kept hn
  exact ⟨hg.formed, n', hn', hk'.trans hk⟩

theorem not_mem_splitAtChar {d : Char} : ∀ {cs piece : List Char}, piece ∈ Text.splitAtChar d cs → d ∉ piece
  | [], piece, h => by
    obtain rfl : piece = [] := by simpa [Text.splitAtChar] using h
    simp
  | c :: rest, piece, h => by
    simp only [Text.splitAtChar] at h
    split at h
    next =>
      rcases List.mem_cons.mp h with rfl | h
      · simp
      · exact not_mem_splitAtChar h
    next hc =>
      split at h
      next =>
        obtain rfl : piece = [c] := by simpa using h
        simpa using Ne.symm hc
      next first pieces hs =>
        rcases List.mem_cons.mp h with rfl | h
        · have := not_mem_splitAtChar (hs ▸ List.mem_cons_self : first ∈ Text.splitAtChar d rest)
          simp [Ne.symm hc, this]
        · exact not_mem_splitAtChar (hs ▸ List.mem_cons_of_mem _ h)

theorem splitOnChar_plain (name : String) : ∀ part ∈ Text.splitOnChar '.' name, Plain part := by
  intro part hpart
  obtain ⟨piece, hp, rfl⟩ := List.mem_map.mp hpart
  simpa [Plain] using not_mem_splitAtChar hp

theorem packageUnder_grown : ∀ {parts : List String} {g g' : Graph} {current i : Nat},
    NodeAt g current .package → (∀ part ∈ parts, Plain part) →
    g.packageUnder current parts = (g', .ok i) → NodeAt g' i .package
  | [], g, g', current, i, h, _, hr => by
    cases hr
    exact h
  | part :: rest, g, g', current, i, h, hp, hr => by
    simp only [packageUnder] at hr
    have hrest : ∀ part ∈ rest, Plain part := fun q hq => hp q (by simp [hq])
    split at hr
    next =>
      split at hr
      next index g₁ ha =>
        obtain ⟨pn, hpn, hk⟩ := h.node
        obtain ⟨pn', hp', hf, rfl, rfl⟩ := Graph.add_eq_ok ha
        obtain rfl : pn = pn' := Option.some.inj (hpn.symm.trans hp')
        have hg := h.formed.adopt hpn hf (hp part (by simp)) trivial (by rw [hk]; trivial)
          (by rintro ⟨⟩) rfl
        exact packageUnder_grown ⟨hg.formed, _, node?_adopt_self, rfl⟩ hrest hr
      next => cases hr
    next index _ =>
      split at hr
      next n hn =>
        split at hr
        next hk => exact packageUnder_grown ⟨h.formed, n, hn, hk⟩ hrest hr
        next => cases hr
      next => cases hr

theorem package_grown {g g' : Graph} {name : String} {i : Nat} (h : g.Formed)
    (hr : g.package name = (g', .ok i)) : NodeAt g' i .package := by
  obtain ⟨n, hn, hk, -⟩ := h.root
  unfold package at hr
  split at hr
  · cases hr
    exact ⟨h, n, hn, hk⟩
  · exact packageUnder_grown ⟨h, n, hn, hk⟩ (splitOnChar_plain name) hr

theorem addService_formed {decl : Source.ServiceDecl} {space : Nat} {u : Unit}
    (h : NodeAt s.graph space .package) (hd : (Source.Decl.service decl).Proper)
    (hr : addService c decl space s = .ok u s') : NodeAt s'.graph space .package := by
  obtain ⟨index, s₁, ha, hr⟩ := bind_eq_ok.mp hr
  obtain ⟨-, hg, hn, -⟩ := addOther_grown ha h.formed h.node hd.1 trivial trivial
    (by rintro ⟨⟩) (by rintro _ _ ⟨⟩)
  obtain ⟨_, s₂, hr, hend⟩ := bind_eq_ok.mp hr
  cases hend
  refine (forIn_keeps (P := fun s : Loader => NodeAt s.graph space .package ∧
    NodeAt s.graph index .service) ?_ ⟨h.of_grown hg, hg.formed, hn⟩ hr).1
  rintro rpc hrpc s step s₁ ⟨hspace, hservice⟩ hr
  obtain ⟨_, s₂, ha, hr⟩ := bind_eq_ok.mp hr
  cases hr
  obtain ⟨i, ha⟩ := discard_eq_ok ha
  obtain ⟨-, hg, -⟩ := addOther_grown ha hservice.formed hservice.node (hd.2 rpc hrpc) trivial trivial
    (by rintro ⟨⟩) (by rintro _ _ ⟨⟩)
  exact ⟨hspace.of_grown hg, hservice.of_grown hg⟩

theorem addExtension_formed {f : Source.FieldDecl} {space i : Nat} {extendee : String}
    (h : NodeAt s.graph space .package) (hf : Word f.name)
    (hr : add (fieldEntry c f none (some extendee)) space s = .ok i s') :
    NodeAt s'.graph space .package := by
  obtain ⟨-, hg, -⟩ := addOther_grown hr h.formed h.node hf (fieldOf_sound fun hn => absurd rfl hn)
    ⟨by rintro ⟨⟩, rfl⟩ (by rintro - ⟨⟩) (by rintro _ _ ⟨⟩)
  exact h.of_grown hg

theorem addDeclarations_formed {package : String} {decls : List Source.Decl} {u : Unit}
    (h : s.graph.Formed) (hd : ProperAll decls)
    (hr : addDeclarations c package decls s = .ok u s') : s'.graph.Formed := by
  unfold addDeclarations at hr
  obtain ⟨_, s₁, hget, hr⟩ := bind_eq_ok.mp hr
  cases hget
  generalize hp : s.graph.package package = r at hr
  obtain ⟨g', result⟩ := r
  obtain ⟨_, s₁, hset, hr⟩ := bind_eq_ok.mp hr
  cases hset
  cases result with
  | error e => cases hr
  | ok space =>
    obtain ⟨_, s₂, hpure, hr⟩ := bind_eq_ok.mp hr
    cases hpure
    obtain ⟨_, s₃, hr, hend⟩ := bind_eq_ok.mp hr
    cases hend
    have hspace := package_grown h hp
    refine (forIn_keeps (P := fun s : Loader => NodeAt s.graph space .package) ?_ hspace hr).formed
    intro d hmem s step s₁ h hr
    have hdecl := Source.properAll_iff.mp hd d hmem
    cases d with
    | message name items line =>
      obtain ⟨_, s₂, ha, hr⟩ := bind_eq_ok.mp hr
      cases hr
      obtain ⟨n, hn, hk⟩ := h.node
      exact h.of_grown (addMessage_grown h.formed ⟨n, hn, .inl hk⟩ hdecl ha)
    | enum e =>
      obtain ⟨_, s₂, ha, hr⟩ := bind_eq_ok.mp hr
      cases hr
      obtain ⟨i, ha⟩ := discard_eq_ok ha
      obtain ⟨-, hg, -⟩ := addOther_grown ha h.formed h.node hdecl trivial trivial
        (by rintro ⟨⟩) (by rintro _ _ ⟨⟩)
      exact h.of_grown hg
    | service d =>
      obtain ⟨_, s₂, ha, hr⟩ := bind_eq_ok.mp hr
      cases hr
      exact addService_formed h hdecl ha
    | extend e =>
      obtain ⟨_, s₂, ha, hr⟩ := bind_eq_ok.mp hr
      cases hr
      refine forIn_keeps (P := fun s : Loader => NodeAt s.graph space .package) ?_ h ha
      intro f hf s step s₁ h hr
      obtain ⟨_, s₂, ha, hr⟩ := bind_eq_ok.mp hr
      cases hr
      obtain ⟨-, i, ha⟩ := addField_eq_ok ha
      exact addExtension_formed h (hdecl f hf) ha
    | _ =>
      cases hr
      exact h

theorem ofParse_eq_ok {file : String} {result : Except Source.ParseFault (List Source.Decl × List Source.Comment)}
    {parsed : List Source.Decl × List Source.Comment} (h : ofParse file result s = .ok parsed s') :
    result = .ok parsed ∧ s' = s := by
  unfold ofParse at h
  match result, h with
  | .error (.misplaced _), h => cases h
  | .error (.literal _), h => cases h
  | .ok _, h =>
    cases h
    exact ⟨rfl, rfl⟩

theorem readFile_eq_ok {find : String → Option String} {file : String} {importer text : Option String}
    (h : readFile find file importer s = .ok text s') : s'.graph = s.graph := by
  unfold readFile at h
  cases hf : find file with
  | some text =>
    simp only [hf] at h
    cases h
    rfl
  | none =>
    cases importer with
    | none =>
      simp only [hf] at h
      cases h
    | some i =>
      simp only [hf] at h
      by_cases hw : Text.startsWith file wellKnown = true
      · simp only [hw, if_true] at h
        obtain ⟨_, s₁, hreport, h⟩ := bind_eq_ok.mp h
        cases h
        exact report_eq_ok hreport
      · simp only [hw] at h
        cases h

/-- The laws of the graph do not speak of the files it came from. -/
theorem shaped_addFile {g : Graph} (h : g.Shaped) (file : String) : (g.addFile file).Shaped := by
  unfold addFile
  split
  · exact h
  · exact {
      root := h.root, index := h.index, parent := h.parent, children := h.children, names := h.names
      placed := h.placed, plain := h.plain, sound := h.sound }

theorem formed_addFile {g : Graph} (h : g.Formed) (file : String) : (g.addFile file).Formed where
  toShaped := shaped_addFile h.toShaped file
  tidy := by
    unfold addFile
    split <;> exact h.tidy

theorem load_formed [Source.CharacterNames] {find : String → Option String} : ∀ {fuel : Nat} {file : String}
    {importer : Option String} {u : Unit} {s s' : Loader}, s.graph.Formed →
    load find fuel file importer s = .ok u s' → s'.graph.Formed
  | 0, file, importer, u, s, s', h, hr => by
    obtain ⟨_, _, hget, hr⟩ := bind_eq_ok.mp hr
    cases hr
  | fuel + 1, file, importer, u, s, s', h, hr => by
    unfold load at hr
    obtain ⟨_, _, hget, hr⟩ := bind_eq_ok.mp hr
    cases hget
    by_cases hloaded : s.loaded.contains file = true
    · simp only [hloaded, if_true] at hr
      cases hr
      exact h
    by_cases hloading : s.loading.contains file = true
    · simp only [hloaded, hloading, if_true] at hr
      cases hr
    simp only [hloaded, hloading] at hr
    obtain ⟨text, s₁, hread, hr⟩ := bind_eq_ok.mp hr
    have h₁ : s₁.graph.Formed := (readFile_eq_ok hread) ▸ h
    cases text with
    | none =>
      cases hr
      exact h₁
    | some text =>
      obtain ⟨_, s₂, hreport, hr⟩ := bind_eq_ok.mp hr
      obtain ⟨_, s₃, hset, hr⟩ := bind_eq_ok.mp hr
      cases hset
      obtain ⟨⟨decls, comments⟩, s₄, hresult, hr⟩ := bind_eq_ok.mp hr
      obtain ⟨hparse, rfl⟩ := ofParse_eq_ok hresult
      obtain ⟨_, s₅, hloop, hr⟩ := bind_eq_ok.mp hr
      obtain ⟨_, s₆, hset, hr⟩ := bind_eq_ok.mp hr
      cases hset
      obtain ⟨_, s₇, hadd, hr⟩ := bind_eq_ok.mp hr
      cases hr
      have h₅ : s₅.graph.Formed := by
        refine forIn_keeps (P := fun s : Loader => s.graph.Formed) ?_ ?_ hloop
        · intro i _ s step s₁ h hr
          obtain ⟨_, s₂, hload, hr⟩ := bind_eq_ok.mp hr
          cases hr
          exact load_formed h hload
        · exact (report_eq_ok hreport) ▸ h₁
      have hdecls : ProperAll decls := Source.parse_proper hparse
      have h₇ : s₇.graph.Formed := addDeclarations_formed (s := { s₅ with graph := s₅.graph.addFile file })
        (formed_addFile h₅ file) hdecls hadd
      exact h₇

end Load

/-- **Every loaded graph is well formed and resolved.** -/
theorem loadSources_final [Source.CharacterNames] {sources : Sources} {s s' : Loader} {g : Graph} (h : s.graph.Formed)
    (hr : loadSources sources s = .ok g s') : g.Final := by
  obtain ⟨_, s₁, hloop, hr⟩ := bind_eq_ok.mp hr
  have h₁ : s₁.graph.Formed := by
    refine forIn_keeps (P := fun s : Loader => s.graph.Formed) ?_ h hloop
    intro source _ s step s₂ h hr
    obtain ⟨_, s₃, hload, hr⟩ := bind_eq_ok.mp hr
    cases hr
    exact Load.load_formed h hload
  obtain ⟨_, _, hget, hr⟩ := bind_eq_ok.mp hr
  cases hget
  generalize hf : s₁.graph.finalize = r at hr
  obtain ⟨g', result⟩ := r
  obtain ⟨_, s₂, hset, hr⟩ := bind_eq_ok.mp hr
  cases hset
  cases result with
  | error e => cases hr
  | ok missing =>
    obtain ⟨_, s₃, -, hr⟩ := bind_eq_ok.mp hr
    cases hr
    exact finalize_final h₁ hf

end ProtoBind.Schema
