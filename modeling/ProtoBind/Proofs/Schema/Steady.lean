/-
Adding declarations, however it ends.

A computation that is steady only adds to the graph, whether it succeeds or
fails: the nodes keep standing under nodes that may hold them, and the old ones
are still there. It fails only for a name or a tag that is taken, or for a
number too long to be written that the declarations use in a way that asks for
its text. Adding a node is steady under a parent that may hold it, and the
steps of a steady computation are, so adding the declarations of a whole file
is (`addDeclarations_steady`).
-/
import ProtoBind.Proofs.Entries
import ProtoBind.Proofs.Schema.Files

namespace ProtoBind.Schema

open Schema.Graph
open Source (Decl Plain ProperAll properAll_iff)

namespace Load

/-! ## Numbers without a text -/

/-- A tag that is too long to be written is used twice. -/
def TagsOverlong (tags : List Int) : Prop := ∃ tag, isShort tag = false ∧ 1 < tags.count tag

mutual

/-- A message uses an overlong tag twice, or a field in it has an option `packed` that cannot be read. -/
def MessageOverlong : Decl → Prop
  | .message _ items _ => TagsOverlong (tagsOf items) ∨ ItemsOverlong items
  | _ => False

def ItemsOverlong : List Decl → Prop
  | [] => False
  | .field f :: rest => hasReadablePacked f = false ∨ ItemsOverlong rest
  | .oneof o :: rest => (∃ f ∈ o.fields, hasReadablePacked f = false) ∨ ItemsOverlong rest
  | .message name items line :: rest => MessageOverlong (.message name items line) ∨ ItemsOverlong rest
  | _ :: rest => ItemsOverlong rest

end

/-- Entering a declaration of a file asks for the text of a number that is too long. -/
def DeclOverlong : Decl → Prop
  | .message name items line => MessageOverlong (.message name items line)
  | .extend e => ∃ f ∈ e.fields, hasReadablePacked f = false
  | _ => False

theorem TagsOverlong.not_nodup {tags : List Int} (h : TagsOverlong tags) : ¬ tags.Nodup := by
  obtain ⟨tag, -, hcount⟩ := h
  exact fun hn => absurd (List.nodup_iff_count_le_one.mp hn tag) (by omega)

theorem TagsOverlong.append {tags : List Int} (h : TagsOverlong tags) (more : List Int) :
    TagsOverlong (tags ++ more) := by
  obtain ⟨tag, hlong, hcount⟩ := h
  exact ⟨tag, hlong, by rw [List.count_append]; omega⟩

/-- A tag comes again behind those in use. -/
theorem tagsOverlong_of_mem {tags more : List Int} {tag : Int} (hlong : isShort tag = false) (h : tag ∈ tags) :
    TagsOverlong (tags ++ tag :: more) := by
  refine ⟨tag, hlong, ?_⟩
  have hpos := List.count_pos_iff.mpr h
  rw [List.count_append, List.count_cons_self]
  omega

mutual

theorem MessageOverlong.not_fits : ∀ {d : Decl}, MessageOverlong d → ¬ MessageFits d
  | .message name items line, h, hfits => by
    rw [MessageOverlong] at h
    rw [MessageFits] at hfits
    exact h.elim (·.not_nodup hfits.1) (·.not_fit hfits.2)
  | .dialect _, h, _ | .edition _, h, _ | .package _, h, _ | .imports _, h, _ | .option _ _, h, _ | .field _, h, _
  | .map _, h, _ | .oneof _, h, _ | .enum _, h, _ | .service _, h, _ | .extend _, h, _ => h.elim

theorem ItemsOverlong.not_fit : ∀ {items : List Decl}, ItemsOverlong items → ¬ ItemsFit items
  | [], h, _ => h.elim
  | .field f :: rest, h, hfits => by
    rw [ItemsOverlong] at h
    rw [ItemsFit] at hfits
    exact h.elim (fun hf => by simp [hf] at hfits) (·.not_fit hfits.2)
  | .oneof o :: rest, h, hfits => by
    rw [ItemsOverlong] at h
    rw [ItemsFit] at hfits
    exact h.elim (fun ⟨f, hf, hr⟩ => by simpa [hr] using hfits.1 f hf) (·.not_fit hfits.2)
  | .message name items line :: rest, h, hfits => by
    rw [ItemsOverlong] at h
    rw [ItemsFit] at hfits
    exact h.elim (·.not_fits hfits.1) (·.not_fit hfits.2)
  | .dialect _ :: rest, h, hfits | .edition _ :: rest, h, hfits | .package _ :: rest, h, hfits
  | .imports _ :: rest, h, hfits | .option _ _ :: rest, h, hfits | .map _ :: rest, h, hfits
  | .enum _ :: rest, h, hfits | .service _ :: rest, h, hfits | .extend _ :: rest, h, hfits => by
    simp only [ItemsOverlong] at h
    simp only [ItemsFit] at hfits
    exact h.not_fit hfits

end

/-- An overlong declaration cannot be entered. -/
theorem DeclOverlong.not_fits {d : Decl} (h : DeclOverlong d) : ¬ DeclFits d := by
  cases d with
  | message name items line => exact MessageOverlong.not_fits h
  | extend e =>
    obtain ⟨f, hf, hr⟩ := h
    exact fun hfits => by simpa [hr] using hfits f hf
  | _ => exact h.elim

/-! ## Adding declarations -/

/-- A fault for a name or a tag that is taken, or for a number without a text where there is `cause` for it. -/
inductive Taken (cause : Prop) : LoadFault → Prop
  | name (d : Duplicate) : Taken cause (.duplicate d)
  | tag (file : String) (line : Nat) (tag : Int) (field previous message : String) :
    Taken cause (.repeatedTag file line tag field previous message)
  | unwritable (h : cause) : Taken cause .unwritable

theorem Taken.mono {cause cause' : Prop} {e : LoadFault} (h : Taken cause e) (himp : cause → cause') :
    Taken cause' e := by
  cases h with
  | name d => exact .name d
  | tag => exact .tag ..
  | unwritable h => exact .unwritable (himp h)

/-- The graph has a node of the kind at the index. -/
def KindAt (g : Graph) (i : Nat) (k : Kind) : Prop := ∃ n, g.node? i = some n ∧ n.kind = k

/-- A graph that came of another by adding to it. -/
structure Extends (g g' : Graph) : Prop where
  shaped : g'.Shaped
  kept : ∀ {i k}, KindAt g i k → KindAt g' i k

/-- A loader that came of another by adding to its graph. -/
structure Grown (s s' : Loader) : Prop where
  graph : Extends s.graph s'.graph
  loading : s'.loading = s.loading
  loaded : s'.loaded = s.loaded

/-- A computation only adds to the graph, however it ends, and fails only for what is taken and for `cause`. -/
structure Steady {α : Type} (x : Load α) (s : Loader) (cause : Prop) (post : α → Loader → Prop) : Prop where
  ok : ∀ {a s'}, x s = .ok a s' → Grown s s' ∧ post a s'
  error : ∀ {e s'}, x s = .error e s' → Grown s s' ∧ Taken cause e

variable {α β : Type} {x : Load α} {f : α → Load β} {s s' s'' : Loader} {cause : Prop} {post : α → Loader → Prop}
  {post' : β → Loader → Prop} {c : Context} {index : Nat} {k : Kind}

theorem Extends.refl {g : Graph} (h : g.Shaped) : Extends g g := ⟨h, id⟩

theorem Extends.trans {g g' g'' : Graph} (h : Extends g g') (h' : Extends g' g'') : Extends g g'' where
  shaped := h'.shaped
  kept hk := h'.kept (h.kept hk)

/-- A node is added under one that may hold it. -/
theorem extends_adopt {g : Graph} {entry : Entry} {p : Nat} {pn : Node} (h : g.Shaped) (hp : g.node? p = some pn)
    (hf : g.find? (childName pn.fullName entry.name) = none) (hname : Plain entry.name) (hsound : entry.body.Sound)
    (hholds : pn.kind.Holds entry.body) : Extends g (g.adopt entry p pn) where
  shaped := h.adopt hp hf hname hsound hholds
  kept := by
    rintro i k ⟨n, hn, rfl⟩
    obtain ⟨n', hn', he, -⟩ := node?_adopt_of_node? entry p pn hn
    exact ⟨n', hn', congrArg (·.body.kind) he⟩

theorem Grown.shaped (h : Grown s s') : s'.graph.Shaped := h.graph.shaped

theorem Grown.kept (h : Grown s s') {i : Nat} (hk : KindAt s.graph i k) : KindAt s'.graph i k := h.graph.kept hk

theorem Grown.refl (h : s.graph.Shaped) : Grown s s := ⟨.refl h, rfl, rfl⟩

theorem Grown.trans (h : Grown s s') (h' : Grown s' s'') : Grown s s'' where
  graph := h.graph.trans h'.graph
  loading := h'.loading.trans h.loading
  loaded := h'.loaded.trans h.loaded

namespace Steady

/-- A computation that leaves the loader as it is. -/
theorem same {a : α} (h : s.graph.Shaped) (hx : x s = .ok a s) (hpost : post a s) : Steady x s cause post where
  ok hr := by
    rw [hx] at hr
    cases hr
    exact ⟨.refl h, hpost⟩
  error hr := by
    rw [hx] at hr
    cases hr

theorem mono {cause' : Prop} (h : Steady x s cause post) (himp : cause → cause') : Steady x s cause' post where
  ok hr := h.ok hr
  error hr := (h.error hr).imp_right (·.mono himp)

theorem bind (hx : Steady x s cause post) (hf : ∀ a s₁, Grown s s₁ → post a s₁ → Steady (f a) s₁ cause post') :
    Steady (x >>= f) s cause post' where
  ok hr := by
    obtain ⟨a, s₁, hrun, hr⟩ := bind_eq_ok.mp hr
    obtain ⟨hgrown, hpost⟩ := hx.ok hrun
    obtain ⟨hgrown', hpost'⟩ := (hf a s₁ hgrown hpost).ok hr
    exact ⟨hgrown.trans hgrown', hpost'⟩
  error hr := by
    rcases bind_eq_error.mp hr with hr | ⟨a, s₁, hrun, hr⟩
    · exact hx.error hr
    · obtain ⟨hgrown, hpost⟩ := hx.ok hrun
      obtain ⟨hgrown', htaken⟩ := (hf a s₁ hgrown hpost).error hr
      exact ⟨hgrown.trans hgrown', htaken⟩

/-- A computation followed by another, whatever its result. -/
theorem andThen (hx : Steady x s cause fun _ _ => True) (hf : ∀ a s₁, Grown s s₁ → Steady (f a) s₁ cause post') :
    Steady (x >>= f) s cause post' :=
  hx.bind fun a s₁ hgrown _ => hf a s₁ hgrown

theorem done {b : β} (hx : Steady x s cause fun _ _ => True) :
    Steady (x >>= fun _ => pure b) s cause fun _ _ => True :=
  hx.andThen fun _ _ hgrown => .same hgrown.shaped rfl trivial

theorem discard (hx : Steady x s cause post) : Steady (Functor.discard x) s cause fun _ _ => True :=
  hx.bind fun _ _ hgrown _ => .same hgrown.shaped rfl trivial

theorem forIn {γ : Type} {body : γ → Unit → Load (ForInStep Unit)} : ∀ {xs : List γ} {s : Loader}, s.graph.Shaped →
    (∀ x ∈ xs, ∀ s₁, Grown s s₁ → Steady (body x ()) s₁ cause fun _ _ => True) →
    Steady (forIn xs () body) s cause fun _ _ => True
  | [], s, h, _ => .same h rfl trivial
  | x :: xs, s, h, hbody => by
    rw [List.forIn_cons]
    refine (hbody x List.mem_cons_self s (.refl h)).andThen fun step s₁ hgrown => ?_
    cases step with
    | done => exact .same hgrown.shaped rfl trivial
    | yield =>
      exact forIn hgrown.shaped fun y hy s₂ hgrown' =>
        hbody y (List.mem_cons_of_mem _ hy) s₂ (hgrown.trans hgrown')

end Steady

/-- A node is added under one that may hold it. -/
theorem add_steady (entry : Entry) (h : s.graph.Shaped) (hk : KindAt s.graph index k) (hname : Plain entry.name)
    (hsound : entry.body.Sound) (hholds : k.Holds entry.body) :
    Steady (add entry index) s cause fun i s' => KindAt s'.graph i entry.body.kind := by
  obtain ⟨pn, hpn, rfl⟩ := hk
  have hparent : s.graph.fullNames[index]? = some pn.fullName := by
    rw [getElem?_fullNames, hpn]
    rfl
  constructor
  · intro i s' hr
    obtain ⟨-, hadds, -⟩ := (add_succeeds entry h.toArena hparent).only hr
    obtain ⟨pn', hpn', hfree, rfl, hg⟩ := add_eq_ok hr
    obtain rfl : pn = pn' := Option.some.inj (hpn.symm.trans hpn')
    refine ⟨⟨hg ▸ extends_adopt h hpn hfree hname hsound hholds, hadds.loading, hadds.loaded⟩, ?_⟩
    rw [hg]
    exact ⟨_, node?_adopt_self, rfl⟩
  · intro e s' hr
    unfold add at hr
    rw [bind_of_ok (show (get : Load Loader) s = .ok s s from rfl)] at hr
    cases hadd : s.graph.add entry index with
    | ok r =>
      rw [hadd] at hr
      cases hr
    | error fault =>
      rw [hadd] at hr
      cases hr
      refine ⟨.refl h, ?_⟩
      simp only [Graph.add, hpn] at hadd
      split at hadd
      next =>
        cases hadd
        exact .name _
      next => cases hadd

theorem modifyOneofs_steady (f : List OneofGroup → List OneofGroup) (h : s.graph.Shaped) :
    Steady (modifyOneofs index f) s cause fun _ _ => True where
  ok hr := by
    obtain ⟨-, hfills⟩ := (modifyOneofs_succeeds h.toArena).only hr
    refine ⟨⟨modifyOneofs_eq_ok hr ▸ ⟨h.regroup, ?_⟩, hfills.loading, hfills.loaded⟩, trivial⟩
    rintro i k ⟨n, hn, rfl⟩
    refine ⟨_, node?_regroup.mpr ⟨n, hn, rfl⟩, ?_⟩
    split
    · exact kind_regrouped n
    · rfl
  error hr := by cases hr

theorem report_steady (message : String) (h : s.graph.Shaped) : Steady (report message) s cause fun _ _ => True where
  ok hr := by
    cases hr
    exact ⟨⟨.refl h, rfl, rfl⟩, trivial⟩
  error hr := by cases hr

theorem fullNameOf_steady (h : s.graph.Shaped) : Steady (fullNameOf index) s cause fun _ _ => True :=
  .same h rfl trivial

theorem checkTag_steady (tags : Tags) (tag : Int) (name : String) (line : Nat) (h : s.graph.Shaped) :
    Steady (checkTag c index tags tag name line) s (isShort tag = false ∧ tag ∈ tags.map (·.1))
      fun tags' _ => tags'.map (·.1) = tags.map (·.1) ++ [tag] where
  ok hr := by
    obtain ⟨-, rfl, rfl⟩ := checkTag_eq_ok hr
    exact ⟨.refl h, by simp⟩
  error hr := by
    unfold checkTag at hr
    cases hl : tags.lookup tag with
    | none =>
      rw [hl] at hr
      cases hr
    | some previous =>
      simp only [hl] at hr
      split at hr
      next =>
        rcases bind_eq_error.mp hr with hr | ⟨_, _, hname, hr⟩
        · cases hr
        · cases hname
          cases hr
          exact ⟨.refl h, .tag ..⟩
      next hlong =>
        cases hr
        refine ⟨.refl h, .unwritable ⟨by simpa using hlong, ?_⟩⟩
        exact List.mem_map_of_mem (f := (·.1)) (Entries.mem_of_lookup hl)

/-- A declared field is added under a node that may hold it, if its option `packed` can be read. -/
theorem addField_steady (decl : Source.FieldDecl) (oneof extendee : Option String) (h : s.graph.Shaped)
    (hk : KindAt s.graph index k) (hname : Plain decl.name) (hsound : (fieldOf decl oneof extendee).Sound)
    (hholds : k.Holds (.field (fieldOf decl oneof extendee))) :
    Steady (addField c decl oneof extendee index) s (hasReadablePacked decl = false) fun _ _ => True := by
  unfold addField
  split
  next => exact (add_steady (fieldEntry c decl oneof extendee) h hk hname hsound hholds).discard
  next hunreadable =>
    refine ⟨fun hr => (by cases hr), fun hr => ?_⟩
    cases hr
    exact ⟨.refl h, .unwritable (by simpa using hunreadable)⟩

theorem addMembers_steady (group : String) : ∀ {fields : List Source.FieldDecl} (tags : Tags) {s : Loader},
    s.graph.Shaped → KindAt s.graph index .message → (∀ f ∈ fields, f.Member) →
    Steady (addMembers c index group fields tags) s
      (TagsOverlong (tags.map (·.1) ++ fields.map (·.tag)) ∨ ∃ f ∈ fields, hasReadablePacked f = false)
      fun tags' _ => tags'.map (·.1) = tags.map (·.1) ++ fields.map (·.tag)
  | [], tags, s, h, _, _ => .same h rfl (by simp)
  | f :: rest, tags, s, h, hk, hf => by
    have hmember := hf f List.mem_cons_self
    unfold addMembers
    refine ((checkTag_steady tags f.tag f.name f.line h).mono fun hlong =>
      .inl (tagsOverlong_of_mem hlong.1 hlong.2)).bind fun tags' s₁ h₁ htags => ?_
    refine ((addField_steady f (some group) none h₁.shaped (h₁.kept hk) hmember.name.plain
      (fieldOf_sound fun _ => hmember.label) rfl).mono fun hr =>
        .inr ⟨f, List.mem_cons_self, hr⟩).andThen fun _ s₂ h₂ => ?_
    refine (modifyOneofs_steady _ h₂.shaped).andThen fun _ s₃ h₃ => ?_
    have hrest := addMembers_steady group tags' h₃.shaped
      (h₃.kept (h₂.kept (h₁.kept hk))) fun f hf' => hf f (List.mem_cons_of_mem _ hf')
    rw [htags, List.append_assoc] at hrest
    refine hrest.mono (Or.imp_right ?_)
    rintro ⟨g, hg, hr⟩
    exact ⟨g, List.mem_cons_of_mem _ hg, hr⟩

mutual

theorem addMessage_steady : ∀ {index : Nat} {d : Decl} {s : Loader}, s.graph.Shaped →
    (KindAt s.graph index .package ∨ KindAt s.graph index .message) → d.Proper →
    Steady (addMessage c index d) s (MessageOverlong d) fun _ _ => True
  | index, .message name items line, s, h, hk, hd => by
    obtain ⟨k, hk, hholds⟩ : ∃ k, KindAt s.graph index k ∧ k.Holds (.message c.dialect []) :=
      hk.elim (fun hk => ⟨_, hk, trivial⟩) fun hk => ⟨_, hk, trivial⟩
    unfold addMessage MessageOverlong
    refine (add_steady _ h hk hd.1.plain ?_ hholds).bind fun i s₁ hgrown hnew =>
      addItems_steady [] hgrown.shaped hnew hd.2
    trivial
  | _, .dialect _, s, h, _, _ | _, .edition _, s, h, _, _ | _, .package _, s, h, _, _ | _, .imports _, s, h, _, _
  | _, .option _ _, s, h, _, _ | _, .field _, s, h, _, _ | _, .map _, s, h, _, _ | _, .oneof _, s, h, _, _
  | _, .enum _, s, h, _, _ | _, .service _, s, h, _, _ | _, .extend _, s, h, _, _ => by
    unfold addMessage
    exact .same h rfl trivial

theorem addItems_steady : ∀ {index : Nat} {items : List Decl} (tags : Tags) {s : Loader}, s.graph.Shaped →
    KindAt s.graph index .message → ProperAll items →
    Steady (addItems c index items tags) s (TagsOverlong (tags.map (·.1) ++ tagsOf items) ∨ ItemsOverlong items)
      fun _ _ => True
  | index, [], tags, s, h, _, _ => by
    unfold addItems
    exact .same h rfl trivial
  | index, .field f :: rest, tags, s, h, hk, hd => by
    unfold addItems tagsOf ItemsOverlong
    refine ((checkTag_steady tags f.tag f.name f.line h).mono fun hlong =>
      .inl (tagsOverlong_of_mem hlong.1 hlong.2)).bind fun tags' s₁ h₁ htags => ?_
    refine ((addField_steady f none none h₁.shaped (h₁.kept hk) hd.1.plain
      (fieldOf_sound fun hn => absurd rfl hn) rfl).mono fun hr => .inr (.inl hr)).andThen fun _ s₂ h₂ => ?_
    have hrest := addItems_steady tags' h₂.shaped (h₂.kept (h₁.kept hk)) hd.2
    rw [htags, List.append_assoc] at hrest
    exact hrest.mono (Or.imp_right .inr)
  | index, .map m :: rest, tags, s, h, hk, hd => by
    unfold addItems tagsOf ItemsOverlong
    refine ((checkTag_steady tags m.tag m.name m.line h).mono fun hlong =>
      .inl (tagsOverlong_of_mem hlong.1 hlong.2)).bind fun tags' s₁ h₁ htags => ?_
    refine (add_steady (mapEntry c m) h₁.shaped (h₁.kept hk) hd.1.plain
      (mapFieldOf_sound m) rfl).discard.andThen fun _ s₂ h₂ => ?_
    have hrest := addItems_steady tags' h₂.shaped (h₂.kept (h₁.kept hk)) hd.2
    rwa [htags, List.append_assoc] at hrest
  | index, .oneof o :: rest, tags, s, h, hk, hd => by
    unfold addItems tagsOf ItemsOverlong
    refine (modifyOneofs_steady _ h).andThen fun _ s₁ h₁ => ?_
    have hmembers := addMembers_steady (c := c) o.name tags h₁.shaped (h₁.kept hk) hd.1
    rw [← List.append_assoc]
    refine (hmembers.mono (Or.imp (·.append _) .inl)).bind fun tags' s₂ h₂ htags => ?_
    have hrest := addItems_steady tags' h₂.shaped (h₂.kept (h₁.kept hk)) hd.2
    rw [htags] at hrest
    exact hrest.mono (Or.imp_right .inr)
  | index, .message name items line :: rest, tags, s, h, hk, hd => by
    unfold addItems tagsOf ItemsOverlong
    refine ((addMessage_steady h (.inr hk) hd.1).mono fun hm => .inr (.inl hm)).andThen fun _ s₁ h₁ => ?_
    exact (addItems_steady tags h₁.shaped (h₁.kept hk) hd.2).mono (Or.imp_right .inr)
  | index, .enum e :: rest, tags, s, h, hk, hd => by
    unfold addItems tagsOf ItemsOverlong
    refine (add_steady (enumEntry c e) h hk (Source.Word.plain hd.1) trivial trivial).discard.andThen fun _ s₁ h₁ => ?_
    exact addItems_steady tags h₁.shaped (h₁.kept hk) hd.2
  | index, .extend e :: rest, tags, s, h, hk, hd => by
    unfold addItems tagsOf ItemsOverlong
    refine (fullNameOf_steady h).andThen fun _ s₁ h₁ => ?_
    refine (report_steady _ h₁.shaped).andThen fun _ s₂ h₂ => ?_
    exact addItems_steady tags h₂.shaped (h₂.kept (h₁.kept hk)) hd.2
  | index, .dialect _ :: rest, tags, s, h, hk, hd | index, .edition _ :: rest, tags, s, h, hk, hd
  | index, .package _ :: rest, tags, s, h, hk, hd | index, .imports _ :: rest, tags, s, h, hk, hd
  | index, .option _ _ :: rest, tags, s, h, hk, hd | index, .service _ :: rest, tags, s, h, hk, hd => by
    unfold addItems tagsOf ItemsOverlong
    exact addItems_steady tags h hk hd.2

end

/-- What the body of a loop over entries does for one of them. -/
theorem addAll_steady {γ : Type} (entry : γ → Entry) (xs : List γ) (h : s.graph.Shaped) (hk : KindAt s.graph index k)
    (hentry : ∀ x ∈ xs, Plain (entry x).name ∧ (entry x).body.Sound ∧ k.Holds (entry x).body) :
    Steady (forIn xs () fun x _ => do
      discard (add (entry x) index)
      pure (.yield ())) s cause fun _ _ => True :=
  .forIn h fun x hx _ hgrown =>
    have ⟨hname, hsound, hholds⟩ := hentry x hx
    (add_steady _ hgrown.shaped (hgrown.kept hk) hname hsound hholds).discard.done

theorem addDeclaration_steady {d : Decl} (h : s.graph.Shaped) (hk : KindAt s.graph index .package) (hd : d.Proper) :
    Steady (addDeclaration c index d) s (DeclOverlong d) fun _ _ => True := by
  cases d with
  | message name items line => exact addMessage_steady h (.inl hk) hd
  | enum e => exact (add_steady (enumEntry c e) h hk (Source.Word.plain hd) trivial trivial).discard
  | service d =>
    refine (add_steady _ h hk hd.1.plain ?_ ?_).bind fun i s₁ hgrown hnew => ?_
    · trivial
    · trivial
    exact (addAll_steady (rpcEntry c) d.rpcs hgrown.shaped hnew fun r hr =>
      ⟨(hd.2 r hr).plain, trivial, trivial⟩).done
  | extend e =>
    exact .forIn h fun f hf s₁ hgrown => ((addField_steady f none (some e.extendee) hgrown.shaped (hgrown.kept hk)
      (hd f hf).plain (fieldOf_sound fun hn => absurd rfl hn) ⟨by rintro ⟨⟩, rfl⟩).mono fun hr => ⟨f, hf, hr⟩).done
  | _ => exact .same h rfl trivial

/-- A package is found or created, or another declaration has its name or that of a package around it. -/
theorem packageUnder_steady : ∀ {parts : List String} {g g' : Graph} {current : Nat} {r : Except AddFault Nat},
    g.Shaped → KindAt g current .package → (∀ part ∈ parts, Plain part) → g.packageUnder current parts = (g', r) →
    Extends g g' ∧ (∀ i, r = .ok i → KindAt g' i .package) ∧ ∀ e, r = .error e → ∃ d, e = .duplicate d
  | [], g, g', current, r, h, hc, _, hr => by
    cases hr
    refine ⟨.refl h, fun i hi => ?_, fun e he => by cases he⟩
    cases hi
    exact hc
  | part :: rest, g, g', current, r, h, hc, hparts, hr => by
    obtain ⟨n, hn, hk⟩ := hc
    have hrest : ∀ q ∈ rest, Plain q := fun q hq => hparts q (List.mem_cons_of_mem _ hq)
    rw [packageUnder_cons h.toArena hn] at hr
    split at hr
    next hfind =>
      have hextends : Extends g (g.adopt (packageEntry part) current n) :=
        extends_adopt h hn hfind (hparts part List.mem_cons_self) trivial (by rw [hk]; trivial)
      obtain ⟨hmore, hends⟩ := packageUnder_steady hextends.shaped ⟨_, node?_adopt_self, rfl⟩ hrest hr
      exact ⟨hextends.trans hmore, hends⟩
    next j hfind =>
      obtain ⟨m, hm, -⟩ := h.names.mp hfind
      rw [hm] at hr
      dsimp only at hr
      split at hr
      next hkm => exact packageUnder_steady h ⟨m, hm, hkm⟩ hrest hr
      next =>
        cases hr
        refine ⟨.refl h, fun i hi => (by cases hi), fun e he => ?_⟩
        cases he
        exact ⟨_, rfl⟩

/-- **Adding the declarations of a file fails only for what is taken or overlong, and leaves a well-formed graph.** -/
theorem addDeclarations_steady (package : String) {decls : List Decl} (h : s.graph.Shaped) (hd : ProperAll decls) :
    Steady (addDeclarations c package decls) s (∃ d ∈ decls, DeclOverlong d) fun _ _ => True := by
  obtain ⟨n, hn, hk, -⟩ := h.root
  rcases hp : s.graph.package package with ⟨g', r⟩
  have hunder := hp
  rw [package_eq] at hunder
  obtain ⟨hextends, hok, herror⟩ := packageUnder_steady h ⟨n, hn, hk⟩ (packageParts_plain package) hunder
  have hopened : Grown s { s with graph := g' } := ⟨hextends, rfl, rfl⟩
  cases r with
  | ok space =>
    have hspace := hok space rfl
    have hadds : Steady (do for d in decls do addDeclaration c space d : Load Unit) { s with graph := g' }
        (∃ d ∈ decls, DeclOverlong d) fun _ _ => True := by
      refine Steady.done (.forIn hextends.shaped fun d hmem s₁ hgrown => ?_)
      exact ((addDeclaration_steady hgrown.shaped (hgrown.kept hspace) (properAll_iff.mp hd d hmem)).mono
        fun hlong => ⟨d, hmem, hlong⟩).done
    have hrun := @addDeclarations_eq c s package decls g' space hp
    constructor
    · intro a s' hr
      rw [hrun] at hr
      exact ⟨hopened.trans (hadds.ok hr).1, trivial⟩
    · intro e s' hr
      rw [hrun] at hr
      exact ⟨hopened.trans (hadds.error hr).1, (hadds.error hr).2⟩
  | error e =>
    obtain ⟨d, rfl⟩ := herror e rfl
    have hrun : addDeclarations c package decls s = .error (.duplicate d) { s with graph := g' } := by
      unfold addDeclarations
      rw [bind_of_ok (show (get : Load Loader) s = .ok s s from rfl), hp]
      rfl
    constructor
    · intro a s' hr
      rw [hrun] at hr
      cases hr
    · intro e s' hr
      rw [hrun] at hr
      cases hr
      exact ⟨hopened, .name d⟩

end Load

end ProtoBind.Schema
