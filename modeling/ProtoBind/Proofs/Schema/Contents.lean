/-
What the declarations of a file add to a graph.

The contents of a declaration are the entries that it becomes, with their full
names and in order (`declContents`, `messageContents`); they are read off the
declaration without a graph. Adding a declaration to a graph succeeds exactly
when no message of it uses a tag twice, the options `packed` of its fields can
be read (`DeclFits`) and none of its names is taken; then the graph has these
entries more (`addDeclaration_succeeds`).
-/
import ProtoBind.Proofs.Schema.History
import ProtoBind.Proofs.Schema.Loaded

namespace ProtoBind.Schema

open Schema.Graph
open Source (Decl)

/-- An entry with its full name. -/
abbrev Listed := String × Entry

/-- The entry under a parent of the given full name. -/
def Entry.under (parent : String) (e : Entry) : Listed := (childName parent e.name, e)

/-- The node that an extension was resolved to extend. -/
def Body.extendeeTarget? : Body → Option Nat
  | .field f => f.extendeeTarget
  | _ => none

/-! ## Declarations -/

namespace Load

def messageEntry (c : Context) (name : String) (line : Nat) (groups : List OneofGroup) : Entry where
  name := name
  file := some c.file
  doc := c.docs.docFor line
  line := some line
  body := .message c.dialect groups

def serviceEntry (c : Context) (decl : Source.ServiceDecl) : Entry where
  name := decl.name
  file := some c.file
  doc := c.docs.docFor decl.line
  line := some decl.line
  body := .service

/-- The oneof groups among the items of a message, each with its fields. -/
def groupsOf (c : Context) : List Decl → List OneofGroup
  | [] => []
  | .oneof o :: rest => ⟨o.name, c.docs.docFor o.line, o.fields.map (·.name)⟩ :: groupsOf c rest
  | _ :: rest => groupsOf c rest

/-- The tags of the fields among the items of a message, in order. -/
def tagsOf : List Decl → List Int
  | [] => []
  | .field f :: rest => f.tag :: tagsOf rest
  | .map m :: rest => m.tag :: tagsOf rest
  | .oneof o :: rest => o.fields.map (·.tag) ++ tagsOf rest
  | _ :: rest => tagsOf rest

mutual

/-- A message and all that it contains. -/
def messageContents (c : Context) (parent : String) : Decl → List Listed
  | .message name items line =>
    (messageEntry c name line (groupsOf c items)).under parent ::
      itemsContents c (childName parent name) items
  | _ => []

/-- What the items of a message become. Extensions inside a message are left out. -/
def itemsContents (c : Context) (parent : String) : List Decl → List Listed
  | [] => []
  | .field f :: rest => (fieldEntry c f none none).under parent :: itemsContents c parent rest
  | .map m :: rest => (mapEntry c m).under parent :: itemsContents c parent rest
  | .oneof o :: rest =>
    o.fields.map (fun f => (fieldEntry c f (some o.name) none).under parent) ++ itemsContents c parent rest
  | .message name items line :: rest =>
    messageContents c parent (.message name items line) ++ itemsContents c parent rest
  | .enum e :: rest => (enumEntry c e).under parent :: itemsContents c parent rest
  | _ :: rest => itemsContents c parent rest

end

mutual

/-- No message uses a tag twice, and each option `packed` of its fields can be read. -/
def MessageFits : Decl → Prop
  | .message _ items _ => (tagsOf items).Nodup ∧ ItemsFit items
  | _ => True

def ItemsFit : List Decl → Prop
  | [] => True
  | .field f :: rest => hasReadablePacked f ∧ ItemsFit rest
  | .oneof o :: rest => (∀ f ∈ o.fields, hasReadablePacked f) ∧ ItemsFit rest
  | .message name items line :: rest => MessageFits (.message name items line) ∧ ItemsFit rest
  | _ :: rest => ItemsFit rest

end

/-- A declaration of a file can be entered into a graph in which its names are free. -/
def DeclFits : Decl → Prop
  | .message name items line => MessageFits (.message name items line)
  | .extend e => ∀ f ∈ e.fields, hasReadablePacked f
  | _ => True

/-- What a declaration of a file becomes. -/
def declContents (c : Context) (space : String) : Decl → List Listed
  | .message name items line => messageContents c space (.message name items line)
  | .enum e => [(enumEntry c e).under space]
  | .service d =>
    (serviceEntry c d).under space ::
      d.rpcs.map fun rpc => (rpcEntry c rpc).under (childName space d.name)
  | .extend e => e.fields.map fun f => (fieldEntry c f none (some e.extendee)).under space
  | _ => []

/-- The packages on the way along the parts of a package name. -/
def packageEntries (current : String) : List String → List Listed
  | [] => []
  | part :: rest =>
    ({ name := part, body := .package } : Entry).under current ::
      packageEntries (childName current part) rest

/-- An entry of a file: it names the file, it is no package and has no targets, and it stands in the
package of the file or in another of its entries. -/
structure Belongs (c : Context) (space : String) (all : List Listed) (x : Listed) : Prop where
  file : x.2.file = some c.file
  kind : x.2.body.kind ≠ .package
  bare : x.2.body.extendeeTarget? = none
  under : ∃ parent, x.1 = childName parent x.2.name ∧ (parent = space ∨ parent ∈ all.map (·.1))

section Belongs

variable {c : Context} {space : String} {all all' : List Listed} {x : Listed}

theorem Belongs.mono (h : Belongs c space all x) (hall : ∀ y ∈ all, y ∈ all') : Belongs c space all' x where
  file := h.file
  kind := h.kind
  bare := h.bare
  under := by
    obtain ⟨parent, hname, hparent⟩ := h.under
    refine ⟨parent, hname, hparent.imp_right fun hin => ?_⟩
    obtain ⟨y, hy, rfl⟩ := List.mem_map.mp hin
    exact List.mem_map_of_mem (hall y hy)

/-- What stands in an entry of the file. -/
theorem Belongs.inside {parent : String} (h : Belongs c parent all x) (hparent : parent ∈ all'.map (·.1))
    (hall : ∀ y ∈ all, y ∈ all') : Belongs c space all' x where
  file := h.file
  kind := h.kind
  bare := h.bare
  under := by
    obtain ⟨p, hname, hp⟩ := h.under
    refine ⟨p, hname, .inr ?_⟩
    rcases hp with rfl | hin
    · exact hparent
    · obtain ⟨y, hy, rfl⟩ := List.mem_map.mp hin
      exact List.mem_map_of_mem (hall y hy)

theorem belongs_under {e : Entry} (hf : e.file = some c.file) (hk : e.body.kind ≠ .package)
    (hb : e.body.extendeeTarget? = none) : Belongs c space all (e.under space) :=
  ⟨hf, hk, hb, space, rfl, .inl rfl⟩

end Belongs

mutual

theorem messageContents_belongs {c : Context} : ∀ {space : String} {d : Decl}, ∀ x ∈ messageContents c space d,
    Belongs c space (messageContents c space d) x
  | space, .message name items line => by
    intro x hx
    rw [messageContents] at hx ⊢
    rcases List.mem_cons.mp hx with rfl | hx
    · exact belongs_under rfl (by rintro ⟨⟩) rfl
    · exact (itemsContents_belongs x hx).inside (by simp [Entry.under, messageEntry])
        fun y hy => List.mem_cons_of_mem _ hy
  | _, .dialect _ | _, .edition _ | _, .package _ | _, .imports _ | _, .option _ _ | _, .field _ | _, .map _
  | _, .oneof _ | _, .enum _ | _, .service _ | _, .extend _ => by
    intro x hx
    simp [messageContents] at hx

theorem itemsContents_belongs {c : Context} : ∀ {space : String} {items : List Decl},
    ∀ x ∈ itemsContents c space items, Belongs c space (itemsContents c space items) x
  | space, [] => by
    intro x hx
    simp [itemsContents] at hx
  | space, .field f :: rest | space, .map m :: rest | space, .enum e :: rest => by
    intro x hx
    rw [itemsContents] at hx ⊢
    rcases List.mem_cons.mp hx with rfl | hx
    · exact belongs_under rfl (by rintro ⟨⟩) rfl
    · exact (itemsContents_belongs x hx).mono fun y hy => List.mem_cons_of_mem _ hy
  | space, .oneof o :: rest => by
    intro x hx
    rw [itemsContents] at hx ⊢
    rcases List.mem_append.mp hx with hx | hx
    · obtain ⟨f, -, rfl⟩ := List.mem_map.mp hx
      exact belongs_under rfl (by rintro ⟨⟩) rfl
    · exact (itemsContents_belongs x hx).mono fun y hy => List.mem_append_right _ hy
  | space, .message name items line :: rest => by
    intro x hx
    rw [itemsContents] at hx ⊢
    rcases List.mem_append.mp hx with hx | hx
    · exact (messageContents_belongs x hx).mono fun y hy => List.mem_append_left _ hy
    · exact (itemsContents_belongs x hx).mono fun y hy => List.mem_append_right _ hy
  | space, .dialect _ :: rest | space, .edition _ :: rest | space, .package _ :: rest | space, .imports _ :: rest
  | space, .option _ _ :: rest | space, .service _ :: rest | space, .extend _ :: rest => by
    simp only [itemsContents]
    exact itemsContents_belongs

end

theorem declContents_belongs {c : Context} {space : String} {d : Decl} :
    ∀ x ∈ declContents c space d, Belongs c space (declContents c space d) x := by
  intro x hx
  cases d with
  | message name items line =>
    rw [declContents] at hx ⊢
    exact messageContents_belongs x hx
  | enum e =>
    obtain rfl : x = (enumEntry c e).under space := by simpa [declContents] using hx
    exact belongs_under rfl (by rintro ⟨⟩) rfl
  | service d =>
    rw [declContents] at hx ⊢
    rcases List.mem_cons.mp hx with rfl | hx
    · exact belongs_under rfl (by rintro ⟨⟩) rfl
    · obtain ⟨rpc, -, rfl⟩ := List.mem_map.mp hx
      have hrpc : Belongs c (childName space d.name) [] ((rpcEntry c rpc).under (childName space d.name)) :=
        belongs_under rfl (by rintro ⟨⟩) rfl
      exact hrpc.inside (by simp [Entry.under, serviceEntry]) (by simp)
  | extend e =>
    rw [declContents] at hx
    obtain ⟨f, -, rfl⟩ := List.mem_map.mp hx
    exact belongs_under rfl (by rintro ⟨⟩) rfl
  | _ => simp [declContents] at hx

theorem flatMap_belongs {c : Context} {space : String} {decls : List Decl} :
    ∀ x ∈ decls.flatMap (declContents c space), Belongs c space (decls.flatMap (declContents c space)) x := by
  intro x hx
  obtain ⟨d, hd, hx⟩ := List.mem_flatMap.mp hx
  exact (declContents_belongs x hx).mono fun y hy => List.mem_flatMap.mpr ⟨d, hd, hy⟩

end Load

/-! ## Listings -/

namespace Graph

/-- The nodes of a graph as named entries, in order. -/
def listing (g : Graph) : List Listed := g.nodes.map fun n => (n.fullName, n.toEntry)

/-- The full names of the nodes, in order. -/
def fullNames (g : Graph) : List String := g.listing.map (·.1)

/-- None of the entries has a name that is taken. -/
def Fresh (g : Graph) (news : List Listed) : Prop := (g.fullNames ++ news.map (·.1)).Nodup

/-- An entry with other groups, if it is a message. -/
def regroupListed (f : List OneofGroup → List OneofGroup) (x : Listed) : Listed :=
  match x.2.body with
  | .message dialect groups => (x.1, { x.2 with body := .message dialect (f groups) })
  | _ => x

variable {g : Graph} {entry : Entry} {p : Nat} {pn : Node}

theorem fullNames_eq (g : Graph) : g.fullNames = g.nodes.map (·.fullName) := by
  simp [fullNames, listing, Function.comp_def]

theorem getElem?_fullNames (i : Nat) : g.fullNames[i]? = (g.node? i).map (·.fullName) := by
  rw [fullNames_eq, List.getElem?_map]
  rfl

theorem getElem?_listing (i : Nat) :
    g.listing[i]? = (g.node? i).map fun n => (n.fullName, n.toEntry) := by
  rw [listing, List.getElem?_map]
  rfl

theorem mem_listing {x : Listed} : x ∈ g.listing ↔ ∃ n ∈ g.nodes, n.fullName = x.1 ∧ n.toEntry = x.2 := by
  simp only [listing, List.mem_map, Prod.ext_iff]

theorem listing_adopt : (g.adopt entry p pn).listing = g.listing ++ [entry.under pn.fullName] := by
  have hnodes := @filterMap_adopt g entry p _ pn (fun n => some (n.fullName, n.toEntry)) fun _ _ => rfl
  simp only [List.filterMap_eq_map', Option.toList_some] at hnodes
  exact hnodes

theorem fullNames_adopt :
    (g.adopt entry p pn).fullNames = g.fullNames ++ [childName pn.fullName entry.name] := by
  rw [fullNames, listing_adopt, List.map_append]
  rfl

theorem listing_regroup {index : Nat} {f : List OneofGroup → List OneofGroup} :
    (g.regroup index f).listing = g.listing.modify index (regroupListed f) := by
  refine List.ext_getElem? fun j => ?_
  rw [getElem?_listing, List.getElem?_modify, getElem?_listing]
  simp only [node?, regroup, List.getElem?_modify]
  cases g.nodes[j]? with
  | none => rfl
  | some n =>
    simp only [Option.map_eq_map, Option.map_some, Option.some.injEq]
    by_cases hj : index = j
    · cases hb : n.body <;> simp [hj, regrouped, regroupListed, hb]
    · simp [hj]

theorem regroupListed_fst (f : List OneofGroup → List OneofGroup) (x : Listed) :
    (regroupListed f x).1 = x.1 := by
  unfold regroupListed
  split <;> rfl

theorem regroupListed_comp (f f' : List OneofGroup → List OneofGroup) :
    regroupListed f' ∘ regroupListed f = regroupListed (f' ∘ f) := by
  funext x
  obtain ⟨name, e⟩ := x
  cases hb : e.body <;> simp [regroupListed, hb]

theorem regroupListed_id : regroupListed id = id := by
  funext x
  obtain ⟨name, e⟩ := x
  cases hb : e.body <;> simp [regroupListed, hb]
  simp [← hb]

theorem fst_modify {index : Nat} {f : List OneofGroup → List OneofGroup} (l : List Listed) :
    (l.modify index (regroupListed f)).map (·.1) = l.map (·.1) := by
  simp only [← List.filterMap_eq_map']
  exact filterMap_modify (fun x => by rw [regroupListed_fst]) l index

theorem modify_append_of_lt {α : Type} {f : α → α} : ∀ {l m : List α} {i : Nat}, i < l.length →
    (l ++ m).modify i f = l.modify i f ++ m
  | a :: l, m, 0, _ => rfl
  | a :: l, m, i + 1, h => by
    have ih := @modify_append_of_lt α f l m i (by simpa using h)
    simp [ih]

theorem modify_append_self {α : Type} {f : α → α} {a : α} : ∀ {l : List α},
    (l ++ [a]).modify l.length f = l ++ [f a]
  | [] => rfl
  | b :: l => by
    have ih := @modify_append_self α f a l
    simp [ih]

namespace Arena

theorem fullNames_nodup (h : g.Arena) : g.fullNames.Nodup := by
  rw [fullNames_eq]
  exact List.Nodup.map_on (fun _ hn _ hm he => h.unique hn hm he) h.nodup

theorem find?_eq_none (h : g.Arena) {name : String} : g.find? name = none ↔ name ∉ g.fullNames := by
  rw [Option.eq_none_iff_forall_ne_some, fullNames_eq]
  constructor
  · intro hnone hmem
    obtain ⟨n, hn, rfl⟩ := List.mem_map.mp hmem
    exact hnone _ (h.find?_fullName hn)
  · intro hnot i hi
    obtain ⟨n, hn, rfl⟩ := h.names.mp hi
    exact hnot (List.mem_map_of_mem (List.mem_of_getElem? hn))

theorem fresh_nil (h : g.Arena) : g.Fresh [] := by
  simpa [Fresh] using h.fullNames_nodup

theorem fresh_iff (h : g.Arena) {news : List Listed} : g.Fresh news ↔
    (news.map (·.1)).Nodup ∧ ∀ x ∈ news, x.1 ∉ g.fullNames := by
  rw [Fresh, List.nodup_append]
  constructor
  · rintro ⟨-, hnews, hdisjoint⟩
    exact ⟨hnews, fun x hx hmem => hdisjoint _ hmem _ (List.mem_map_of_mem hx) rfl⟩
  · rintro ⟨hnews, hout⟩
    refine ⟨h.fullNames_nodup, hnews, fun a ha b hb he => ?_⟩
    obtain ⟨x, hx, rfl⟩ := List.mem_map.mp hb
    exact hout x hx (he ▸ ha)

theorem regroup (h : g.Arena) {index : Nat} {f : List OneofGroup → List OneofGroup} :
    (g.regroup index f).Arena := by
  refine h.reshape ?_ (fun n' hn' => ?_) rfl
  · simp only [← List.filterMap_eq_map']
    exact filterMap_modify (fun n => by rw [place_regrouped]) _ _
  · obtain ⟨r, hr, hk, -⟩ := h.root
    obtain ⟨n, hn, rfl⟩ := node?_regroup.mp hn'
    obtain rfl : r = n := Option.some.inj (hr.symm.trans hn)
    split
    · rw [kind_regrouped, hk]
    · exact hk

end Arena

theorem Fresh.of_append {l m : List Listed} (h : g.Fresh (l ++ m)) : g.Fresh l := by
  rw [Fresh, List.map_append, ← List.append_assoc] at h
  exact h.of_append_left

theorem fresh_congr {l m : List Listed} (h : l.map (·.1) = m.map (·.1)) : g.Fresh l ↔ g.Fresh m := by
  rw [Fresh, h]
  exact Iff.rfl

end Graph

/-! ## Exact conditions -/

namespace Load

/-- A computation succeeds from a loader exactly under a condition, and then has the result. -/
structure Succeeds {α : Type} (x : Load α) (s : Loader) (ok : Prop) (post : α → Loader → Prop) : Prop where
  run : ok → ∃ a s', x s = .ok a s'
  only : ∀ {a s'}, x s = .ok a s' → ok ∧ post a s'

namespace Succeeds

variable {α β : Type} {x : Load α} {f : α → Load β} {s : Loader} {ok ok' : Prop} {post post' : α → Loader → Prop}

theorem congr (h : Succeeds x s ok post) (hok : ok ↔ ok') (hpost : ∀ a s', post a s' → post' a s') :
    Succeeds x s ok' post' where
  run hk := h.run (hok.mpr hk)
  only hx := ⟨hok.mp (h.only hx).1, hpost _ _ (h.only hx).2⟩

/-- A computation that leaves the loader as it is. -/
theorem same {a : α} (hx : x s = .ok a s) (hok : ok) (hpost : post a s) : Succeeds x s ok post where
  run _ := ⟨a, s, hx⟩
  only hrun := by
    rw [hx] at hrun
    cases hrun
    exact ⟨hok, hpost⟩

/-- The condition of the whole covers the first step. -/
theorem bind {post₂ : β → Loader → Prop} (hx : Succeeds x s ok post) (hok : ok' → ok)
    (hf : ∀ a s₁, ok → post a s₁ → Succeeds (f a) s₁ ok' post₂) : Succeeds (x >>= f) s ok' post₂ where
  run hok' := by
    obtain ⟨a, s₁, hrun⟩ := hx.run (hok hok')
    obtain ⟨b, s₂, hrun₂⟩ := (hf a s₁ (hok hok') (hx.only hrun).2).run hok'
    exact ⟨b, s₂, bind_eq_ok.mpr ⟨a, s₁, hrun, hrun₂⟩⟩
  only h := by
    obtain ⟨a, s₁, hrun, hrun₂⟩ := bind_eq_ok.mp h
    obtain ⟨hfirst, hpost⟩ := hx.only hrun
    exact (hf a s₁ hfirst hpost).only hrun₂

/-- A first step that always succeeds. -/
theorem andThen {post₂ : β → Loader → Prop} (hx : Succeeds x s True post)
    (hf : ∀ a s₁, post a s₁ → Succeeds (f a) s₁ ok' post₂) : Succeeds (x >>= f) s ok' post₂ :=
  hx.bind (fun _ => trivial) fun a s₁ _ hpost => hf a s₁ hpost

theorem discard (h : Succeeds x s ok post) :
    Succeeds (Functor.discard x) s ok fun _ s' => ∃ a, post a s' where
  run hok := by
    obtain ⟨a, s', hx⟩ := h.run hok
    exact ⟨(), s', bind_eq_ok.mpr ⟨a, s', hx, rfl⟩⟩
  only hx := by
    obtain ⟨a, hx⟩ := discard_eq_ok hx
    exact ⟨(h.only hx).1, a, (h.only hx).2⟩

/-- A computation whose result is not used. -/
theorem done {γ : Type} {c : γ} {Q : Loader → Prop} (h : Succeeds x s ok fun _ s' => Q s') :
    Succeeds (x >>= fun _ => Pure.pure c) s ok fun r s' => r = c ∧ Q s' :=
  h.bind id fun _ _ hok hq => .same rfl hok ⟨rfl, hq⟩

end Succeeds

/-- The loader has entries more, and the node `index` other groups. -/
structure Fills (index : Nat) (f : List OneofGroup → List OneofGroup) (news : List Listed) (s s' : Loader) :
    Prop where
  arena : s'.graph.Arena
  listing : s'.graph.listing = s.graph.listing.modify index (regroupListed f) ++ news
  files : s'.graph.files = s.graph.files
  loaded : s'.loaded = s.loaded
  loading : s'.loading = s.loading

/-- The loader has entries more. -/
structure Adds (news : List Listed) (s s' : Loader) : Prop where
  arena : s'.graph.Arena
  listing : s'.graph.listing = s.graph.listing ++ news
  files : s'.graph.files = s.graph.files
  loaded : s'.loaded = s.loaded
  loading : s'.loading = s.loading

variable {c : Context} {s s' s'' : Loader} {index : Nat} {parent : String}
  {f f' : List OneofGroup → List OneofGroup} {news news' : List Listed}

theorem Adds.fills (h : Adds news s s') (index : Nat) : Fills index id news s s' where
  arena := h.arena
  listing := by rw [h.listing, regroupListed_id, List.modify_id]
  files := h.files
  loaded := h.loaded
  loading := h.loading

theorem Adds.trans (h : Adds news s s') (h' : Adds news' s' s'') : Adds (news ++ news') s s'' where
  arena := h'.arena
  listing := by rw [h'.listing, h.listing, List.append_assoc]
  files := h'.files.trans h.files
  loaded := h'.loaded.trans h.loaded
  loading := h'.loading.trans h.loading

theorem Fills.fullNames (h : Fills index f news s s') :
    s'.graph.fullNames = s.graph.fullNames ++ news.map (·.1) := by
  rw [Graph.fullNames, h.listing, List.map_append, fst_modify]
  rfl

theorem Fills.fresh_iff (h : Fills index f news s s') {l : List Listed} :
    s'.graph.Fresh l ↔ s.graph.Fresh (news ++ l) := by
  rw [Fresh, Fresh, h.fullNames, List.map_append, List.append_assoc]

theorem Adds.fresh_iff (h : Adds news s s') {l : List Listed} :
    s'.graph.Fresh l ↔ s.graph.Fresh (news ++ l) :=
  (h.fills 0).fresh_iff

theorem Fills.named (h : Fills index f news s s') {i : Nat} (hp : s.graph.fullNames[i]? = some parent) :
    s'.graph.fullNames[i]? = some parent := by
  rw [h.fullNames, List.getElem?_append_left (List.getElem?_eq_some_iff.mp hp).1, hp]

theorem Adds.named (h : Adds news s s') {i : Nat} (hp : s.graph.fullNames[i]? = some parent) :
    s'.graph.fullNames[i]? = some parent :=
  (h.fills 0).named hp

theorem Fills.trans (h : Fills index f news s s') (h' : Fills index f' news' s' s'')
    (hp : s.graph.fullNames[index]? = some parent) : Fills index (f' ∘ f) (news ++ news') s s'' where
  arena := h'.arena
  listing := by
    have hlt : index < (s.graph.listing.modify index (regroupListed f)).length := by
      rw [List.length_modify, ← List.length_map (·.1)]
      exact (List.getElem?_eq_some_iff.mp hp).1
    rw [h'.listing, h.listing, modify_append_of_lt hlt, List.modify_modify_eq, regroupListed_comp,
      List.append_assoc]
  files := h'.files.trans h.files
  loaded := h'.loaded.trans h.loaded
  loading := h'.loading.trans h.loading

/-! ## Steps -/

theorem add_succeeds (entry : Entry) (h : s.graph.Arena) (hp : s.graph.fullNames[index]? = some parent) :
    Succeeds (add entry index) s (s.graph.Fresh [entry.under parent]) fun i s' =>
      Adds [entry.under parent] s s' ∧ s'.graph.fullNames[i]? = some (childName parent entry.name) ∧
        i = s.graph.listing.length := by
  rw [getElem?_fullNames] at hp
  obtain ⟨pn, hpn, hname⟩ := Option.map_eq_some_iff.mp hp
  have hok {i : Nat} {g : Graph} (hg : s.graph.add entry index = .ok (i, g)) :
      add entry index s = .ok i { s with graph := g } := by
    unfold add
    rw [bind_of_ok (show (get : Load Loader) s = .ok s s from rfl), hg]
    rfl
  have herror {e : AddFault} (hg : s.graph.add entry index = .error e) : add entry index s = .error (.ofAdd e) s := by
    unfold add
    rw [bind_of_ok (show (get : Load Loader) s = .ok s s from rfl), hg]
    rfl
  have hfree : s.graph.Fresh [entry.under parent] ↔
      s.graph.find? (childName pn.fullName entry.name) = none := by
    rw [h.fresh_iff, h.find?_eq_none, hname]
    simp [Entry.under]
  constructor
  · intro hfresh
    refine ⟨s.graph.nodes.length, { s with graph := s.graph.adopt entry index pn }, hok ?_⟩
    simp only [Graph.add, hpn, hfree.mp hfresh]
    rfl
  · intro i s' hrun
    cases hr : s.graph.add entry index with
    | error e =>
      rw [herror hr] at hrun
      cases hrun
    | ok r =>
      obtain ⟨i', g'⟩ := r
      rw [hok hr] at hrun
      cases hrun
      obtain ⟨pn', hpn', hnone, rfl, rfl⟩ := Graph.add_eq_ok hr
      obtain rfl : pn = pn' := Option.some.inj (hpn.symm.trans hpn')
      refine ⟨hfree.mpr hnone, ⟨h.adopt hpn hnone, ?_, rfl, rfl, rfl⟩, ?_, ?_⟩
      · rw [← hname]
        exact listing_adopt
      · rw [getElem?_fullNames, node?_adopt_self, ← hname]
        rfl
      · simp [Graph.listing]

theorem checkTag_succeeds {tags : Tags} {tag : Int} {name : String} {line : Nat} (hn : (tags.map (·.1)).Nodup) :
    Succeeds (checkTag c index tags tag name line) s (tags.map (·.1) ++ [tag]).Nodup fun tags' s' =>
      tags'.map (·.1) = tags.map (·.1) ++ [tag] ∧ (tags'.map (·.1)).Nodup ∧ s' = s := by
  have hiff : (tags.map (·.1) ++ [tag]).Nodup ↔ tag ∉ tags.map (·.1) := by
    rw [List.nodup_append]
    constructor
    · rintro ⟨-, -, h⟩ hmem
      exact h _ hmem tag (by simp) rfl
    · intro hmem
      refine ⟨hn, by simp, fun a ha b hb he => hmem ?_⟩
      obtain rfl : b = tag := by simpa using hb
      exact he ▸ ha
  constructor
  · intro hok
    have hnone : tags.lookup tag = none := by
      rw [List.lookup_eq_none_iff]
      intro e he
      simpa using fun heq : tag = e.1 => hiff.mp hok (heq ▸ List.mem_map_of_mem he)
    refine ⟨tags ++ [(tag, name)], s, ?_⟩
    unfold checkTag
    rw [hnone]
    rfl
  · intro tags' s' hrun
    obtain ⟨hmem, rfl, rfl⟩ := checkTag_eq_ok hrun
    have htags : (tags ++ [(tag, name)]).map (·.1) = tags.map (·.1) ++ [tag] := by simp
    exact ⟨hiff.mpr hmem, htags, htags ▸ hiff.mpr hmem, rfl⟩

/-- An entry is added under the name of its parent. -/
theorem addOne_succeeds (entry : Entry) (h : s.graph.Arena) (hp : s.graph.fullNames[index]? = some parent) :
    Succeeds (discard (add entry index)) s (True ∧ s.graph.Fresh [entry.under parent])
      fun _ s' => Adds [entry.under parent] s s' :=
  (add_succeeds entry h hp).discard.congr (iff_of_eq (true_and _).symm) fun _ _ hpost => hpost.choose_spec.1

theorem addField_succeeds (decl : Source.FieldDecl) (oneof extendee : Option String) (h : s.graph.Arena)
    (hp : s.graph.fullNames[index]? = some parent) :
    Succeeds (addField c decl oneof extendee index) s
      (hasReadablePacked decl = true ∧ s.graph.Fresh [(fieldEntry c decl oneof extendee).under parent])
      fun _ s' => Adds [(fieldEntry c decl oneof extendee).under parent] s s' := by
  have hadd := addOne_succeeds (fieldEntry c decl oneof extendee) h hp
  unfold addField
  by_cases hreadable : hasReadablePacked decl = true
  · simp only [hreadable, if_true]
    exact hadd
  · simp only [hreadable]
    exact ⟨fun hok => absurd hok.1 (by simp), fun hrun => by cases hrun⟩

/-- A field is added behind a check of its tag, and then the rest is done with the tags and the names
that are left. -/
theorem checkedAdd_succeeds {α : Type} {tags : Tags} {tag : Int} {name : String} {line : Nat} {x : Listed}
    {first : Load Unit} {k : Tags → Load α} {more : List Int} {fits others : Prop} {rest : List Listed}
    {post : α → Loader → Prop} (hn : (tags.map (·.1)).Nodup)
    (hfirst : Succeeds first s (fits ∧ s.graph.Fresh [x]) fun _ s' => Adds [x] s s')
    (hk : ∀ tags' s', tags'.map (·.1) = tags.map (·.1) ++ [tag] → (tags'.map (·.1)).Nodup → Adds [x] s s' →
      Succeeds (k tags') s' ((tags'.map (·.1) ++ more).Nodup ∧ others ∧ s'.graph.Fresh rest) post) :
    Succeeds (do
      let tags ← checkTag c index tags tag name line
      first
      k tags) s
      ((tags.map (·.1) ++ tag :: more).Nodup ∧ (fits ∧ others) ∧ s.graph.Fresh (x :: rest)) post := by
  have hassoc : tags.map (·.1) ++ tag :: more = tags.map (·.1) ++ [tag] ++ more := by simp
  rw [hassoc]
  refine (checkTag_succeeds hn).bind (fun hok => hok.1.of_append_left) fun tags' s₁ _ hpost => ?_
  obtain ⟨htags, hnodup, rfl⟩ := hpost
  refine hfirst.bind (fun hok => ⟨hok.2.1.1, hok.2.2.of_append (l := [_])⟩) fun _ s₂ hfits hadd => ?_
  have hnext := hk tags' s₂ htags hnodup hadd
  rw [htags, hadd.fresh_iff] at hnext
  refine hnext.congr ?_ fun _ _ hpost => hpost
  simp only [hfits.1, true_and, List.singleton_append]

theorem modifyOneofs_succeeds (h : s.graph.Arena) :
    Succeeds (modifyOneofs index f) s True fun _ s' => Fills index f [] s s' where
  run _ := ⟨(), _, rfl⟩
  only hrun := by
    have hgraph := modifyOneofs_eq_ok hrun
    cases hrun
    refine ⟨trivial, ?_, ?_, rfl, rfl, rfl⟩
    · rw [hgraph]
      exact h.regroup
    · rw [hgraph, listing_regroup, List.append_nil]

/-! ## Messages -/

/-- The last group with more fields. -/
def joinLast (names : List String) (groups : List OneofGroup) : List OneofGroup :=
  groups.modify (groups.length - 1) fun g => { g with fields := g.fields ++ names }

theorem joinLast_joinLast (names names' : List String) :
    joinLast names' ∘ joinLast names = joinLast (names ++ names') := by
  funext groups
  simp only [joinLast, Function.comp_apply, List.length_modify, List.modify_modify_eq]
  congr 1
  funext g
  simp

theorem joinLast_nil : joinLast [] = id := by
  funext groups
  have hsame : (fun g : OneofGroup => { g with fields := g.fields ++ [] }) = id := by
    funext g
    simp
  rw [joinLast, hsame, List.modify_id]
  rfl

theorem joinLast_new (names : List String) (group : String) (doc : Option String) :
    joinLast names ∘ (· ++ [⟨group, doc, []⟩]) = (· ++ [⟨group, doc, names⟩]) := by
  funext groups
  simp only [joinLast, Function.comp_apply, modify_last, List.nil_append]

theorem addMembers_succeeds {group : String} : ∀ {fields : List Source.FieldDecl} {tags : Tags} {s : Loader},
    s.graph.Arena → s.graph.fullNames[index]? = some parent → (tags.map (·.1)).Nodup →
    Succeeds (addMembers c index group fields tags) s
      ((tags.map (·.1) ++ fields.map (·.tag)).Nodup ∧ (∀ f ∈ fields, hasReadablePacked f = true) ∧
        s.graph.Fresh (fields.map fun f => (fieldEntry c f (some group) none).under parent))
      fun tags' s' => tags'.map (·.1) = tags.map (·.1) ++ fields.map (·.tag) ∧ (tags'.map (·.1)).Nodup ∧
        Fills index (joinLast (fields.map (·.name)))
          (fields.map fun f => (fieldEntry c f (some group) none).under parent) s s'
  | [], tags, s, h, hp, hn => by
    have hadds : Adds [] s s := ⟨h, by simp, rfl, rfl, rfl⟩
    have hfills := hadds.fills index
    rw [← joinLast_nil] at hfills
    refine .same rfl ⟨?_, by simp, h.fresh_nil⟩ ⟨by simp, hn, hfills⟩
    simpa using hn
  | f :: rest, tags, s, h, hp, hn => by
    rw [addMembers, List.forall_mem_cons]
    refine checkedAdd_succeeds hn (addField_succeeds f _ none h hp) fun tags₁ s₁ htags hn₁ hadd => ?_
    refine (modifyOneofs_succeeds (f := joinLast [f.name]) hadd.arena).andThen fun _ s₂ hjoin => ?_
    have hjoined := (hadd.fills index).trans hjoin hp
    have hrest := @addMembers_succeeds group rest tags₁ s₂ hjoin.arena (hjoined.named hp) hn₁
    rw [hjoin.fresh_iff] at hrest
    refine hrest.congr Iff.rfl ?_
    rintro tags' s' ⟨htags', hn', hfills⟩
    refine ⟨by rw [htags', htags]; simp, hn', ?_⟩
    have hall := hjoined.trans hfills hp
    rw [Function.comp_id, joinLast_joinLast] at hall
    exact hall

theorem Adds.refl (h : s.graph.Arena) : Adds [] s s := ⟨h, by simp, rfl, rfl, rfl⟩

theorem Fills.refl (h : s.graph.Arena) : Fills index (· ++ []) [] s s := by
  have hid : (fun groups : List OneofGroup => groups ++ []) = id := by
    funext groups
    simp
  rw [hid]
  exact (Adds.refl h).fills index

theorem report_succeeds {message : String} (h : s.graph.Arena) :
    Succeeds (report message) s True fun _ s' => Adds [] s s' where
  run _ := ⟨(), _, rfl⟩
  only hrun := by
    cases hrun
    exact ⟨trivial, h, by simp, rfl, rfl, rfl⟩

theorem regroupListed_messageEntry {name : String} {line : Nat} (groups : List OneofGroup) :
    regroupListed (· ++ groups) ((messageEntry c name line []).under parent) =
      (messageEntry c name line groups).under parent := by
  simp only [regroupListed, Entry.under, messageEntry, List.nil_append]

mutual

theorem addMessage_succeeds : ∀ {index : Nat} {parent : String} {d : Decl} {s : Loader}, s.graph.Arena →
    s.graph.fullNames[index]? = some parent →
    Succeeds (addMessage c index d) s (MessageFits d ∧ s.graph.Fresh (messageContents c parent d))
      fun _ s' => Adds (messageContents c parent d) s s'
  | index, parent, .message name items line, s, h, hp => by
    rw [addMessage, MessageFits, messageContents]
    have hfresh := fresh_congr (g := s.graph) (l := (messageEntry c name line []).under parent ::
      itemsContents c (childName parent name) items) (m := (messageEntry c name line (groupsOf c items)).under
      parent :: itemsContents c (childName parent name) items) rfl
    rw [← hfresh]
    refine (add_succeeds (messageEntry c name line []) h hp).bind (fun hok => hok.2.of_append (l := [_]))
      fun i s₁ _ hadd => ?_
    obtain ⟨hadds, hnamed, hi⟩ := hadd
    have hitems : Succeeds (addItems c i items []) s₁ _ _ := addItems_succeeds hadds.arena hnamed List.nodup_nil
    refine hitems.congr ?_ fun _ s' hfills => ?_
    · rw [hadds.fresh_iff, and_assoc]
      exact Iff.rfl
    · refine ⟨hfills.arena, ?_, hfills.files.trans hadds.files, hfills.loaded.trans hadds.loaded,
        hfills.loading.trans hadds.loading⟩
      rw [hfills.listing, hadds.listing, hi, modify_append_self, regroupListed_messageEntry, List.append_assoc]
      exact congrArg _ (List.singleton_append)
  | _, _, .dialect _, s, h, _ | _, _, .edition _, s, h, _ | _, _, .package _, s, h, _ | _, _, .imports _, s, h, _
  | _, _, .option _ _, s, h, _ | _, _, .field _, s, h, _ | _, _, .map _, s, h, _ | _, _, .oneof _, s, h, _
  | _, _, .enum _, s, h, _ | _, _, .service _, s, h, _ | _, _, .extend _, s, h, _ => by
    have hok : s.graph.Fresh [] := h.fresh_nil
    simp only [addMessage, MessageFits, messageContents]
    exact .same rfl ⟨trivial, hok⟩ (.refl h)

theorem addItems_succeeds : ∀ {index : Nat} {parent : String} {items : List Decl} {tags : Tags} {s : Loader},
    s.graph.Arena → s.graph.fullNames[index]? = some parent → (tags.map (·.1)).Nodup →
    Succeeds (addItems c index items tags) s
      ((tags.map (·.1) ++ tagsOf items).Nodup ∧ ItemsFit items ∧ s.graph.Fresh (itemsContents c parent items))
      fun _ s' => Fills index (· ++ groupsOf c items) (itemsContents c parent items) s s'
  | index, parent, [], tags, s, h, hp, hn => by
    have hfresh : s.graph.Fresh [] := h.fresh_nil
    simp only [addItems, tagsOf, ItemsFit, itemsContents, groupsOf]
    exact .same rfl ⟨by rwa [List.append_nil], trivial, hfresh⟩ (.refl h)
  | index, parent, .field f :: rest, tags, s, h, hp, hn => by
    simp only [addItems, pure_bind, tagsOf, ItemsFit, itemsContents, groupsOf]
    refine checkedAdd_succeeds hn (addField_succeeds f none none h hp) fun tags' s' htags hn' hadd => ?_
    refine (addItems_succeeds hadd.arena (hadd.named hp) hn').congr Iff.rfl fun _ _ hfills => ?_
    exact (hadd.fills index).trans hfills hp
  | index, parent, .map m :: rest, tags, s, h, hp, hn => by
    simp only [addItems, pure_bind, tagsOf, ItemsFit, itemsContents, groupsOf]
    rw [← true_and (ItemsFit rest)]
    refine checkedAdd_succeeds hn (addOne_succeeds (mapEntry c m) h hp) fun tags' s' htags hn' hadd => ?_
    refine (addItems_succeeds hadd.arena (hadd.named hp) hn').congr Iff.rfl fun _ _ hfills => ?_
    exact (hadd.fills index).trans hfills hp
  | index, parent, .oneof o :: rest, tags, s, h, hp, hn => by
    simp only [addItems, tagsOf, ItemsFit, itemsContents, groupsOf]
    refine (modifyOneofs_succeeds h).andThen fun _ s₁ hopen => ?_
    rw [← List.append_assoc]
    refine (addMembers_succeeds hopen.arena (hopen.named hp) hn).bind (fun hok => ?_) fun tags₁ s₂ hfits hmembers => ?_
    · rw [hopen.fresh_iff, List.nil_append]
      exact ⟨hok.1.of_append_left, hok.2.1.1, hok.2.2.of_append⟩
    · obtain ⟨htags, hn₁, hfills⟩ := hmembers
      have hgroup := hopen.trans hfills hp
      rw [joinLast_new, List.nil_append] at hgroup
      have hrest : Succeeds (addItems c index rest tags₁) s₂ _ _ :=
        addItems_succeeds hgroup.arena (hgroup.named hp) hn₁
      rw [htags, hgroup.fresh_iff] at hrest
      refine hrest.congr ?_ fun _ _ hrest => ?_
      · simp only [and_iff_right hfits.2.1]
      have hall := hgroup.trans hrest hp
      have hgroups : (· ++ groupsOf c rest) ∘ (· ++ [⟨o.name, c.docs.docFor o.line, o.fields.map (·.name)⟩]) =
          (· ++ ⟨o.name, c.docs.docFor o.line, o.fields.map (·.name)⟩ :: groupsOf c rest) := by
        funext groups
        simp
      rwa [hgroups] at hall
  | index, parent, .message name items line :: rest, tags, s, h, hp, hn => by
    simp only [addItems, pure_bind, tagsOf, ItemsFit, itemsContents, groupsOf]
    refine (addMessage_succeeds h hp).bind (fun hok => ⟨hok.2.1.1, hok.2.2.of_append⟩) fun _ s₁ hfirst hadd => ?_
    have hrest : Succeeds (addItems c index rest tags) s₁ _ _ :=
      addItems_succeeds hadd.arena (hadd.named hp) hn
    rw [hadd.fresh_iff] at hrest
    refine hrest.congr ?_ fun _ _ hfills => (hadd.fills index).trans hfills hp
    simp only [hfirst.1, true_and]
  | index, parent, .enum e :: rest, tags, s, h, hp, hn => by
    simp only [addItems, pure_bind, tagsOf, ItemsFit, itemsContents, groupsOf]
    refine (add_succeeds (enumEntry c e) h hp).discard.bind (fun hok => hok.2.2.of_append (l := [_]))
      fun _ s₁ _ hadd => ?_
    obtain ⟨i, hadd, -⟩ := hadd
    have hrest : Succeeds (addItems c index rest tags) s₁ _ _ :=
      addItems_succeeds hadd.arena (hadd.named hp) hn
    rw [hadd.fresh_iff] at hrest
    exact hrest.congr Iff.rfl fun _ _ hfills => (hadd.fills index).trans hfills hp
  | index, parent, .extend e :: rest, tags, s, h, hp, hn => by
    simp only [addItems, pure_bind, tagsOf, ItemsFit, itemsContents, groupsOf]
    have hname : Succeeds (fullNameOf index) s True fun _ s' => s' = s := .same rfl trivial rfl
    refine hname.andThen fun name s₁ hsame => ?_
    subst hsame
    refine (report_succeeds h).andThen fun _ s₂ hadd => ?_
    have hrest : Succeeds (addItems c index rest tags) s₂ _ _ :=
      addItems_succeeds hadd.arena (hadd.named hp) hn
    rw [hadd.fresh_iff] at hrest
    exact hrest.congr Iff.rfl fun _ _ hfills => (hadd.fills index).trans hfills hp
  | index, parent, .dialect _ :: rest, tags, s, h, hp, hn | index, parent, .edition _ :: rest, tags, s, h, hp, hn
  | index, parent, .package _ :: rest, tags, s, h, hp, hn | index, parent, .imports _ :: rest, tags, s, h, hp, hn
  | index, parent, .option _ _ :: rest, tags, s, h, hp, hn
  | index, parent, .service _ :: rest, tags, s, h, hp, hn => by
    simp only [addItems, pure_bind, tagsOf, ItemsFit, itemsContents, groupsOf]
    exact addItems_succeeds h hp hn

end

/-! ## Declarations of a file -/

/-- A loop of which every round adds to the node `index`. -/
theorem forIn_succeeds {β : Type} {body : β → Load Unit} {ok : β → Prop} {news : β → List Listed}
    (hbody : ∀ x {s : Loader}, s.graph.Arena → s.graph.fullNames[index]? = some parent →
      Succeeds (body x) s (ok x ∧ s.graph.Fresh (news x)) fun _ s' => Adds (news x) s s') :
    ∀ (xs : List β) {s : Loader}, s.graph.Arena → s.graph.fullNames[index]? = some parent →
      Succeeds (forIn xs () fun x _ => do body x; pure (.yield ())) s
        ((∀ x ∈ xs, ok x) ∧ s.graph.Fresh (xs.flatMap news)) fun _ s' => Adds (xs.flatMap news) s s'
  | [], s, h, hp => .same rfl ⟨by simp, h.fresh_nil⟩ (.refl h)
  | x :: xs, s, h, hp => by
    rw [List.forIn_cons, List.flatMap_cons, List.forall_mem_cons]
    refine (hbody x h hp).done.bind (fun hok => ⟨hok.1.1, hok.2.of_append⟩) fun r s₁ hfirst hpost => ?_
    obtain ⟨rfl, hadd⟩ := hpost
    have hrest := forIn_succeeds hbody xs hadd.arena (hadd.named hp)
    rw [hadd.fresh_iff] at hrest
    refine hrest.congr ?_ fun _ _ hrest => hadd.trans hrest
    simp only [hfirst.1, true_and]

theorem addService_succeeds {d : Source.ServiceDecl} (h : s.graph.Arena)
    (hp : s.graph.fullNames[index]? = some parent) :
    Succeeds (addService c d index) s (s.graph.Fresh (declContents c parent (.service d)))
      fun _ s' => Adds (declContents c parent (.service d)) s s' := by
  rw [addService, declContents]
  refine (add_succeeds (serviceEntry c d) h hp).bind (fun hok => hok.of_append (l := [_])) fun i s₁ _ hadd => ?_
  obtain ⟨hadd, hi, -⟩ := hadd
  have hrpcs := forIn_succeeds (fun rpc _ hs hps => addOne_succeeds (rpcEntry c rpc) hs hps) d.rpcs hadd.arena hi
  rw [← List.map_eq_flatMap, hadd.fresh_iff] at hrpcs
  exact hrpcs.done.congr (by simp [serviceEntry]) fun _ _ hpost => hadd.trans hpost.2

/-- Adds one declaration of a file to its package. -/
def addDeclaration (c : Context) (space : Nat) : Decl → Load Unit
  | .message name items line => addMessage c space (.message name items line)
  | .enum e => discard (add (enumEntry c e) space)
  | .service d => addService c d space
  | .extend e => forIn e.fields () fun f _ => do
    addField c f none (some e.extendee) space
    pure (.yield ())
  | _ => pure ()

theorem addDeclaration_succeeds (d : Decl) (h : s.graph.Arena) (hp : s.graph.fullNames[index]? = some parent) :
    Succeeds (addDeclaration c index d) s (DeclFits d ∧ s.graph.Fresh (declContents c parent d))
      fun _ s' => Adds (declContents c parent d) s s' := by
  cases d with
  | message name items line =>
    rw [addDeclaration, DeclFits, declContents]
    exact addMessage_succeeds h hp
  | enum e =>
    simp only [addDeclaration, declContents, DeclFits]
    exact addOne_succeeds (enumEntry c e) h hp
  | service d =>
    simp only [addDeclaration, DeclFits, true_and]
    exact addService_succeeds h hp
  | extend e =>
    have hfields := forIn_succeeds (fun f _ hs hps =>
      addField_succeeds (c := c) f none (some e.extendee) hs hps) e.fields h hp
    simp only [addDeclaration, declContents, DeclFits, List.map_eq_flatMap]
    exact hfields
  | _ =>
    simp only [addDeclaration, declContents, DeclFits]
    exact .same rfl ⟨trivial, h.fresh_nil⟩ (.refl h)

theorem addDeclarations_eq {package : String} {decls : List Decl} {g' : Graph} {space : Nat}
    (h : s.graph.package package = (g', .ok space)) :
    addDeclarations c package decls s = (do
      for d in decls do
        addDeclaration c space d : Load Unit) { s with graph := g' } := by
  have hstep : (fun d (_ : PUnit) => addDeclaration c space d >>= fun _ => pure (ForInStep.yield PUnit.unit)) =
      fun d _ => match d with
        | .message .. => addMessage c space d >>= fun _ => pure (ForInStep.yield PUnit.unit)
        | .enum e => discard (add (enumEntry c e) space) >>= fun _ => pure (ForInStep.yield PUnit.unit)
        | .service s => addService c s space >>= fun _ => pure (ForInStep.yield PUnit.unit)
        | .extend e => (forIn e.fields PUnit.unit fun f _ =>
            addField c f none (some e.extendee) space >>= fun _ =>
              pure (ForInStep.yield PUnit.unit)) >>= fun _ => pure (ForInStep.yield PUnit.unit)
        | _ => pure (ForInStep.yield PUnit.unit) := by
    funext d _
    cases d <;> rfl
  rw [hstep]
  unfold addDeclarations
  rw [bind_of_ok (show (get : Load Loader) s = .ok s s from rfl), h]
  rfl

theorem package_of_addDeclarations {package : String} {decls : List Decl} {u : Unit}
    (h : addDeclarations c package decls s = .ok u s') :
    ∃ g' space, s.graph.package package = (g', .ok space) := by
  unfold addDeclarations at h
  obtain ⟨_, s₁, hget, h⟩ := bind_eq_ok.mp h
  cases hget
  generalize hp : s.graph.package package = r at h
  obtain ⟨g', result⟩ := r
  obtain ⟨_, s₁, hset, h⟩ := bind_eq_ok.mp h
  cases hset
  cases result with
  | error e => cases h
  | ok space => exact ⟨g', space, rfl⟩

end Load
end ProtoBind.Schema
