/-
The references that are noted while code is emitted.

An emitter of a well-formed graph ends in one of three ways: it runs out of
aliases for imports, it stops at a map whose keys are no scalars or at a number
of too many digits, or it gives code and has noted a fixed list of unresolved
references (`Emits`). For a declaration (`emitDeclaration_emits`) these are the
references of its fields and methods, those of nested messages after those of
the message around them.
-/
import Mathlib.Tactic.Tauto
import ProtoBind.Codegen.Assembly
import ProtoBind.Proofs.Results
import ProtoBind.Proofs.Schema.Filed
import ProtoBind.Proofs.Schema.Forest

namespace ProtoBind.Codegen

open Schema Schema.Graph

/-- No two imports share an alias, and every alias begins with an underscore. -/
structure ImportTable.Sound (t : ImportTable) : Prop where
  nodup : t.names.Nodup
  underscored : ∀ name ∈ t.names, name.toList.head? = some '_'

theorem ImportTable.empty_sound (maxSuffix : Int) : (ImportTable.empty maxSuffix).Sound := ⟨List.nodup_nil, nofun⟩

/-- How emission ends from a draft: in code, with these references noted and nothing to stop at, or in one of the
faults to stop with, or without an alias. -/
inductive Ended {α : Type} (d : Draft) (notes : List Unresolved) (stops : List AssemblyFault) :
    EStateM.Result AssemblyFault Draft α → Prop
  | given {a : α} {d' : Draft} : d'.unresolved = d.unresolved ++ notes → stops = [] →
    (d.imports.Sound → d'.imports.Sound) → Ended d notes stops (.ok a d')
  | stopped {e : AssemblyFault} {d' : Draft} : e ∈ stops → Ended d notes stops (.error e d')
  | aliasTaken {c : AliasCollision} {d' : Draft} : Ended d notes stops (.error (.aliasTaken c) d')

/-- Notes exactly these references, if there is none of these faults to stop with and there are aliases. -/
def Emits {α : Type} (x : Emit α) (notes : List Unresolved) (stops : List AssemblyFault) : Prop :=
  ∀ d, Ended d notes stops (x d)

namespace Emits

variable {α β γ : Type} {notes more : List Unresolved} {stops others : List AssemblyFault}

theorem pure (a : α) : Emits (Pure.pure a) [] [] := fun _ => .given (List.append_nil _).symm rfl id

/-- The same faults to stop with, listed otherwise. -/
theorem congr {x : Emit α} (hx : Emits x notes stops) (h : ∀ e, e ∈ stops ↔ e ∈ others) : Emits x notes others := by
  intro d
  have hx := hx d
  cases hr : x d with
  | ok a d₁ =>
    rw [hr] at hx
    obtain ⟨hd, rfl, hs⟩ := hx
    exact .given hd (List.eq_nil_iff_forall_not_mem.mpr fun e he => List.not_mem_nil ((h e).mpr he)) hs
  | error e d₁ =>
    rw [hr] at hx
    cases hx with
    | stopped he => exact .stopped ((h e).mp he)
    | aliasTaken => exact .aliasTaken

/-- What follows may rely on what the first part gives. -/
theorem bindWith {P : α → Prop} {x : Emit α} {f : α → Emit β} (hx : Emits x notes stops)
    (hp : ∀ {d a d'}, x d = .ok a d' → P a) (hf : ∀ a, P a → Emits (f a) more others) :
    Emits (x >>= f) (notes ++ more) (stops ++ others) := by
  intro d
  have hx := hx d
  have hbind : (x >>= f) d = EStateM.bind x f d := rfl
  rw [hbind, EStateM.bind]
  cases hr : x d with
  | ok a d₁ =>
    rw [hr] at hx
    obtain ⟨hd₁, rfl, hs₁⟩ := hx
    rw [List.nil_append]
    dsimp only
    have hf := hf a (hp hr) d₁
    cases hr₂ : f a d₁ with
    | ok b d₂ =>
      rw [hr₂] at hf
      obtain ⟨hd₂, hstops, hs₂⟩ := hf
      exact .given (by rw [hd₂, hd₁, List.append_assoc]) hstops (hs₂ ∘ hs₁)
    | error e d₂ =>
      rw [hr₂] at hf
      cases hf with
      | stopped he => exact .stopped he
      | aliasTaken => exact .aliasTaken
  | error e d₁ =>
    rw [hr] at hx
    cases hx with
    | stopped he => exact .stopped (List.mem_append_left _ he)
    | aliasTaken => exact .aliasTaken

theorem bind {x : Emit α} {f : α → Emit β} (hx : Emits x notes stops) (hf : ∀ a, Emits (f a) more others) :
    Emits (x >>= f) (notes ++ more) (stops ++ others) :=
  hx.bindWith (P := fun _ => True) (fun _ => trivial) fun a _ => hf a

/-- What is computed before and notes nothing. -/
theorem after {x : Emit α} {f : α → Emit β} (hx : Emits x [] []) (hf : ∀ a, Emits (f a) notes stops) :
    Emits (x >>= f) notes stops :=
  hx.bind hf

/-- What is computed behind and may stop, but notes nothing. -/
theorem andStops {x : Emit α} {f : α → Emit β} (hx : Emits x notes stops) (hf : ∀ a, Emits (f a) [] others) :
    Emits (x >>= f) notes (stops ++ others) := by
  have h := hx.bind hf
  rwa [List.append_nil] at h

/-- What is computed behind and notes nothing. -/
theorem before {x : Emit α} {f : α → Emit β} (hx : Emits x notes stops) (hf : ∀ a, Emits (f a) [] []) :
    Emits (x >>= f) notes stops := by
  have h := hx.andStops hf
  rwa [List.append_nil] at h

theorem map {x : Emit α} (f : α → β) (hx : Emits x notes stops) : Emits (x >>= fun a => Pure.pure (f a)) notes stops :=
  hx.before fun a => .pure (f a)

section Lists

variable {news : γ → List Unresolved} {bad : γ → List AssemblyFault}

theorem mapM {f : γ → Emit β} : ∀ {xs : List γ}, (∀ x ∈ xs, Emits (f x) (news x) (bad x)) →
    Emits (xs.mapM f) (xs.flatMap news) (xs.flatMap bad)
  | [], _ => by
    rw [List.mapM_nil]
    exact .pure _
  | x :: xs, h => by
    rw [List.mapM_cons, List.flatMap_cons, List.flatMap_cons]
    exact (h x List.mem_cons_self).bind fun y => (mapM fun z hz => h z (List.mem_cons_of_mem _ hz)).map (y :: ·)

theorem filterMapM {f : γ → Emit (Option β)} : ∀ {xs : List γ}, (∀ x ∈ xs, Emits (f x) (news x) (bad x)) →
    Emits (xs.filterMapM f) (xs.flatMap news) (xs.flatMap bad)
  | [], _ => by
    rw [List.filterMapM_nil]
    exact .pure _
  | x :: xs, h => by
    have hrest := filterMapM fun z hz => h z (List.mem_cons_of_mem x hz)
    rw [List.filterMapM_cons, List.flatMap_cons, List.flatMap_cons]
    refine (h x List.mem_cons_self).bind fun y => ?_
    cases y with
    | none => exact hrest
    | some y => exact hrest.map (y :: ·)

theorem foldlM {f : α → γ → Emit α} : ∀ {xs : List γ} {a : α}, (∀ x ∈ xs, ∀ a, Emits (f a x) (news x) (bad x)) →
    Emits (xs.foldlM f a) (xs.flatMap news) (xs.flatMap bad)
  | [], a, _ => by
    rw [List.foldlM_nil]
    exact .pure _
  | x :: xs, a, h => by
    rw [List.foldlM_cons, List.flatMap_cons, List.flatMap_cons]
    exact (h x List.mem_cons_self a).bind fun b => foldlM fun z hz => h z (List.mem_cons_of_mem _ hz)

end Lists

end Emits

/-! ## Aliases and references -/

theorem ImportTable.head?_candidate (base : String) : (candidate base).toList.head? = some '_' := by
  unfold candidate
  split
  next h => rw [h, List.head?_cons]
  next => simp

/-- A free alias is a new one, and begins as the candidate does. -/
theorem ImportTable.freeAlias?_eq_some {taken : List String} {maxSuffix : Int} {name found : String}
    (h : freeAlias? taken maxSuffix name = some found) : found ∉ taken ∧ ∃ suffix, found = name ++ suffix := by
  unfold freeAlias? at h
  split at h
  next =>
    obtain ⟨k, hk, rfl⟩ := Option.map_eq_some_iff.mp h
    have hfree := List.find?_some hk
    rw [Bool.and_eq_true, Bool.not_eq_true', List.contains_eq_mem, decide_eq_false_iff_not] at hfree
    exact ⟨hfree.2, _, rfl⟩
  next hfree =>
    obtain rfl := Option.some.inj h
    refine ⟨by simpa using hfree, "", ?_⟩
    rw [String.append_empty]

/-- Importing one more target. -/
theorem ImportTable.Sound.use {t t' : ImportTable} (h : t.Sound) {target : ImportTarget} {module base name : String}
    (hu : t.use target module base = .ok (name, t')) : t'.Sound := by
  unfold ImportTable.use at hu
  split at hu
  next =>
    cases hu
    exact h
  next =>
    split at hu
    next found hfree =>
      cases hu
      obtain ⟨hnew, suffix, rfl⟩ := freeAlias?_eq_some hfree
      have hnames : ({ t with entries := t.entries ++ [⟨target, module, candidate base ++ suffix⟩] } :
          ImportTable).names = t.names ++ [candidate base ++ suffix] := by
        rw [names, List.map_append]
        rfl
      refine ⟨?_, fun x hx => ?_⟩
      · rw [hnames]
        exact List.nodup_append.mpr ⟨h.nodup, List.nodup_singleton _, fun a ha b hb =>
          List.mem_singleton.mp hb ▸ ne_of_mem_of_not_mem ha hnew⟩
      · rw [hnames, List.mem_append, List.mem_singleton] at hx
        rcases hx with hx | rfl
        · exact h.underscored x hx
        · rw [String.toList_append, List.head?_append, head?_candidate, Option.some_or]
    next => cases hu

theorem importWith_emits {f : ImportTable → Except AliasCollision (String × ImportTable)}
    (hf : ∀ {t name t'}, t.Sound → f t = .ok (name, t') → t'.Sound) : Emits (Emit.importWith f) [] [] := by
  intro d
  unfold Emit.importWith
  rw [bind_of_ok (show (get : Emit Draft) d = .ok d d from rfl)]
  cases hr : f d.imports with
  | ok r => exact .given (List.append_nil _).symm rfl fun hs => @hf _ r.1 _ hs hr
  | error c => exact .aliasTaken

/-- The references of a body. -/
def references : Body → List Reference
  | .field f =>
    match f.type.leaf with
    | .reference r => [r]
    | .scalar _ => []
  | .method m => [m.request, m.response]
  | _ => []

/-- The note about a reference, if it has no target. -/
def noteOf (n : Node) (r : Reference) : List Unresolved := if r.target.isNone then [⟨n.fullName, r.name⟩] else []

/-- The unresolved references of a node. -/
def notes (n : Node) : List Unresolved := (missing n.body).map (Unresolved.mk n.fullName)

theorem notes_eq_flatMap (n : Node) : notes n = (references n.body).flatMap (noteOf n) := by
  unfold notes references missing noteOf
  cases n.body with
  | field f =>
    dsimp only
    cases f.type.leaf with
    | scalar k => rfl
    | reference r =>
      obtain ⟨name, target⟩ := r
      cases target <;> rfl
  | method m =>
    simp only [List.filterMap_cons, List.filterMap_nil, List.flatMap_cons, List.flatMap_nil, List.append_nil]
    cases m.request.target <;> cases m.response.target <;> rfl
  | _ => rfl

theorem notes_eq_nil {n : Node} (hf : n.kind ≠ .field) (hm : n.kind ≠ .method) : notes n = [] := by
  unfold Node.kind at hf hm
  unfold notes missing
  cases hb : n.body with
  | field f => exact absurd (congrArg Body.kind hb) hf
  | method m => exact absurd (congrArg Body.kind hb) hm
  | _ => rfl

/-- The fault of a type that is a map with keys of no scalar kind. -/
def keyStops (t : ValueType) : List AssemblyFault := if t.arity?.isNone then [.badKey t.key] else []

/-- The faults of the numbers that are too long to be written. -/
def numberStops (numbers : List Int) : List AssemblyFault := (numbers.filter (!isShort ·)).map .unwritable

/-- What keeps a node from being written: the key of a field of a message, its tag, the numbers of an enum. -/
def stops (n : Node) : List AssemblyFault :=
  match n.body with
  | .field f => if f.extendee.isNone then keyStops f.type ++ numberStops [f.tag] else []
  | .enum values => numberStops (values.map (·.number))
  | _ => []

theorem mem_numberStops {numbers : List Int} {e : AssemblyFault} :
    e ∈ numberStops numbers ↔ ∃ k ∈ numbers, isShort k = false ∧ e = .unwritable k := by
  simp only [numberStops, List.mem_map, List.mem_filter, Bool.not_eq_true', and_assoc, eq_comm (a := e)]

theorem stops_eq_nil {n : Node} (hf : n.kind ≠ .field) (he : n.kind ≠ .enum) : stops n = [] := by
  unfold Node.kind at hf he
  unfold stops
  cases hb : n.body with
  | field f => exact absurd (congrArg Body.kind hb) hf
  | enum values => exact absurd (congrArg Body.kind hb) he
  | _ => rfl

/-- A graph whose references can be written: what they mean has a file. -/
structure Referable (g : Graph) : Prop extends g.Shaped where
  filed : ∀ {n r t}, n ∈ g.nodes → r ∈ references n.body → r.target.bind g.node? = some t → t.file ≠ none

variable {g : Graph} {s : Site} {o : Options} {n : Node}

theorem expression_emits {target : Node} (path : String) (h : target.file ≠ none) :
    Emits (s.expression target path) [] [] := by
  unfold Site.expression
  split
  · exact .pure _
  · cases hf : target.file with
    | none => exact absurd hf h
    | some f => exact (importWith_emits fun ht hu => ht.use hu).map (· ++ "." ++ path)

theorem targetOf_emits (s : Site) (n : Node) (r : Reference) : Emits (s.targetOf n r) (noteOf n r) [] := by
  unfold Site.targetOf noteOf
  cases r.target with
  | some i => exact .pure _
  | none => exact fun d => .given rfl rfl id

/-- What is emitted for the target of a reference notes nothing more. -/
theorem target_emits {α : Type} {r : Reference} {f : Option Node → Emit α} (hnone : Emits (f none) [] [])
    (hsome : ∀ t, r.target.bind s.graph.node? = some t → Emits (f (some t)) [] []) :
    Emits (s.targetOf n r >>= f) (noteOf n r) [] := by
  cases hr : r.target with
  | none =>
    have hnote : s.targetOf n r = (do
        modify fun d => { d with unresolved := d.unresolved ++ [⟨n.fullName, r.name⟩] }
        return none) := by
      unfold Site.targetOf
      rw [hr]
    have hmodify : Emits (modify fun d : Draft => { d with unresolved := d.unresolved ++ [⟨n.fullName, r.name⟩] })
        [⟨n.fullName, r.name⟩] [] := fun d => .given rfl rfl id
    rw [hnote, bind_assoc, noteOf, hr]
    exact hmodify.before fun _ => hnone
  | some i =>
    have hpure : s.targetOf n r = pure (s.graph.node? i) := by
      unfold Site.targetOf
      rw [hr]
    rw [hpure, pure_bind, noteOf, hr]
    cases ht : s.graph.node? i with
    | none => exact hnone
    | some t => exact hsome t (by rw [hr]; exact ht)

/-! ## Messages -/

theorem emitElement_emits (hg : Referable s.graph) (hn : n ∈ s.graph.nodes) {f : Field} (hf : n.body = .field f) :
    Emits (emitElement s n f.type.leaf) (notes n) [] := by
  rw [notes_eq_flatMap, hf, references]
  cases hl : f.type.leaf with
  | scalar k => exact .pure _
  | reference r =>
    rw [List.flatMap_singleton]
    refine target_emits (.pure _) fun t ht => ?_
    have hfile : t.file ≠ none := hg.filed hn (by rw [hf, references, hl]; exact List.mem_singleton_self r) ht
    refine (expression_emits _ hfile).after fun ref => ?_
    split
    · exact .pure _
    · exact (expression_emits _ hfile).map _

theorem arityOf_emits (t : ValueType) : Emits (arityOf t) [] (keyStops t) := by
  unfold arityOf keyStops
  cases t.arity? with
  | none => exact fun _ => .stopped (List.mem_singleton_self _)
  | some a => exact .pure a

theorem checkNumbers_emits (numbers : List Int) : Emits (checkNumbers numbers) [] (numberStops numbers) := by
  unfold checkNumbers numberStops
  cases hfind : numbers.find? (!isShort ·) with
  | none =>
    have hshort : numbers.filter (!isShort ·) = [] :=
      List.filter_eq_nil_iff.mpr fun n hn => List.find?_eq_none.mp hfind n hn
    rw [hshort]
    exact .pure _
  | some n =>
    have hlong : n ∈ numbers.filter (!isShort ·) :=
      List.mem_filter.mpr ⟨List.mem_of_find?_eq_some hfind, by simpa using List.find?_some hfind⟩
    exact fun _ => .stopped (List.mem_map_of_mem hlong)

/-- What stands in a message and is no field refers to nothing. -/
theorem Referable.notes_of_field? (hg : Referable g) (hn : n ∈ g.nodes) (hk : n.kind = .message) {c : Node}
    (hc : c ∈ g.childrenOf n) (hf : c.field? = none) : notes c = [] := by
  obtain ⟨hcn, hp⟩ := (hg.mem_childrenOf hn).mp hc
  have hplaced := hg.placed hcn hn hp
  rw [hk] at hplaced
  unfold notes missing
  cases hb : c.body with
  | field f =>
    rw [Node.field?_eq_some_iff.mpr hb] at hf
    cases hf
  | method m =>
    rw [hb] at hplaced
    exact hplaced.elim
  | _ => rfl

theorem flatMap_fields {β : Type} {l : List Node} {h : Node → List β} (hnone : ∀ c ∈ l, c.field? = none → h c = []) :
    (l.filterMap fun c => c.field?.map fun f => (c, f)).flatMap (fun x => h x.1) = l.flatMap h := by
  induction l with
  | nil => rfl
  | cons c l ih =>
    have ih := ih fun c hc => hnone c (List.mem_cons_of_mem _ hc)
    cases hf : c.field? with
    | none => simp [hf, ih, hnone c List.mem_cons_self hf]
    | some f => simp [hf, ih]

/-- The fields of a message are nodes, and extend nothing. -/
theorem Referable.mem_fields (hg : Referable g) (hn : n ∈ g.nodes) (hk : n.kind = .message) {x : Node × Field}
    (hx : x ∈ (g.childrenOf n).filterMap fun c => c.field?.map fun f => (c, f)) :
    x.1 ∈ g.nodes ∧ x.1.body = .field x.2 ∧ x.2.extendee = none := by
  obtain ⟨c, hc, hx⟩ := List.mem_filterMap.mp hx
  obtain ⟨f, hf, rfl⟩ := Option.map_eq_some_iff.mp hx
  obtain ⟨hcn, hp⟩ := (hg.mem_childrenOf hn).mp hc
  have hplaced := hg.placed hcn hn hp
  rw [hk, Node.field?_eq_some_iff.mp hf] at hplaced
  exact ⟨hcn, Node.field?_eq_some_iff.mp hf, hplaced⟩

/-- The fields of a node with their nodes. -/
def fieldsIn (g : Graph) (n : Node) : List (Node × Field) :=
  (g.childrenOf n).filterMap fun c => c.field?.map fun f => (c, f)

theorem planFields_emits (hg : Referable s.graph) (hn : n ∈ s.graph.nodes) (hk : n.kind = .message) :
    Emits (planFields s n) ((s.graph.childrenOf n).flatMap notes)
      ((fieldsIn s.graph n).flatMap fun x => keyStops x.2.type) := by
  have helements := Emits.mapM fun x hx =>
    emitElement_emits hg (hg.mem_fields hn hk hx).1 (hg.mem_fields hn hk hx).2.1
  have harities := Emits.mapM fun (x : Node × Field) (_ : x ∈ fieldsIn s.graph n) => arityOf_emits x.2.type
  rw [flatMap_fields fun c hc hf => hg.notes_of_field? hn hk hc hf, List.flatMap_eq_nil_iff.mpr fun _ _ => rfl]
    at helements
  rw [List.flatMap_eq_nil_iff.mpr fun _ _ => rfl] at harities
  rw [← List.append_nil ((s.graph.childrenOf n).flatMap notes)]
  exact helements.bind fun elements => harities.map _

/-- Each field has a plan, with its tag. -/
theorem planFields_tags {d d' : Draft} {plans : List FieldPlan} (h : planFields s n d = .ok plans d') :
    plans.map (·.tag) = (fieldsIn s.graph n).map (·.2.tag) := by
  obtain ⟨elements, d₁, helements, h⟩ := bind_eq_ok.mp h
  obtain ⟨arities, harities, rfl⟩ := map_eq_ok.mp h
  have hlength : (fieldsIn s.graph n).length ≤ (elements.zip arities).length := by
    rw [List.length_zip, length_of_mapM helements, length_of_mapM harities, Nat.min_self]
    exact Nat.le_refl _
  rw [List.map_map, ← List.map_fst_zip hlength, List.map_map]
  rfl

theorem mem_fieldsIn {x : Node × Field} : x ∈ fieldsIn g n ↔ x.1 ∈ g.childrenOf n ∧ x.1.body = .field x.2 := by
  simp only [fieldsIn, List.mem_filterMap, Option.map_eq_some_iff, Node.field?_eq_some_iff]
  constructor
  · rintro ⟨c, hc, f, hf, rfl⟩
    exact ⟨hc, hf⟩
  · rintro ⟨hc, hf⟩
    exact ⟨x.1, hc, x.2, hf, rfl⟩

/-- The faults of what stands in a message are those of its fields and enums. -/
theorem mem_childStops (hg : Referable g) (hn : n ∈ g.nodes) (hk : n.kind = .message) {e : AssemblyFault} :
    e ∈ (g.childrenOf n).flatMap stops ↔ e ∈ ((fieldsIn g n).flatMap fun x => keyStops x.2.type) ∨
      e ∈ (g.childrenOfKind n .enum).flatMap stops ∨ e ∈ numberStops ((fieldsIn g n).map (·.2.tag)) := by
  have hfield {x : Node × Field} (hx : x ∈ fieldsIn g n) :
      stops x.1 = keyStops x.2.type ++ numberStops [x.2.tag] := by
    obtain ⟨-, hb, hextendee⟩ := hg.mem_fields hn hk hx
    rw [stops, hb]
    simp [hextendee]
  constructor
  · intro he
    obtain ⟨c, hc, he⟩ := List.mem_flatMap.mp he
    cases hb : c.body with
    | field f =>
      have hx : (c, f) ∈ fieldsIn g n := mem_fieldsIn.mpr ⟨hc, hb⟩
      rw [hfield hx, List.mem_append] at he
      rcases he with he | he
      · exact .inl (List.mem_flatMap.mpr ⟨(c, f), hx, he⟩)
      · obtain ⟨k, hk, hlong⟩ := mem_numberStops.mp he
        obtain rfl := List.mem_singleton.mp hk
        exact .inr (.inr (mem_numberStops.mpr ⟨f.tag, List.mem_map_of_mem hx, hlong⟩))
    | enum values =>
      have hkind : c.kind = .enum := congrArg Body.kind hb
      exact .inr (.inl (List.mem_flatMap.mpr ⟨c, List.mem_filter.mpr ⟨hc, beq_iff_eq.mpr hkind⟩, he⟩))
    | _ =>
      rw [stops, hb] at he
      cases he
  · rintro (he | he | he)
    · obtain ⟨x, hx, he⟩ := List.mem_flatMap.mp he
      exact List.mem_flatMap.mpr ⟨x.1, (mem_fieldsIn.mp hx).1, hfield hx ▸ List.mem_append_left _ he⟩
    · obtain ⟨c, hc, he⟩ := List.mem_flatMap.mp he
      exact List.mem_flatMap.mpr ⟨c, List.mem_of_mem_filter hc, he⟩
    · obtain ⟨k, hk, hlong⟩ := mem_numberStops.mp he
      obtain ⟨x, hx, rfl⟩ := List.mem_map.mp hk
      refine List.mem_flatMap.mpr ⟨x.1, (mem_fieldsIn.mp hx).1, hfield hx ▸ List.mem_append_right _ ?_⟩
      exact mem_numberStops.mpr ⟨_, List.mem_singleton_self _, hlong⟩

theorem emitEach_emits {f : Node → Emit Emitted} {news : Node → List Unresolved} {bad : Node → List AssemblyFault}
    {ns : List Node} (h : ∀ n ∈ ns, Emits (f n) (news n) (bad n)) :
    Emits (emitEach f ns) (ns.flatMap news) (ns.flatMap bad) :=
  .foldlM fun n hn _ => (h n hn).map _

theorem moduleAlias_emits (module short : String) : Emits (Emit.moduleAlias module short) [] [] :=
  importWith_emits fun ht hu => ht.use hu

theorem emitEnum_emits (s : Site) (o : Options) (hk : n.kind = .enum) : Emits (emitEnum s o n) [] (stops n) := by
  obtain ⟨values, hb⟩ : ∃ values, n.body = .enum values := by
    unfold Node.kind at hk
    cases hb : n.body <;> rw [hb] at hk <;> cases hk
    exact ⟨_, rfl⟩
  rw [stops, hb]
  refine (moduleAlias_emits _ _).after fun _ => ?_
  rw [Node.enumValues, hb]
  exact (checkNumbers_emits _).before fun _ => (moduleAlias_emits _ _).map _

/-- What a function gives for the children of a message and of the messages in it. -/
def inMessages {β : Type} (g : Graph) (fuel : Nat) (h : Node → List β) (n : Node) : List β :=
  (below (g.childrenOfKind · .message) fuel n).flatMap fun m => (g.childrenOf m).flatMap h

/-- The notes of a message and of the messages in it. -/
theorem emitMessage_emits (hg : Referable s.graph) : ∀ (fuel : Nat) (spacing : Int) {n : Node}, n ∈ s.graph.nodes →
    n.kind = .message → Emits (emitMessage s o fuel spacing n) (inMessages s.graph fuel notes n)
      (inMessages s.graph fuel stops n)
  | 0, _, _, _, _ => .pure _
  | fuel + 1, spacing, n, hn, hk => by
    have hchild {k : Kind} {c : Node} (hc : c ∈ s.graph.childrenOfKind n k) : c ∈ s.graph.nodes ∧ c.kind = k :=
      ⟨((hg.mem_childrenOf hn).mp (List.mem_filter.mp hc).1).1, beq_iff_eq.mp (List.mem_filter.mp hc).2⟩
    have henums : Emits (emitEach (emitEnum s o) (s.graph.childrenOfKind n .enum)) []
        ((s.graph.childrenOfKind n .enum).flatMap stops) := by
      have h := emitEach_emits fun c (hc : c ∈ s.graph.childrenOfKind n .enum) => emitEnum_emits s o (hchild hc).2
      rwa [List.flatMap_eq_nil_iff.mpr fun _ _ => rfl] at h
    have hmessages := emitEach_emits fun c (hc : c ∈ s.graph.childrenOfKind n .message) =>
      emitMessage_emits hg fuel 1 (hchild hc).1 (hchild hc).2
    have htags {plans : List FieldPlan} (h : plans.map (·.tag) = (fieldsIn s.graph n).map (·.2.tag)) (e : Emitted) :
        Emits (checkNumbers (plans.map (·.tag)) >>= fun _ => Pure.pure e) []
          (numberStops ((fieldsIn s.graph n).map (·.2.tag))) := by
      rw [h]
      exact (checkNumbers_emits _).map fun _ => e
    rw [inMessages, inMessages, below, List.flatMap_cons, List.flatMap_cons, List.flatMap_assoc, List.flatMap_assoc]
    refine (moduleAlias_emits _ _).after fun typing => ?_
    -- The tags are checked last, behind what is nested.
    apply Emits.congr
    · exact (planFields_emits hg hn hk).bindWith planFields_tags fun plans hplans =>
        (moduleAlias_emits _ _).after fun runtime => (moduleAlias_emits _ _).after fun reflection =>
        henums.bind fun enums => hmessages.andStops fun messages => htags hplans _
    · intro e
      have hchildren := mem_childStops hg hn hk (e := e)
      simp only [List.mem_append] at hchildren ⊢
      rw [hchildren]
      simp only [inMessages]
      tauto

/-! ## Services -/

theorem messageRefs_emits (hg : Referable s.graph) (hn : n ∈ s.graph.nodes) {r : Reference}
    (hr : r ∈ references n.body) : Emits (messageRefs s n r) (noteOf n r) [] := by
  refine target_emits (.pure _) fun t ht => ?_
  have hfile : t.file ≠ none := hg.filed hn hr ht
  exact (expression_emits _ hfile).after fun _ => (expression_emits _ hfile).map _

theorem emitMethod_emits (hg : Referable s.graph) (hn : n ∈ s.graph.nodes) {m : Method} (hm : n.body = .method m) :
    Emits (emitMethod s n m) (notes n) [] := by
  have hrefs : references n.body = [m.request, m.response] := by rw [hm, references]
  have hrequest := messageRefs_emits (r := m.request) hg hn (by rw [hrefs]; simp)
  have hresponse := messageRefs_emits (r := m.response) hg hn (by rw [hrefs]; simp)
  rw [notes_eq_flatMap, hrefs, List.flatMap_cons, List.flatMap_singleton]
  refine (moduleAlias_emits _ _).after fun typing => ?_
  exact hrequest.bind fun request => hresponse.map _

theorem emitService_emits (hg : Referable s.graph) (hn : n ∈ s.graph.nodes) (hk : n.kind = .service) :
    Emits (emitService s o n) ((s.graph.childrenOf n).flatMap notes) ((s.graph.childrenOf n).flatMap stops) := by
  refine (moduleAlias_emits _ _).after fun runtime => ?_
  refine (moduleAlias_emits _ _).after fun reflection => ?_
  refine Emits.map _ (.filterMapM fun c hc => ?_)
  obtain ⟨hcn, hp⟩ := (hg.mem_childrenOf hn).mp hc
  have hplaced := hg.placed hcn hn hp
  rw [hk] at hplaced
  cases hb : c.body with
  | method m =>
    have hm : c.method? = some m := by rw [Node.method?, hb]
    simp only [hm, stops, hb]
    exact (emitMethod_emits hg hcn hb).map some
  | _ =>
    rw [hb] at hplaced
    exact hplaced.elim

/-! ## Declarations -/

/-- What a function gives for the fields, enums and methods in an outermost declaration. -/
def within {β : Type} (g : Graph) (h : Node → List β) (n : Node) : List β :=
  match n.kind with
  | .message => inMessages g g.nodes.length h n
  | .service => (g.childrenOf n).flatMap h
  | .enum | .field => h n
  | _ => []

/-- The notes of an outermost declaration. -/
def notesIn (g : Graph) (n : Node) : List Unresolved := within g notes n

theorem emitDeclaration_emits (hg : Referable s.graph) (hn : n ∈ s.graph.nodes) (hk : n.kind ∈ kindOrder)
    (hfield : n.kind = .field → stops n = []) (previous : Option Kind) :
    Emits (emitDeclaration s o previous n) (notesIn s.graph n) (within s.graph stops n) := by
  unfold emitDeclaration notesIn within
  unfold Node.kind at hk hfield ⊢
  cases hb : n.body with
  | package | method => simp [hb, Body.kind, kindOrder] at hk
  | enum values =>
    have henum := emitEnum_emits s o (show n.kind = .enum from congrArg Body.kind hb)
    rw [← notes_eq_nil (n := n) (by simp [Node.kind, hb, Body.kind]) (by simp [Node.kind, hb, Body.kind])] at henum
    exact henum.map _
  | message dialect groups =>
    exact (emitMessage_emits hg _ _ hn (congrArg Body.kind hb)).map _
  | service => exact (emitService_emits hg hn (congrArg Body.kind hb)).map _
  | field f =>
    have hrest : Emits (do
        let reflection ← Emit.reflectionAlias o
        return (if previous == some .field then [] else [.blank 2]) ++ [extensionCode reflection n]) [] [] :=
      (moduleAlias_emits _ _).map _
    show Emits _ (notes n) (stops n)
    rw [hfield (congrArg Body.kind hb), notes_eq_flatMap, hb, references]
    dsimp only
    cases f.type.leaf with
    | scalar k => exact hrest
    | reference r =>
      rw [List.flatMap_singleton]
      exact ((targetOf_emits s n r).map fun _ => ()).before fun _ => hrest

/-- An outermost declaration that can be emitted: a node of a kind that stands in modules, and no map if it is a
field. -/
structure Emittable (g : Graph) (n : Node) : Prop where
  mem : n ∈ g.nodes
  kind : n.kind ∈ kindOrder
  field : n.kind = .field → stops n = []

theorem emitDeclarations_emits (hg : Referable s.graph) : ∀ {ns : List Node} (previous : Option Kind),
    (∀ n ∈ ns, Emittable s.graph n) →
    Emits (emitDeclarations s o previous ns) (ns.flatMap (notesIn s.graph)) (ns.flatMap (within s.graph stops))
  | [], _, _ => .pure _
  | n :: ns, previous, h => by
    obtain ⟨hn, hk, hf⟩ := h n List.mem_cons_self
    rw [List.flatMap_cons, List.flatMap_cons]
    refine (emitDeclaration_emits hg hn hk hf previous).bind fun code => Emits.map (code ++ ·) ?_
    exact emitDeclarations_emits hg _ fun m hm => h m (List.mem_cons_of_mem _ hm)

/-- How the assembly of a module ends, given the notes of its declarations and what stops it. -/
inductive Assembled (file : String) (notes : List Unresolved) (stops : List AssemblyFault) :
    Except AssemblyFault String → Prop
  | given {text : String} : notes = [] → stops = [] → Assembled file notes stops (.ok text)
  | unresolved : notes ≠ [] → stops = [] → Assembled file notes stops (.error (.unresolved file notes))
  | stopped {e : AssemblyFault} : e ∈ stops → Assembled file notes stops (.error e)
  | aliasTaken {c : AliasCollision} : Assembled file notes stops (.error (.aliasTaken c))

/-- **How the module of a file ends**, and that the imports it then has are sound. -/
theorem assemble_ends {group : FileGroup} (hg : Referable g) (hgroup : ∀ n ∈ group.ordered, Emittable g n) :
    Assembled group.file (group.ordered.flatMap (notesIn g)) (group.ordered.flatMap (within g stops))
      (assemble g o group) := by
  let s : Site := ⟨g, group.file, o.moduleForFile⟩
  have hok {text : String} {d : Draft} (h : emitModule s o group (.empty o.maxSuffix) = .ok text d) :
      assemble g o group = .ok text := by
    unfold assemble assembleWithImports
    rw [show emitModule ⟨g, group.file, o.moduleForFile⟩ o group (.empty o.maxSuffix) = .ok text d from h]
  have herror {e : AssemblyFault} {d : Draft} (h : emitModule s o group (.empty o.maxSuffix) = .error e d) :
      assemble g o group = .error e := by
    unfold assemble assembleWithImports
    rw [show emitModule ⟨g, group.file, o.moduleForFile⟩ o group (.empty o.maxSuffix) = .error e d from h]
  have hmodule : emitModule s o group (.empty o.maxSuffix) = EStateM.bind (emitDeclarations s o none group.ordered) _
      (.empty o.maxSuffix) := rfl
  rw [EStateM.bind] at hmodule
  have hends := emitDeclarations_emits (s := s) (o := o) hg none hgroup (.empty o.maxSuffix)
  cases hbody : emitDeclarations s o none group.ordered (.empty o.maxSuffix) with
  | ok body d =>
    rw [hbody] at hends hmodule
    obtain ⟨hnotes, hstops, -⟩ := hends
    have hnotes : d.unresolved = group.ordered.flatMap (notesIn g) := hnotes
    rw [← hnotes]
    replace hmodule : emitModule s o group (.empty o.maxSuffix) =
      (if d.unresolved.isEmpty then _ else throw (.unresolved group.file d.unresolved) : Emit String) d := hmodule
    cases hu : d.unresolved with
    | nil =>
      rw [hu] at hmodule
      rw [hok hmodule]
      exact .given rfl hstops
    | cons u us =>
      rw [hu] at hmodule
      rw [herror hmodule]
      exact .unresolved (List.cons_ne_nil u us) hstops
  | error e d =>
    rw [hbody] at hends hmodule
    rw [herror hmodule]
    cases hends with
    | stopped he => exact .stopped he
    | aliasTaken => exact .aliasTaken

/-- **The module of a file is given exactly when nothing was noted**, if nothing stops it and there are aliases for its
imports. -/
theorem assemble_eq {group : FileGroup} (hg : Referable g) (hgroup : ∀ n ∈ group.ordered, Emittable g n)
    (hstops : group.ordered.flatMap (within g stops) = []) (halias : ∀ c, assemble g o group ≠ .error (.aliasTaken c)) :
    if group.ordered.flatMap (notesIn g) = [] then ∃ text, assemble g o group = .ok text
    else assemble g o group = .error (.unresolved group.file (group.ordered.flatMap (notesIn g))) := by
  have hends := assemble_ends (o := o) hg hgroup
  rw [hstops] at hends
  cases hr : assemble g o group with
  | ok text =>
    rw [hr] at hends
    obtain ⟨hnone, -⟩ := hends
    rw [if_pos hnone]
    exact ⟨text, rfl⟩
  | error e =>
    rw [hr] at hends
    cases hends with
    | unresolved hsome => rw [if_neg hsome]
    | stopped he => cases he
    | aliasTaken => exact absurd hr (halias _)

/-- A file that something stops fails at what stops it, if there are aliases for its imports. -/
theorem assemble_of_stops {group : FileGroup} (hg : Referable g) (hgroup : ∀ n ∈ group.ordered, Emittable g n)
    {e : AssemblyFault} (he : e ∈ group.ordered.flatMap (within g stops))
    (halias : ∀ c, assemble g o group ≠ .error (.aliasTaken c)) :
    ∃ e' ∈ group.ordered.flatMap (within g stops), assemble g o group = .error e' := by
  have hends := assemble_ends (o := o) hg hgroup
  generalize hr : assemble g o group = r at hends
  cases hends with
  | given _ hnone | unresolved _ hnone =>
    rw [hnone] at he
    cases he
  | stopped he' => exact ⟨_, he', rfl⟩
  | aliasTaken => exact absurd hr (halias _)

end ProtoBind.Codegen
