/-
Every history of a loader.

A loader loads files and resolves its graph, again and again. Any of the calls
may fail, and what a failed one did before its fault stays done. Whatever the
calls were, the nodes of the graph have names without dots and stand under
nodes that may hold them (`Loader.Reached.shaped`).
-/
import ProtoBind.Proofs.Schema.Failures

namespace ProtoBind.Schema

open Schema.Graph Load

def Leaf.references : Leaf → List Reference
  | .scalar _ => []
  | .reference r => [r]

/-- The references of a body, in order. -/
def Body.references : Body → List Reference
  | .field f => f.type.leaf.references
  | .method m => [m.request, m.response]
  | _ => []

theorem Body.Replaces.trans {b b' b'' : Body} (h : b''.Replaces b') (h' : b'.Replaces b) : b''.Replaces b where
  kind := h.kind.trans h'.kind
  holds k hk := h.holds k (h'.holds k hk)
  sound hs := h.sound (h'.sound hs)

/-- The loaders that calls lead to from the empty one. Each call may look for texts in another place. -/
inductive Loader.Reached [Source.CharacterNames] : Loader → Prop
  | empty : Reached .empty
  | load {s : Loader} (find : String → Option String) (fuel : Nat) (file : String) (importer : Option String) :
    Reached s → Reached (endState (load find fuel file importer s))
  | finish {s : Loader} : Reached s → Reached (endState (finish s))

namespace Graph

variable {g : Graph} {n n' : Node}

/-! ## Resolving, however it ends -/

/-- Where the references of a node are looked up: those of a method around its service, all others where the node is. -/
def scopeOf (g : Graph) (n : Node) : Option Nat :=
  if n.kind = .method then (g.parentOf n).bind (·.parent) else n.parent

theorem missing_eq (b : Body) : missing b = (b.references.filter (·.target.isNone)).map (·.name) := by
  cases b with
  | field f =>
    simp only [missing, Body.references]
    cases f.type.leaf with
    | scalar k => rfl
    | reference r =>
      obtain ⟨name, target⟩ := r
      cases target <;> rfl
  | method m => cases hq : m.request.target <;> cases hp : m.response.target <;> simp [missing, Body.references, hq, hp]
  | _ => rfl

/-- A node of a graph after resolving, whether its default could be computed or not. -/
structure Treated (g : Graph) (n n' : Node) : Prop where
  place : place n' = place n
  replaces : n'.body.Replaces n.body
  references : n'.body.references = n.body.references.map fun r => g.resolveReference r (g.scopeOf n)

theorem resolveBody_replaces (n : Node) : (g.resolveBody n).Replaces n.body := by
  unfold resolveBody
  cases n.body with
  | field f => exact ⟨rfl, fun k hk => by cases k <;> exact hk, fun hs => resolvedField_sound g n.parent hs⟩
  | method m => exact ⟨rfl, fun k hk => by cases k <;> exact hk, id⟩
  | _ => exact .refl _

theorem references_resolveBody (n : Node) :
    (g.resolveBody n).references = n.body.references.map fun r => g.resolveReference r (g.scopeOf n) := by
  unfold resolveBody scopeOf Node.kind
  cases n.body with
  | field f =>
    simp only [Body.references, leaf_withLeaf]
    cases f.type.leaf <;> rfl
  | _ => rfl

theorem Settles.replaces (h : Settles g n n') : n'.body.Replaces n.body := by
  cases h with
  | field hb _ =>
    rw [hb]
    exact ⟨rfl, fun k hk => by cases k <;> exact hk, fun hs => ⟨hs.leaf, hs.single⟩⟩
  | other => exact .refl _

theorem Settles.references (h : Settles g n n') : n'.body.references = n.body.references := by
  cases h with
  | field hb _ =>
    rw [hb]
    rfl
  | other => rfl

/-- Up to the first default that cannot be computed the nodes are settled, and from there on they are as they were. -/
theorem setDefaults_settles_some : ∀ ns : List Node,
    List.Forall₂ (fun n n' => n' = n ∨ Settles g n n') ns (g.setDefaults ns).1
  | [] => .nil
  | n :: rest => by
    have hrest := setDefaults_settles_some rest
    simp only [setDefaults]
    split
    next f hb =>
      split
      next => exact .cons (.inl rfl) (List.forall₂_same.mpr fun m _ => .inl rfl)
      next v hv => exact .cons (.inr (.field hb hv)) hrest
    next hb => exact .cons (.inl rfl) hrest

theorem finalize_treats (g : Graph) : List.Forall₂ (Treated g) g.nodes g.finalize.1.nodes := by
  have hnodes : g.finalize.1.nodes = (g.resolveAll.setDefaults g.resolveAll.nodes).1 := by
    unfold finalize
    dsimp only
    split <;> rfl
  rw [hnodes]
  refine (List.forall₂_map_left_iff.mp (setDefaults_settles_some (g.nodes.map _))).imp fun n n' h => ?_
  obtain rfl | hs := h
  · exact ⟨rfl, resolveBody_replaces n, references_resolveBody n⟩
  · refine ⟨congrArg Prod.fst hs.outline, hs.replaces.trans (resolveBody_replaces n), ?_⟩
    exact hs.references.trans (references_resolveBody n)

theorem finalize_byName (g : Graph) : g.finalize.1.byName = g.byName := by
  unfold finalize
  dsimp only
  split <;> rfl

theorem finalize_alike (g : Graph) : Alike g.finalize.1 g where
  outlines := map_eq_of_forall₂ (fun _ _ h => Prod.ext h.place h.replaces.kind) g.finalize_treats
  byName := g.finalize_byName

/-- Resolving leaves every node where it is. -/
theorem Shaped.finalize (h : g.Shaped) : g.finalize.1.Shaped := by
  refine h.reshape g.finalize_alike.places g.finalize_byName fun hn' => ?_
  obtain ⟨n, hn, ht⟩ := forall₂_getElem? g.finalize_treats.flip hn'
  exact ⟨n, hn, ht.replaces⟩

end Graph

/-! ## Loading, however it ends -/

namespace Load

variable {find : String → Option String} {s s' : Loader} {fuel : Nat} {file : String} {importer : Option String}

theorem readFile_graph (find : String → Option String) (file : String) (importer : Option String) (s : Loader) :
    (endState (readFile find file importer s)).graph = s.graph := by
  unfold readFile
  cases find file with
  | some text => rfl
  | none =>
    cases importer with
    | none => rfl
    | some i =>
      dsimp only
      split <;> rfl

theorem ofParse_state (file : String) (result : Except Source.ParseFault (List Source.Decl × List Source.Comment))
    (s : Loader) : endState (ofParse file result s) = s := by
  unfold ofParse
  split <;> rfl

theorem enter_shaped {f : SchemaFile} (h : s.graph.Shaped) (hd : Source.ProperAll f.decls) :
    (endState (enter f s)).graph.Shaped := by
  have hadd := @addDeclarations_steady { s with graph := s.graph.addFile f.name } f.context (packageOf f.decls) f.decls
    (shaped_addFile h f.name) hd
  unfold enter
  refine endState_bind (P := fun s : Loader => s.graph.Shaped) (shaped_addFile h f.name) fun _ s₁ hset _ => ?_
  cases hset
  refine endState_bind (P := fun s : Loader => s.graph.Shaped) ?_ fun _ _ _ hs => hs
  cases hr : addDeclarations f.context (packageOf f.decls) f.decls { s with graph := s.graph.addFile f.name } with
  | ok _ s' => exact (hadd.ok hr).1.shaped
  | error _ s' => exact (hadd.error hr).1.shaped

theorem load_shaped [Source.CharacterNames] : ∀ {fuel : Nat} {file : String} {importer : Option String}
    {s : Loader}, s.graph.Shaped → (endState (load find fuel file importer s)).graph.Shaped
  | 0, file, importer, s, h => h
  | fuel + 1, file, importer, s, h => by
    by_cases hl : file ∈ s.loaded
    · rw [load_loaded hl]
      exact h
    by_cases hg : file ∈ s.loading
    · rw [load_again hl hg]
      exact h
    rw [load_fresh hl hg]
    refine endState_bind (P := fun s : Loader => s.graph.Shaped) ?_ fun text s₁ _ h₁ => ?_
    · rw [readFile_graph]
      exact h
    cases text with
    | none => exact h₁
    | some text =>
      unfold loadText
      refine endState_bind (P := fun s : Loader => s.graph.Shaped) h₁ fun _ s₂ _ h₂ => ?_
      refine endState_bind (P := fun s : Loader => s.graph.Shaped) h₂ fun _ s₃ _ h₃ => ?_
      refine endState_bind (P := fun s : Loader => s.graph.Shaped) ?_ fun parsed s₄ hparse h₄ => ?_
      · rw [ofParse_state]
        exact h₃
      refine endState_bind (P := fun s : Loader => s.graph.Shaped) ?_ fun _ s₅ _ h₅ => ?_
      · refine endState_forIn (P := fun s : Loader => s.graph.Shaped) (fun i _ s hs => ?_) h₄
        exact endState_bind (P := fun s : Loader => s.graph.Shaped) (load_shaped hs) fun _ _ _ hs => hs
      · exact enter_shaped h₅ (Source.parse_proper (ofParse_eq_ok hparse).1)

theorem finish_graph (s : Loader) : (endState (finish s)).graph = s.graph.finalize.1 := by
  unfold finish
  rw [bind_of_ok (show (get : Load Loader) s = .ok s s from rfl)]
  rcases s.graph.finalize with ⟨g, result⟩
  refine endState_bind (P := fun s : Loader => s.graph = g) rfl fun _ s₁ _ h₁ => ?_
  cases result with
  | error e => exact h₁
  | ok missing =>
    -- A report only makes the log longer.
    refine endState_bind (P := fun s : Loader => s.graph = g) ?_ fun _ _ _ hs => hs
    exact endState_forIn (P := fun s : Loader => s.graph = g) (fun _ _ _ hs => hs) h₁

end Load

/-- **The graph of a loader has the shape of a schema after every history.** -/
theorem Loader.Reached.shaped [Source.CharacterNames] {s : Loader} (h : s.Reached) : s.graph.Shaped := by
  induction h with
  | empty => exact empty_formed.toShaped
  | load find fuel file importer _ ih => exact load_shaped ih
  | finish _ ih =>
    rw [finish_graph]
    exact ih.finalize

end ProtoBind.Schema
