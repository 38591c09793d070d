/-
Code for counterparts.

The emitters reach a graph through the parents, the children and the targets of
nodes, and write names only. So in two graphs that are the same up to the
numbers of their nodes, counterparts are emitted alike: from every draft with
the same code, the same draft behind it and the same fault
(`emitDeclaration_eq`), and so are modules of them (`emitModule_eq`).
-/
import ProtoBind.Codegen.Assembly
import ProtoBind.Proofs.Schema.Counterparts

namespace ProtoBind.Codegen

open Schema Schema.Graph

/-! ## Traversals -/

section Traversals

variable {m : Type → Type} [Monad m] {α β γ δ : Type} {R : α → β → Prop} {xs : List α} {ys : List β}

theorem mapM_eq_of_forall₂ [LawfulMonad m] {f : α → m γ} {f' : β → m γ} (h : List.Forall₂ R xs ys)
    (hf : ∀ x y, R x y → f x = f' y) : xs.mapM f = ys.mapM f' := by
  induction h with
  | nil => rw [List.mapM_nil, List.mapM_nil]
  | cons hxy _ ih => rw [List.mapM_cons, List.mapM_cons, hf _ _ hxy, ih]

theorem filterMapM_eq_of_forall₂ [LawfulMonad m] {f : α → m (Option γ)} {f' : β → m (Option γ)}
    (h : List.Forall₂ R xs ys) (hf : ∀ x y, R x y → f x = f' y) : xs.filterMapM f = ys.filterMapM f' := by
  induction h with
  | nil => rw [List.filterMapM_nil, List.filterMapM_nil]
  | cons hxy _ ih => rw [List.filterMapM_cons, List.filterMapM_cons, hf _ _ hxy, ih]

theorem foldlM_eq_of_forall₂ {f : δ → α → m δ} {f' : δ → β → m δ} (h : List.Forall₂ R xs ys)
    (hf : ∀ d x y, R x y → f d x = f' d y) : ∀ d, xs.foldlM f d = ys.foldlM f' d := by
  induction h with
  | nil => exact fun d => rfl
  | cons hxy _ ih =>
    intro d
    rw [List.foldlM_cons, List.foldlM_cons, hf d _ _ hxy]
    exact bind_congr ih

theorem map_zip_eq_of_forall₂ {f : α × γ → δ} {f' : β × γ → δ} (h : List.Forall₂ R xs ys)
    (hf : ∀ x y z, R x y → f (x, z) = f' (y, z)) : ∀ zs : List γ, (xs.zip zs).map f = (ys.zip zs).map f' := by
  induction h with
  | nil => exact fun _ => rfl
  | cons hxy _ ih =>
    intro zs
    cases zs with
    | nil => rfl
    | cons z zs => rw [List.zip_cons_cons, List.zip_cons_cons, List.map_cons, List.map_cons, hf _ _ z hxy, ih]

end Traversals

theorem emitEach_eq {R : Node → Node → Prop} {f f' : Node → Emit Emitted} {l l' : List Node} (hl : List.Forall₂ R l l')
    (hf : ∀ c c', R c c' → f c = f' c') : emitEach f l = emitEach f' l' :=
  foldlM_eq_of_forall₂ hl (fun _ c c' hc => by rw [hf c c' hc]) _

variable {g g' : Graph} {n n' t t' : Node}

theorem arityOf_eq {f f' : Field} (hf : SameField g g' f f') : arityOf f.type = arityOf f'.type := by
  rw [arityOf, arityOf, hf.arity, hf.key]

/-! ## What is written of a node -/

/-- Nodes that are counterparts, each with the field that it declares. -/
def SameMember (g g' : Graph) (x x' : Node × Field) : Prop := Counterpart g g' x.1 x'.1 ∧ SameField g g' x.2 x'.2

section Names

variable (h : g.Copies g')

include h

theorem className_eq (c : Counterpart g g' n n') : className n = className n' := by
  rw [className, className, h.name c]

theorem shapeName_eq (c : Counterpart g g' n n') : shapeName n = shapeName n' := by
  rw [shapeName, shapeName, className_eq h c, h.kind c, h.name c]

theorem outerClasses_eq : ∀ (fuel : Nat) {n n' : Node}, Counterpart g g' n n' →
    outerClasses g fuel n = outerClasses g' fuel n'
  | 0, _, _, _ => rfl
  | fuel + 1, n, n', c => by
    unfold outerClasses
    rcases h.parent c with ⟨hp, hp'⟩ | ⟨p, p', hp, hp', cp⟩
    · rw [hp, hp']
    · rw [hp, hp']
      dsimp only
      rw [h.kind cp, outerClasses_eq fuel cp, className_eq h cp]

theorem pathTo_eq (c : Counterpart g g' n n') (last : String) : pathTo g n last = pathTo g' n' last := by
  rw [pathTo, pathTo, h.length, outerClasses_eq h _ c]

theorem localPath_eq (c : Counterpart g g' n n') : localPath g n = localPath g' n' := by
  rw [localPath, localPath, pathTo_eq h c, className_eq h c]

theorem localShapePath_eq (c : Counterpart g g' n n') : localShapePath g n = localShapePath g' n' := by
  rw [localShapePath, localShapePath, pathTo_eq h c, shapeName_eq h c]

theorem messageShapeCode_eq (c : Counterpart g g' n n') (typing : String) (plans : List FieldPlan) :
    messageShapeCode typing n plans = messageShapeCode typing n' plans := by
  rw [messageShapeCode, messageShapeCode, shapeName_eq h c, h.doc c]

theorem messageClassCode_eq (c : Counterpart g g' n n') (a : Aliases) (plans : List FieldPlan) (nested : List Code) :
    messageClassCode a n plans nested = messageClassCode a n' plans nested := by
  rw [messageClassCode, messageClassCode, className_eq h c, h.doc c, h.oneofs c, Node.path, Node.path, c.fullName]

/-- The fields among counterparts are the same, in one order. -/
theorem members_same {l l' : List Node} (hl : List.Forall₂ (Counterpart g g') l l') :
    List.Forall₂ (SameMember g g') (l.filterMap fun c => c.field?.map fun f => (c, f))
      (l'.filterMap fun c => c.field?.map fun f => (c, f)) := by
  refine List.rel_filterMap (fun c c' hc => ?_) hl
  have hb := h.body hc
  unfold Node.field?
  generalize c.body = b, c'.body = b' at hb
  cases hb with
  | field hf => exact .some ⟨hc, hf⟩
  | _ => exact .none

theorem ordered_counterparts {group group' : FileGroup}
    (hnodes : List.Forall₂ (Counterpart g g') group.nodes group'.nodes) :
    List.Forall₂ (Counterpart g g') group.ordered group'.ordered := by
  refine List.rel_flatMap (List.forall₂_same.mpr fun k _ => rfl) ?_
  rintro k _ rfl
  exact List.rel_filter (fun _ _ c => by simp only [h.kind c]) hnodes

end Names

/-! ## References -/

variable {s : Site} {o : Options}

/-- The same place for another graph. -/
def Site.over (s : Site) (g' : Graph) : Site := { s with graph := g' }

/-- What follows a reference is the same when it is the same for counterparts and for no target. -/
theorem targetOf_bind {α : Type} {r r' : Reference} {f f' : Option Node → Emit α}
    (hr : SameReference s.graph g' r r') (hname : n.fullName = n'.fullName) (hnone : f none = f' none)
    (hsome : ∀ t t', Counterpart s.graph g' t t' → f (some t) = f' (some t')) :
    s.targetOf n r >>= f = (s.over g').targetOf n' r' >>= f' := by
  unfold Site.targetOf
  cases hr with
  | unresolved =>
    dsimp only
    rw [bind_assoc, bind_assoc, hname]
    simp only [pure_bind, hnone]
  | resolved ht ht' c => simp only [pure_bind, Site.over, ht, ht', hsome _ _ c]

section Emitters

variable (h : s.graph.Copies g')

include h

theorem expression_eq (c : Counterpart s.graph g' t t') (path : String) :
    s.expression t path = (s.over g').expression t' path := by
  rw [Site.expression, Site.expression, h.file c]
  rfl

theorem classRef_eq (c : Counterpart s.graph g' t t') : s.classRef t = (s.over g').classRef t' := by
  rw [Site.classRef, Site.classRef, localPath_eq h c]
  exact expression_eq h c _

theorem shapeRef_eq (c : Counterpart s.graph g' t t') : s.shapeRef t = (s.over g').shapeRef t' := by
  rw [Site.shapeRef, Site.shapeRef, localShapePath_eq h c]
  exact expression_eq h c _

/-! ## Messages -/

theorem emitElement_eq (hname : n.fullName = n'.fullName) {l l' : Leaf} (hl : SameLeaf s.graph g' l l') :
    emitElement s n l = emitElement (s.over g') n' l' := by
  cases hl with
  | scalar k => rfl
  | reference hr =>
    refine targetOf_bind hr hname rfl fun t t' c => ?_
    dsimp only
    rw [classRef_eq h c, shapeRef_eq h c, h.kind c]

theorem planFields_eq (c : Counterpart s.graph g' n n') (hk : n.kind ≠ .package) :
    planFields s n = planFields (s.over g') n' := by
  have hmembers := members_same h (h.childrenOf c hk)
  unfold planFields
  refine congrArg₂ (· >>= ·) (mapM_eq_of_forall₂ hmembers fun x x' hx => ?_) (funext fun elements => ?_)
  · exact emitElement_eq h hx.1.fullName hx.2.leaf
  refine congrArg₂ (· >>= ·) (mapM_eq_of_forall₂ hmembers fun x x' hx => ?_) (funext fun arities => ?_)
  · exact arityOf_eq hx.2
  refine congrArg pure (map_zip_eq_of_forall₂ hmembers (fun x x' z hx => ?_) _)
  dsimp only
  rw [h.name hx.1, h.doc hx.1, hx.2.tag, hx.2.oneof]

theorem emitEnum_eq (c : Counterpart s.graph g' n n') : emitEnum s o n = emitEnum (s.over g') o n' := by
  have hcode (enums : String) : enumCode enums n = enumCode enums n' := by
    rw [enumCode, enumCode, className_eq h c, h.doc c, h.enumValues c]
  have hbinding (reflection : String) : enumBinding s n reflection = enumBinding (s.over g') n' reflection := by
    rw [enumBinding, enumBinding, localPath_eq h c, Node.path, Node.path, c.fullName]
    rfl
  unfold emitEnum
  simp only [hcode, hbinding, h.enumValues c]

/-- A message is emitted alike, with the messages in it: by induction on the fuel, as its nested messages are
counterparts in one order. -/
theorem emitMessage_eq : ∀ (fuel : Nat) (spacing : Int) {n n' : Node}, Counterpart s.graph g' n n' →
    n.kind = .message → emitMessage s o fuel spacing n = emitMessage (s.over g') o fuel spacing n'
  | 0, _, _, _, _, _ => rfl
  | fuel + 1, spacing, n, n', c, hk => by
    have hpackage : n.kind ≠ .package := by
      rw [hk]
      decide
    have henums : emitEach (emitEnum s o) (s.graph.childrenOfKind n .enum) =
        emitEach (emitEnum (s.over g') o) (g'.childrenOfKind n' .enum) :=
      emitEach_eq (h.childrenOfKind c hpackage .enum) fun _ _ hc => emitEnum_eq h hc.1
    have hmessages : emitEach (emitMessage s o fuel 1) (s.graph.childrenOfKind n .message) =
        emitEach (emitMessage (s.over g') o fuel 1) (g'.childrenOfKind n' .message) :=
      emitEach_eq (h.childrenOfKind c hpackage .message) fun _ _ hc => emitMessage_eq fuel 1 hc.1 hc.2
    unfold emitMessage
    rw [planFields_eq h c hpackage, henums, hmessages]
    simp only [messageShapeCode_eq h c, messageClassCode_eq h c]
    rfl

/-! ## Services -/

theorem messageRefs_eq (hname : n.fullName = n'.fullName) {r r' : Reference} (hr : SameReference s.graph g' r r') :
    messageRefs s n r = messageRefs (s.over g') n' r' := by
  refine targetOf_bind hr hname rfl fun t t' c => ?_
  dsimp only
  rw [classRef_eq h c, shapeRef_eq h c]

theorem emitMethod_eq (c : Counterpart s.graph g' n n') {m m' : Method} (hm : SameMethod s.graph g' m m') :
    emitMethod s n m = emitMethod (s.over g') n' m' := by
  have hcode (typing request requestShape response : String) : methodCode typing n m request requestShape response =
      methodCode typing n' m' request requestShape response := by
    rw [methodCode, methodCode, h.name c, h.doc c, hm.requestStream, hm.responseStream]
  unfold emitMethod
  simp only [messageRefs_eq h c.fullName hm.request, messageRefs_eq h c.fullName hm.response, hcode]

theorem emitService_eq (c : Counterpart s.graph g' n n') (hk : n.kind ≠ .package) :
    emitService s o n = emitService (s.over g') o n' := by
  have hcode (runtime reflection : String) (methods : List (List Code)) :
      serviceCode runtime reflection n methods = serviceCode runtime reflection n' methods := by
    rw [serviceCode, serviceCode, className_eq h c, h.doc c, Node.path, Node.path, c.fullName]
  unfold emitService
  simp only [hcode]
  refine bind_congr fun runtime => bind_congr fun reflection => ?_
  refine congrArg₂ (· >>= ·) (filterMapM_eq_of_forall₂ (h.childrenOf c hk) fun x x' hx => ?_) rfl
  have hb := h.body hx
  unfold Node.method?
  generalize x.body = b, x'.body = b' at hb
  cases hb with
  | method hm => exact congrArg (· >>= _) (emitMethod_eq h hx hm)
  | _ => rfl

/-! ## Modules -/

theorem emitDeclaration_eq (c : Counterpart s.graph g' n n') (previous : Option Kind) :
    emitDeclaration s o previous n = emitDeclaration (s.over g') o previous n' := by
  have hb := h.body c
  unfold emitDeclaration
  generalize hn : n.body = b, n'.body = b' at hb
  cases hb with
  | package | method _ =>
    dsimp only
    rw [h.kind c, c.fullName]
  | enum => exact congrArg (· >>= _) (emitEnum_eq h c)
  | message =>
    have hlength : s.graph.nodes.length = (s.over g').graph.nodes.length := h.length
    dsimp only
    rw [hlength, emitMessage_eq h _ 2 c (congrArg Body.kind hn)]
  | service =>
    have hk : n.kind ≠ .package := by
      rw [Node.kind, hn]
      rintro ⟨⟩
    exact congrArg (· >>= _) (emitService_eq h c hk)
  | @field f f' hf =>
    have hcode (reflection : String) : extensionCode reflection n = extensionCode reflection n' := by
      rw [extensionCode, extensionCode, h.name c, Node.path, Node.path, c.fullName]
    simp only [hcode]
    have hl := hf.leaf
    generalize f.type.leaf = l, f'.type.leaf = l' at hl
    cases hl with
    | scalar k => rfl
    | @reference r r' hr =>
      have htarget : s.targetOf n r >>= (fun _ => pure ()) = (s.over g').targetOf n' r' >>= fun _ => pure () :=
        targetOf_bind hr c.fullName rfl fun _ _ _ => rfl
      exact congrArg (· >>= _) htarget

theorem emitDeclarations_eq : ∀ {ns ns' : List Node} (previous : Option Kind),
    List.Forall₂ (Counterpart s.graph g') ns ns' →
    emitDeclarations s o previous ns = emitDeclarations (s.over g') o previous ns'
  | _, _, _, .nil => rfl
  | _, _, previous, .cons c hrest => by
    rw [emitDeclarations, emitDeclarations, emitDeclaration_eq h c]
    simp only [h.kind c, emitDeclarations_eq _ hrest]

/-- **A module has the same text in both graphs, or the same fault.** -/
theorem emitModule_eq {group group' : FileGroup} (hfile : group.file = group'.file)
    (hnodes : List.Forall₂ (Counterpart s.graph g') group.nodes group'.nodes) :
    emitModule s o group = emitModule (s.over g') o group' := by
  rw [emitModule, emitModule, hfile, emitDeclarations_eq h none (ordered_counterparts h hnodes)]

end Emitters

/-- Groups of counterparts are assembled alike. -/
theorem assemble_copies (h : g.Copies g') {group group' : FileGroup} (hfile : group.file = group'.file)
    (hnodes : List.Forall₂ (Counterpart g g') group.nodes group'.nodes) :
    assemble g o group = assemble g' o group' := by
  have hmodule := emitModule_eq (s := ⟨g, group.file, o.moduleForFile⟩) (o := o) h hfile hnodes
  rw [assemble, assemble, assembleWithImports, assembleWithImports, hmodule, ← hfile]
  rfl

end ProtoBind.Codegen
