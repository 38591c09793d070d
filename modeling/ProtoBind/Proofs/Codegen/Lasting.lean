/-
What lasts while code is emitted.

Emission changes the imports of a module only by asking for an alias: for the
module of a schema file, or for one of the modules that all code uses. So what
each such call keeps holds of the imports to the end (`emitDeclarations_keeps`),
and the imports of a module are those after some calls (`imports_of_calls`).
-/
import ProtoBind.Codegen.Assembly
import ProtoBind.Proofs.Codegen.Imports
import ProtoBind.Proofs.Results

namespace ProtoBind.Codegen

open Schema
open ImportTable (Call afterAll)

variable {α β γ : Type} {I : ImportTable → Prop} {s : Site} {o : Options}

/-! ## Computations -/

/-- What holds of the imports before the computation holds of them after it, if it succeeds. -/
def Keeps (I : ImportTable → Prop) (x : Emit α) : Prop := ∀ d a d', I d.imports → x d = .ok a d' → I d'.imports

namespace Keeps

theorem pure (a : α) : Keeps I (Pure.pure a : Emit α) := by
  intro d b d' hd h
  cases h
  exact hd

theorem fail (e : AssemblyFault) : Keeps I (throw e : Emit α) := by
  intro d a d' _ h
  cases h

theorem bind {x : Emit α} {f : α → Emit β} (hx : Keeps I x) (hf : ∀ a, Keeps I (f a)) : Keeps I (x >>= f) := by
  intro d b d' hd h
  obtain ⟨a, d₁, ha, h⟩ := bind_eq_ok.mp h
  exact hf a d₁ b d' (hx d a d₁ hd ha) h

theorem map {x : Emit α} (f : α → β) (hx : Keeps I x) : Keeps I (x >>= fun a => Pure.pure (f a)) :=
  hx.bind fun a => .pure (f a)

theorem mapM {f : γ → Emit β} (hf : ∀ x, Keeps I (f x)) : ∀ xs : List γ, Keeps I (xs.mapM f)
  | [] => by
    rw [List.mapM_nil]
    exact .pure _
  | x :: xs => by
    rw [List.mapM_cons]
    exact (hf x).bind fun y => (mapM hf xs).map (y :: ·)

theorem filterMapM {f : γ → Emit (Option β)} (hf : ∀ x, Keeps I (f x)) : ∀ xs : List γ, Keeps I (xs.filterMapM f)
  | [] => by
    rw [List.filterMapM_nil]
    exact .pure _
  | x :: xs => by
    rw [List.filterMapM_cons]
    refine (hf x).bind fun y => ?_
    cases y with
    | none => exact filterMapM hf xs
    | some y => exact (filterMapM hf xs).map (y :: ·)

theorem foldlM {f : α → γ → Emit α} (hf : ∀ a x, Keeps I (f a x)) : ∀ (xs : List γ) (a : α), Keeps I (xs.foldlM f a)
  | [], a => by
    rw [List.foldlM_nil]
    exact .pure _
  | x :: xs, a => by
    rw [List.foldlM_cons]
    exact (hf a x).bind fun b => foldlM hf xs b

end Keeps

/-! ## Emitters -/

/-- The modules that code uses besides those of schema files, each with the name for its alias. -/
def commonModules (o : Options) : List (String × String) :=
  [("typing", ""), ("enum", ""), (o.runtime, "runtime"), (o.reflectionModule, "reflection")]

/-- Still holds of the imports when code asks for an alias. -/
structure Lasting (s : Site) (o : Options) (I : ImportTable → Prop) : Prop where
  file : ∀ t f name t', I t → t.useFile f (s.moduleFor f) = .ok (name, t') → I t'
  module : ∀ t m name t', m ∈ commonModules o → I t → t.useModule m.1 m.2 = .ok (name, t') → I t'

/-- An import gives an alias and the imports with it, or fails and leaves all as it is. -/
theorem importWith_eq (f : ImportTable → Except AliasCollision (String × ImportTable)) (d : Draft) :
    Emit.importWith f d = match f d.imports with
      | .ok (name, t) => .ok name { d with imports := t }
      | .error c => .error (.aliasTaken c) d := by
  unfold Emit.importWith
  rw [bind_of_ok (show (get : Emit Draft) d = .ok d d from rfl)]
  cases f d.imports <;> rfl

theorem importWith_keeps {f : ImportTable → Except AliasCollision (String × ImportTable)}
    (hf : ∀ t name t', I t → f t = .ok (name, t') → I t') : Keeps I (Emit.importWith f) := by
  intro d name d' hd h
  rw [importWith_eq] at h
  cases hr : f d.imports with
  | ok r =>
    rw [hr] at h
    cases h
    exact hf d.imports r.1 r.2 hd hr
  | error c =>
    rw [hr] at h
    cases h

theorem targetOf_keeps (n : Node) (r : Reference) : Keeps I (s.targetOf n r) := by
  unfold Site.targetOf
  split
  · exact .pure _
  · intro d a d' hd h
    cases h
    exact hd

namespace Lasting

variable (h : Lasting s o I)
include h

theorem moduleAlias {m : String × String} (hm : m ∈ commonModules o) : Keeps I (Emit.moduleAlias m.1 m.2) :=
  importWith_keeps fun t name t' => h.module t m name t' hm

theorem typing : Keeps I Emit.typingAlias := h.moduleAlias (m := ("typing", "")) (by simp [commonModules])

theorem enums : Keeps I Emit.enumAlias := h.moduleAlias (m := ("enum", "")) (by simp [commonModules])

theorem runtime : Keeps I (Emit.runtimeAlias o) := h.moduleAlias (m := (o.runtime, "runtime")) (by simp [commonModules])

theorem reflection : Keeps I (Emit.reflectionAlias o) :=
  h.moduleAlias (m := (o.reflectionModule, "reflection")) (by simp [commonModules])

theorem expression (target : Node) (path : String) : Keeps I (s.expression target path) := by
  unfold Site.expression
  split
  · exact .pure _
  · split
    · exact .fail _
    · exact (importWith_keeps fun t name t' => h.file t _ name t').map _

theorem emitElement (n : Node) (leaf : Leaf) : Keeps I (emitElement s n leaf) := by
  cases leaf with
  | scalar k => exact .pure _
  | reference r =>
    refine (targetOf_keeps n r).bind fun target => ?_
    cases target with
    | none => exact .pure _
    | some target =>
      refine (h.expression target _).bind fun ref => ?_
      split
      · exact .pure _
      · exact (h.expression target _).map _

omit h in
theorem arityOf (t : ValueType) : Keeps I (arityOf t) := by
  unfold Codegen.arityOf
  split
  · exact .pure _
  · exact .fail _

theorem planFields (n : Node) : Keeps I (planFields s n) := by
  unfold Codegen.planFields
  refine (Keeps.mapM (fun x : Node × Field => h.emitElement x.1 x.2.type.leaf) _).bind fun _ => ?_
  exact (Keeps.mapM (fun x : Node × Field => arityOf x.2.type) _).map _

omit h in
theorem checkNumbers (numbers : List Int) : Keeps I (checkNumbers numbers) := by
  unfold Codegen.checkNumbers
  split
  · exact .fail _
  · exact .pure _

theorem emitEnum (n : Node) : Keeps I (emitEnum s o n) :=
  h.enums.bind fun _ => (checkNumbers _).bind fun _ => h.reflection.map _

omit h in
theorem emitEach {f : Node → Emit Emitted} (hf : ∀ n, Keeps I (f n)) (ns : List Node) : Keeps I (emitEach f ns) :=
  Keeps.foldlM (fun _ n => (hf n).map _) ns _

theorem emitMessage : ∀ (fuel : Nat) (spacing : Int) (n : Node), Keeps I (emitMessage s o fuel spacing n)
  | 0, _, _ => .pure _
  | fuel + 1, _, n =>
    h.typing.bind fun _ => (h.planFields n).bind fun _ => h.runtime.bind fun _ => h.reflection.bind fun _ =>
      (emitEach h.emitEnum _).bind fun _ => (emitEach (emitMessage fuel 1) _).bind fun _ => (checkNumbers _).map _

theorem messageRefs (method : Node) (r : Reference) : Keeps I (messageRefs s method r) := by
  refine (targetOf_keeps method r).bind fun target => ?_
  cases target with
  | none => exact .pure _
  | some target => exact (h.expression target _).bind fun _ => (h.expression target _).map _

theorem emitMethod (n : Node) (m : Method) : Keeps I (emitMethod s n m) :=
  h.typing.bind fun _ => (h.messageRefs n m.request).bind fun _ => (h.messageRefs n m.response).map _

theorem emitService (n : Node) : Keeps I (emitService s o n) := by
  refine h.runtime.bind fun _ => h.reflection.bind fun _ => (Keeps.filterMapM (fun c => ?_) _).map _
  split
  · exact (h.emitMethod c _).map _
  · exact .pure _

theorem emitDeclaration (previous : Option Kind) (n : Node) : Keeps I (emitDeclaration s o previous n) := by
  unfold Codegen.emitDeclaration
  cases n.body with
  | enum _ => exact (h.emitEnum n).map _
  | message _ _ => exact (h.emitMessage _ 2 n).map _
  | service => exact (h.emitService n).map _
  | field f =>
    dsimp only
    cases f.type.leaf with
    | reference r => exact ((targetOf_keeps n r).map _).bind fun _ => h.reflection.map _
    | scalar k => exact h.reflection.map _
  | package | method => exact .fail _

/-- **What every call for an alias keeps holds of the imports to the end.** -/
theorem emitDeclarations : ∀ (previous : Option Kind) (ns : List Node), Keeps I (emitDeclarations s o previous ns)
  | _, [] => .pure _
  | previous, n :: rest => (h.emitDeclaration previous n).bind fun _ => (emitDeclarations (some n.kind) rest).map _

end Lasting

/-! ## Modules -/

/-- The imports begin with those that there were. -/
def Extends (old : List Import) (t : ImportTable) : Prop := old <+: t.entries

theorem ImportTable.use_extends {t t' : ImportTable} {target : ImportTarget} {module base name : String}
    (h : t.use target module base = .ok (name, t')) : t.entries <+: t'.entries := by
  unfold ImportTable.use at h
  split at h
  · cases h
    exact List.prefix_rfl
  · split at h
    · cases h
      exact List.prefix_append _ _
    · cases h

theorem Extends.lasting (s : Site) (o : Options) (old : List Import) : Lasting s o (Extends old) where
  file _ _ _ _ h hf := List.IsPrefix.trans h (ImportTable.use_extends hf)
  module _ _ _ _ _ h hm := List.IsPrefix.trans h (ImportTable.use_extends hm)

/-- Imports are only added. -/
theorem Keeps.extends {x : Emit α} (hx : ∀ old, Keeps (Extends old) x) {d d' : Draft} {a : α} (h : x d = .ok a d') :
    d.imports.entries <+: d'.imports.entries :=
  hx d.imports.entries d a d' List.prefix_rfl h

/-- What was given as a part of a run that ends with some imports: those there were then are the first of them. -/
def Part (x : Emit α) (a : α) (imports : List Import) : Prop := ∃ d d', x d = .ok a d' ∧ d'.imports.entries <+: imports

theorem Part.mono {x : Emit α} {a : α} {imports more : List Import} (h : Part x a imports) (hmore : imports <+: more) :
    Part x a more := by
  obtain ⟨d, d', hrun, hlater⟩ := h
  exact ⟨d, d', hrun, hlater.trans hmore⟩

/-- The parts of a series of runs. -/
theorem Part.mapM {f : γ → Emit β} (hf : ∀ x old, Keeps (Extends old) (f x)) {imports : List Import} :
    ∀ {xs : List γ} {ys : List β}, Part (xs.mapM f) ys imports → List.Forall₂ (fun x y => Part (f x) y imports) xs ys
  | [], ys, h => by
    obtain ⟨d, d', hrun, -⟩ := h
    rw [List.mapM_nil] at hrun
    cases hrun
    exact .nil
  | x :: xs, ys, h => by
    obtain ⟨d, d', hrun, hlater⟩ := h
    rw [List.mapM_cons] at hrun
    obtain ⟨y, d₁, hy, hrun⟩ := bind_eq_ok.mp hrun
    obtain ⟨rest, d₂, hrest, hrun⟩ := bind_eq_ok.mp hrun
    cases hrun
    have hfirst : d₁.imports.entries <+: imports := (Keeps.extends (fun old => .mapM (hf · old) xs) hrest).trans hlater
    exact .cons ⟨d, d₁, hy, hfirst⟩ (mapM hf ⟨d₁, _, hrest, hlater⟩)

/-- The imports that some calls leave. -/
def Called (moduleFor : String → String) (maxSuffix : Int) (t : ImportTable) : Prop :=
  ∃ calls, t = afterAll moduleFor (.empty maxSuffix) calls

theorem Called.perform {moduleFor : String → String} {maxSuffix : Int} {t t' : ImportTable}
    (h : Called moduleFor maxSuffix t) {c : Call} {name : String} (hc : c.perform moduleFor t = .ok (name, t')) :
    Called moduleFor maxSuffix t' := by
  obtain ⟨calls, rfl⟩ := h
  refine ⟨calls ++ [c], ?_⟩
  rw [ImportTable.afterAll_concat, Call.after, hc]

theorem Called.lasting (s : Site) (o : Options) (maxSuffix : Int) : Lasting s o (Called s.moduleFor maxSuffix) where
  file _ f _ _ h hf := h.perform (c := .file f) hf
  module _ m _ _ _ h hm := h.perform (c := .module m.1 m.2) hm

variable {g : Graph} {group : FileGroup} {text : String} {imports : List Import}

/-- The code of a module that was assembled, and what was imported for it. -/
theorem emitted_of_assembled (h : assembleWithImports g o group = (.ok text, imports)) :
    ∃ body d, emitDeclarations ⟨g, group.file, o.moduleForFile⟩ o none group.ordered (.empty o.maxSuffix) = .ok body d ∧
      d.imports.entries = imports ∧ d.unresolved = [] ∧
      text = moduleText (Code.lines (prologue group.file d.imports) ++ Code.lines body) := by
  unfold assembleWithImports at h
  split at h
  next text' draft hmodule =>
    simp only [Prod.mk.injEq, Except.ok.injEq] at h
    obtain ⟨rfl, rfl⟩ := h
    obtain ⟨body, d, hbody, hmodule⟩ := bind_eq_ok.mp hmodule
    obtain ⟨d', d₁, hget, hmodule⟩ := bind_eq_ok.mp hmodule
    obtain ⟨rfl, rfl⟩ := EStateM.Result.ok.inj hget
    split at hmodule
    next hresolved =>
      obtain ⟨rfl, rfl⟩ := EStateM.Result.ok.inj hmodule
      exact ⟨body, d, hbody, rfl, List.isEmpty_iff.mp hresolved, rfl⟩
    next => cases hmodule
  next => cases h

/-- **The imports of a module are those that some calls leave.** -/
theorem imports_of_calls (h : assembleWithImports g o group = (.ok text, imports)) :
    ∃ calls, imports = (afterAll o.moduleForFile (.empty o.maxSuffix) calls).entries := by
  obtain ⟨body, d, hbody, rfl, -, -⟩ := emitted_of_assembled h
  have hlasting := Called.lasting ⟨g, group.file, o.moduleForFile⟩ o o.maxSuffix
  obtain ⟨calls, hcalls⟩ := hlasting.emitDeclarations none group.ordered _ body d ⟨[], rfl⟩ hbody
  exact ⟨calls, congrArg _ hcalls⟩

end ProtoBind.Codegen
