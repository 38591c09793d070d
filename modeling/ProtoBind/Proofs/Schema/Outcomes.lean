/-
What becomes of sources.

Loading ends with a resolved graph or with a fault. Nearly every fault is one
of the schema and has a wording. Three kinds have none: a literal that denotes
nothing, a number without a text that a declaration asks the text of, and a
default that is no value of its field's type. Each comes from the sources, and
where there is one they are not loaded (`loadSources_outcomes`). A literal that
denotes half of a surrogate pair (`Source.stringLiteral_surrogate_iff`) is set
apart: it is a fault only as no text here holds it.
-/
import ProtoBind.Proofs.Schema.Failures
import ProtoBind.Proofs.Schema.Printed

namespace ProtoBind.Schema

open Schema.Graph Load

variable {sources : Sources} {find : String → Option String} {s s' : Loader} {g : Graph} {e : LoadFault}
  {fault : ValueFault} {file : String} {stack way : List String}

/-! ## Defaults -/

/-- The explicit default of a field of the graph is none of its type: its scalar kind does not convert it, or it has no
text, where the type is the name of an enum. -/
def HasBadDefault (g : Graph) (fault : ValueFault) (n : Node) : Prop :=
  ∃ f raw, n.body = .field f ∧ f.explicitDefault = some raw ∧
    ((∃ scalar, f.type = .single (.scalar scalar) ∧ scalar.convertDefault raw = .error fault) ∨
      ∃ r i m values, f.type = .single (.reference r) ∧ g.resolve r.name n.parent = some i ∧ g.node? i = some m ∧
        m.body = .enum values ∧ raw.plainText = .error fault)

namespace Graph

theorem setDefaults_error : ∀ {ns : List Node}, (g.setDefaults ns).2 = some fault →
    ∃ n ∈ ns, ∃ f, n.body = .field f ∧ g.defaultOf f = .error fault
  | [], h => by cases h
  | n :: rest, h => by
    have hlater : (g.setDefaults rest).2 = some fault →
        ∃ m ∈ n :: rest, ∃ f, m.body = .field f ∧ g.defaultOf f = .error fault := by
      intro hrest
      obtain ⟨m, hm, hf⟩ := setDefaults_error hrest
      exact ⟨m, List.mem_cons_of_mem n hm, hf⟩
    rw [setDefaults] at h
    split at h
    next f hb =>
      cases hv : g.defaultOf f with
      | error e =>
        rw [hv] at h
        obtain rfl : e = fault := Option.some.inj h
        exact ⟨n, List.mem_cons_self, f, hb, hv⟩
      | ok v =>
        rw [hv] at h
        exact hlater h
    next => exact hlater h

/-- Only explicit defaults of scalar fields are converted, and those of enums looked up. -/
theorem defaultOf_eq_error {f : Field} : g.defaultOf f = .error fault ↔ ∃ raw, f.explicitDefault = some raw ∧
    ((∃ scalar, f.type = .single (.scalar scalar) ∧ scalar.convertDefault raw = .error fault) ∨
      ∃ r i m values, f.type = .single (.reference r) ∧ r.target = some i ∧ g.node? i = some m ∧
        m.body = .enum values ∧ raw.plainText = .error fault) := by
  unfold defaultOf
  constructor
  · intro h
    split at h
    next => cases h
    next => cases h
    next scalar ht =>
      split at h
      next raw hraw => exact ⟨raw, hraw, .inl ⟨scalar, ht, h⟩⟩
      next => cases h
    next r ht =>
      split at h
      next => cases h
      next m hm =>
        obtain ⟨i, hi, hm⟩ := Option.bind_eq_some_iff.mp hm
        split at h
        next values hb =>
          dsimp only at h
          split at h
          next raw hraw =>
            refine ⟨raw, hraw, .inr ⟨r, i, m, values, ht, hi, hm, hb, ?_⟩⟩
            cases hp : raw.plainText with
            | ok name => simp [hp, Except.map] at h
            | error e => simpa [hp, Except.map] using h
          next => cases h
        next => cases h
  · rintro ⟨raw, hraw, ⟨scalar, ht, h⟩ | ⟨r, i, m, values, ht, hi, hm, hb, h⟩⟩
    · rw [ht, hraw]
      exact h
    · simp only [ht, hi, Option.bind_some, hm, hb, hraw, h, Except.map]

/-- Resolution gives references their targets, and leaves enums and explicit defaults as they are. -/
theorem defaultOf_resolvedField {scope : Option Nat} {f : Field} :
    g.resolveAll.defaultOf (g.resolvedField scope f) = .error fault ↔ ∃ raw, f.explicitDefault = some raw ∧
      ((∃ scalar, f.type = .single (.scalar scalar) ∧ scalar.convertDefault raw = .error fault) ∨
        ∃ r i m values, f.type = .single (.reference r) ∧ g.resolve r.name scope = some i ∧ g.node? i = some m ∧
          m.body = .enum values ∧ raw.plainText = .error fault) := by
  have hscalar {scalar : Scalar} : (g.resolvedField scope f).type = .single (.scalar scalar) ↔
      f.type = .single (.scalar scalar) := by
    unfold resolvedField
    rcases f.type with (_ | _) | _ | _ <;> simp [ValueType.withLeaf, ValueType.leaf, resolveLeaf]
  have hreference {i : Nat} : (∃ r, (g.resolvedField scope f).type = .single (.reference r) ∧ r.target = some i) ↔
      ∃ r, f.type = .single (.reference r) ∧ g.resolve r.name scope = some i := by
    unfold resolvedField
    rcases f.type with (_ | _) | _ | _ <;>
      simp [ValueType.withLeaf, ValueType.leaf, resolveLeaf, resolveReference]
  have henum {i : Nat} : (∃ m values, g.resolveAll.node? i = some m ∧ m.body = .enum values) ↔
      ∃ m values, g.node? i = some m ∧ m.body = .enum values := by
    have hnode : g.resolveAll.node? i = (g.node? i).map fun n => { n with body := g.resolveBody n } := by
      simp only [node?, resolveAll, List.getElem?_map]
    have hbody {n : Node} {values : List EnumValue} : g.resolveBody n = .enum values ↔ n.body = .enum values := by
      unfold resolveBody
      cases n.body <;> simp
    rw [hnode]
    cases g.node? i <;> simp [hbody]
  rw [defaultOf_eq_error]
  refine exists_congr fun raw => and_congr_right fun _ => or_congr (by simp only [hscalar]) ?_
  constructor
  · rintro ⟨r, i, m, values, ht, hi, hm, hb, hraw⟩
    obtain ⟨r', ht', hi'⟩ := hreference.mp ⟨r, ht, hi⟩
    obtain ⟨m', values', hm', hb'⟩ := henum.mp ⟨m, values, hm, hb⟩
    exact ⟨r', i, m', values', ht', hi', hm', hb', hraw⟩
  · rintro ⟨r, i, m, values, ht, hi, hm, hb, hraw⟩
    obtain ⟨r', ht', hi'⟩ := hreference.mpr ⟨r, ht, hi⟩
    obtain ⟨m', values', hm', hb'⟩ := henum.mpr ⟨m, values, hm, hb⟩
    exact ⟨r', i, m', values', ht', hi', hm', hb', hraw⟩

/-- A graph that cannot be resolved has a field with a bad default. -/
theorem finalize_error {g' : Graph} (h : g.finalize = (g', .error fault)) :
    ∃ n ∈ g.nodes, HasBadDefault g fault n := by
  have hdefaults : (g.resolveAll.setDefaults g.resolveAll.nodes).2 = some fault := by
    unfold finalize at h
    dsimp only at h
    split at h
    next e he =>
      cases h
      exact he
    next => cases h
  obtain ⟨n, hn, f, hb, hdefault⟩ := setDefaults_error hdefaults
  obtain ⟨n₀, hn₀, rfl⟩ := List.mem_map.mp hn
  obtain ⟨f₀, hb₀, rfl⟩ := resolveBody_field.mp hb
  obtain ⟨raw, hraw, hf⟩ := defaultOf_resolvedField.mp hdefault
  exact ⟨n₀, hn₀, f₀, raw, hb₀, hraw, hf⟩

/-- A field with a bad default keeps a graph from being resolved. -/
theorem finalize_of_bad {n : Node} (hn : n ∈ g.nodes) (hbad : HasBadDefault g fault n) :
    ∃ g' fault', g.finalize = (g', .error fault') := by
  obtain ⟨f, raw, hb, hraw, hf⟩ := hbad
  cases hr : g.finalize with
  | mk g' result =>
    cases result with
    | error fault' => exact ⟨g', fault', rfl⟩
    | ok missing =>
      obtain ⟨v, hv⟩ := finalize_ok_iff.mp ⟨g', missing, hr⟩ n hn f hb
      rw [defaultOf_resolvedField.mpr ⟨raw, hraw, hf⟩] at hv
      cases hv

end Graph

/-! ## Outcomes -/

/-- A fault of a load has a wording, or it is a literal of one of the texts, or a number in one of them is too long. -/
theorem Fails.wording [Source.CharacterNames] (h : Fails find file stack e s) : (∃ message, e.message? = some message) ∨
    (∃ name text fault, find name = some text ∧ Source.parse text = .error (.literal fault) ∧ e = .literal fault) ∨
    ∃ name f, fileAt find name = some f ∧ (∃ d ∈ f.decls, DeclOverlong d) ∧ e = .unwritable := by
  obtain ⟨way, -, -, hcause⟩ := h.left
  cases hcause with
  | literal last read parse => exact .inr (.inl ⟨_, _, _, read, parse, rfl⟩)
  | taken taken =>
    cases taken with
    | name | tag => exact .inl ⟨_, rfl⟩
    | unwritable hlong =>
      obtain ⟨name, f, -, hf, hlong⟩ := hlong
      exact .inr (.inr ⟨name, f, hf, hlong, rfl⟩)
  | _ => exact .inl ⟨_, rfl⟩

namespace Load

theorem finish_eq_error : (∃ s', finish s = .error e s') ↔
    ∃ g fault, s.graph.finalize = (g, .error fault) ∧ e = .badDefault fault := by
  constructor
  · rintro ⟨s', h⟩
    rcases bind_eq_error.mp h with h | ⟨_, _, hget, h⟩
    · cases h
    cases hget
    cases hf : s.graph.finalize with
    | mk g result =>
      rw [hf] at h
      rcases bind_eq_error.mp h with h | ⟨_, s₁, hset, h⟩
      · cases h
      cases hset
      cases result with
      | error fault =>
        cases h
        exact ⟨g, fault, rfl, rfl⟩
      | ok missing =>
        exfalso
        obtain ⟨s₂, hreport⟩ := forIn_report (fun p : Node × String => "Unresolved reference '" ++ p.2 ++ "' in " ++
          p.1.fullName ++ " (" ++ fileText p.1.file ++ ")") missing { s with graph := g }
        rcases bind_eq_error.mp h with h | ⟨_, _, -, h⟩
        · rw [hreport] at h
          cases h
        · cases h
  · rintro ⟨g, fault, hf, rfl⟩
    refine ⟨{ s with graph := g }, ?_⟩
    unfold finish
    rw [bind_of_ok (show (get : Load Loader) s = .ok s s from rfl), hf]
    rfl

/-- A loop of loads fails as one of them does. -/
theorem forIn_fails [Source.CharacterNames] {body : String × String → Load Unit}
    (hbody : ∀ p s, Standing find s → s.loading = [] → Ends find (body p) p.1 [] s) :
    ∀ {xs : Sources} {s : Loader}, Standing find s → s.loading = [] →
      (forIn xs () fun p _ => do body p; pure (.yield ()) : Load Unit) s = .error e s' → ∃ file, Fails find file [] e s'
  | [], s, _, _, hr => by cases hr
  | p :: xs, s, hs, hl, hr => by
    have hends := hbody p s hs hl
    rw [List.forIn_cons] at hr
    rcases bind_eq_error.mp hr with hr | ⟨_, s₁, hstep, hr⟩
    · rcases bind_eq_error.mp hr with hr | ⟨_, _, -, hr⟩
      · exact ⟨p.1, hends.error hr⟩
      · cases hr
    · obtain ⟨_, _, hrun, hstep⟩ := bind_eq_ok.mp hstep
      cases hstep
      obtain ⟨hs₁, hl₁⟩ := hends.ok hrun
      exact forIn_fails hbody hs₁ hl₁ hr

/-- When the sources cannot be loaded, the load of one of them fails. -/
theorem loadEach_fails [Source.CharacterNames] (hr : loadEach sources .empty = .error e s) : ∃ file, Fails
    (textOf sources) file [] e s := by
  refine forIn_fails (fun p s hs hl => ?_) standing_empty rfl hr
  exact hl ▸ load_ends hs (ample_sources sources).enough

/-- A text with a literal that denotes nothing keeps the sources from being loaded. -/
theorem loadEach_of_literal [Source.CharacterNames] {name text : String} {fault : Source.LiteralFault}
    (htext : textOf sources name = some text) (hparse : Source.parse text = .error (.literal fault)) :
    ∃ e s, loadEach sources .empty = .error e s := by
  cases hr : loadEach sources .empty with
  | error e s => exact ⟨e, s, rfl⟩
  | ok u s =>
    obtain ⟨files, -, ho, hall⟩ := loadEach_sound hr
    obtain ⟨f, hf, hname, hread⟩ := ho.present (hall _ (Entries.mem_of_lookup htext))
    rw [fileAt, htext, Option.bind_some, SchemaFile.ofText, hparse] at hread
    cases hread

/-- A declaration that asks for the text of a long number keeps the sources from being loaded. -/
theorem loadEach_of_overlong [Source.CharacterNames] {name : String} {f : SchemaFile} {d : Source.Decl}
    (hf : fileAt (textOf sources) name = some f)
    (hd : d ∈ f.decls) (hlong : DeclOverlong d) : ∃ e s, loadEach sources .empty = .error e s := by
  cases hr : loadEach sources .empty with
  | error e s => exact ⟨e, s, rfl⟩
  | ok u s =>
    obtain ⟨files, -, ho, hall⟩ := loadEach_sound hr
    obtain ⟨text, htext, -⟩ := Option.bind_eq_some_iff.mp hf
    obtain ⟨f', hf', hname, hread⟩ := ho.present (hall _ (Entries.mem_of_lookup htext))
    obtain rfl := Option.some.inj (hf.symm.trans hread)
    exact absurd ((ho.read f hf').2.fits d hd) hlong.not_fits

end Load

/-- **What becomes of sources.** They become a resolved graph, or there is a fault. The fault has a wording, or it is
that of a literal in one of the texts, or that of a number without a text in a declaration of one of the files, or that
of an explicit default that is no value of its field's type; and with such a literal, number or default there is no
graph. A literal that denotes half of a surrogate pair is among the faults as its text is none here. -/
theorem loadSources_outcomes [Source.CharacterNames] (sources : Sources) :
    (∀ g s, loadSources sources .empty = .ok g s → g.finalized = true) ∧
    (∀ e s, loadSources sources .empty = .error e s →
      (∃ message, e.message? = some message) ∨
      (∃ name text fault, textOf sources name = some text ∧ Source.parse text = .error (.literal fault) ∧
        e = .literal fault) ∨
      (∃ name f, fileAt (textOf sources) name = some f ∧ (∃ d ∈ f.decls, DeclOverlong d) ∧ e = .unwritable) ∨
      ∃ s₁, loadEach sources .empty = .ok () s₁ ∧ ∃ n ∈ s₁.graph.nodes, ∃ fault, HasBadDefault s₁.graph fault n ∧
        e = .badDefault fault) ∧
    (∀ name text fault, textOf sources name = some text → Source.parse text = .error (.literal fault) →
      fault.kind ≠ .surrogate → ∃ e s, loadSources sources .empty = .error e s) ∧
    (∀ name f, fileAt (textOf sources) name = some f → (∃ d ∈ f.decls, DeclOverlong d) →
      ∃ e s, loadSources sources .empty = .error e s) ∧
    ∀ s₁, loadEach sources .empty = .ok () s₁ → ∀ n ∈ s₁.graph.nodes, ∀ fault, HasBadDefault s₁.graph fault n →
      ∃ fault s, loadSources sources .empty = .error (.badDefault fault) s := by
  have hfails (h : ∃ e s, loadEach sources .empty = .error e s) : ∃ e s, loadSources sources .empty = .error e s := by
    obtain ⟨e, s, heach⟩ := h
    exact ⟨e, s, by rw [loadSources_eq]; exact bind_eq_error.mpr (.inl heach)⟩
  refine ⟨fun g s hr => ?_, fun e s hr => ?_, fun name text fault htext hparse _ => ?_, fun name f hf hlong => ?_,
    fun s₁ heach n hn fault hbad => ?_⟩
  · obtain ⟨s₁, -, missing, hf⟩ := loadSources_eq_ok.mp ⟨s, hr⟩
    exact (finalize_resolved hf).2.2
  · rw [loadSources_eq] at hr
    rcases bind_eq_error.mp hr with hr | ⟨_, s₁, heach, hr⟩
    · obtain ⟨file, hfails⟩ := loadEach_fails hr
      exact hfails.wording.imp_right (Or.imp_right .inl)
    · obtain ⟨g, fault, hf, rfl⟩ := finish_eq_error.mp ⟨s, hr⟩
      obtain ⟨n, hn, hbad⟩ := finalize_error hf
      exact .inr (.inr (.inr ⟨s₁, heach, n, hn, fault, hbad, rfl⟩))
  · exact hfails (loadEach_of_literal htext hparse)
  · obtain ⟨d, hd, hlong⟩ := hlong
    exact hfails (loadEach_of_overlong hf hd hlong)
  · obtain ⟨g, fault', hf⟩ := finalize_of_bad hn hbad
    obtain ⟨s, hfinish⟩ := finish_eq_error.mpr ⟨g, fault', hf, rfl⟩
    exact ⟨fault', s, by rw [loadSources_eq]; exact bind_eq_error.mpr (.inr ⟨(), s₁, heach, hfinish⟩)⟩

/-- A field whose default is no number. -/
def malformedFiles : List (String × List Source.Decl) :=
  [("a.proto", [.message "A" [.field ⟨some .optional, "int32", "a", 1, [("default", .ident "abc")], 1⟩] 1])]

def malformed : Sources := printedSources malformedFiles

/-- The text is not loaded, and the fault has no wording. -/
theorem malformed_unworded : failsWith (loadSources malformed) .empty (·.message?.isNone) = true := by
  unfold loadSources loadOne
  rw [Load.load_eq_known malformedFiles (by decide +kernel)]
  decide +kernel

/-- What is not loaded does not always fail with a fault of the schema. -/
theorem loadSources_worded_false : ¬ ∀ (sources : Sources) (e : LoadFault) (s : Loader),
    loadSources sources .empty = .error e s → ∃ message, e.message? = some message := by
  intro h
  obtain ⟨e, s, hload, htest⟩ := exists_of_failsWith malformed_unworded
  obtain ⟨message, hmessage⟩ := h malformed e s hload
  rw [hmessage] at htest
  cases htest

end ProtoBind.Schema
