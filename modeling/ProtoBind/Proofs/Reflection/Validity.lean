/-
Which graphs have a valid document.

The document of every node has the shape of its kind (`nodeJson_conforms`) as
long as the numbers of the fields are positive, and no other shape takes in
the document of a field whose number is not. So validation refuses exactly the
graphs with a field or an extension of number zero (`validation_exact`).
-/
import ProtoBind.Proofs.Reflection.Conformance
import ProtoBind.Proofs.Reflection.Numbers
import ProtoBind.Proofs.Schema.Forest
import ProtoBind.Proofs.Schema.Tags

namespace ProtoBind.Reflection

open Schema (Graph Node OneofGroup EnumValue)
open Message (fieldsOf)

variable {g : Graph} {n p : Node} {f : Schema.Field} {fuel : Nat} {entries nested : List (String × Json)}
  {required : List String} {properties more : List (String × Shape)} {others : Option Shape} {e : String × Json}

/-! ## Objects -/

/-- What stands at a key has the shape for it. -/
def EntryConforms (properties : List (String × Shape)) (others : Option Shape) (e : String × Json) : Prop :=
  ∃ shape, (properties.lookup e.1).or others = some shape ∧ Conforms shape e.2

theorem conforms_record (hpresent : ∀ k ∈ required, (entries.lookup k).isSome)
    (heach : ∀ e ∈ entries, EntryConforms properties others e) :
    Conforms (.record required properties others) (.object entries) := by
  refine .record hpresent (fun e he => ?_) fun e he shape hshape => ?_
  · obtain ⟨shape, hshape, -⟩ := heach e he
    rw [hshape]
    rfl
  · obtain ⟨shape', hshape', hconforms⟩ := heach e he
    obtain rfl : shape' = shape := Option.some.inj (hshape'.symm.trans hshape)
    exact hconforms

theorem conforms_mapping {values : Shape} (h : ∀ e ∈ entries, Conforms values e.2) :
    Conforms (.mapping values) (.object entries) :=
  conforms_record nofun fun e he => ⟨values, rfl, h e he⟩

theorem EntryConforms.append (h : EntryConforms properties none e) : EntryConforms (properties ++ more) none e := by
  obtain ⟨shape, hshape, hconforms⟩ := h
  rw [Option.or_none] at hshape
  refine ⟨shape, ?_, hconforms⟩
  rw [List.lookup_append, hshape]
  rfl

/-! ## Documents of nodes -/

/-- What the descriptor of a field says of the shape of its values. -/
theorem shapeJson_conforms (he : e ∈ shapeJson g n f) : EntryConforms Shape.fieldProperties none e := by
  unfold shapeJson at he
  split at he
  · rcases List.mem_cons.mp he with rfl | he
    · exact ⟨_, rfl, .exactly _⟩
    · split at he
      · obtain rfl := List.mem_singleton.mp he
        exact ⟨_, rfl, .boolean _⟩
      · cases he
  · obtain rfl := List.mem_singleton.mp he
    exact ⟨_, rfl, .text _⟩
  · split at he
    · cases he
    · obtain rfl := List.mem_singleton.mp he
      exact ⟨_, rfl, .any _⟩

/-- The part that the descriptors of fields and extensions have in common. -/
theorem commonJson_conforms (htag : 1 ≤ f.tag)
    (he : e ∈ ("type", Json.string (leafName g f.type.leaf)) :: ("id", .int f.tag) :: shapeJson g n f) :
    EntryConforms Shape.fieldProperties none e := by
  rcases List.mem_cons.mp he with rfl | he
  · exact ⟨_, rfl, .text _⟩
  rcases List.mem_cons.mp he with rfl | he
  · exact ⟨_, rfl, .integer (decide_eq_true htag)⟩
  · exact shapeJson_conforms he

theorem field_conforms (htag : 1 ≤ f.tag) (hextendee : f.extendee = none) :
    Conforms (.definition .field) (fieldJson g n f) := by
  rw [fieldJson_eq, extendJson, hextendee, List.append_nil]
  refine conforms_record (fun k hk => ?_) fun e he => commonJson_conforms htag he
  simp only [List.mem_cons, List.not_mem_nil, or_false] at hk
  rcases hk with rfl | rfl <;> rfl

theorem extension_conforms (htag : 1 ≤ f.tag) (hextendee : f.extendee ≠ none) :
    Conforms (.definition .extension) (fieldJson g n f) := by
  obtain ⟨extendee, hextendee⟩ := Option.ne_none_iff_exists'.mp hextendee
  rw [fieldJson_eq, extendJson, hextendee]
  refine conforms_record (fun k hk => ?_) fun e he => ?_
  · simp only [List.mem_cons, List.not_mem_nil, or_false] at hk
    rcases hk with rfl | rfl | rfl
    · rfl
    · rfl
    · rw [Option.isSome_iff_ne_none, ne_eq, Entries.lookup_eq_none_iff]
      simp
  · rw [← List.cons_append, ← List.cons_append] at he
    rcases List.mem_append.mp he with he | he
    · exact (commonJson_conforms htag he).append
    · obtain rfl := List.mem_singleton.mp he
      exact ⟨_, rfl, .text _⟩

theorem method_conforms (m : Schema.Method) : Conforms (.definition .method) (methodJson g m) := by
  refine conforms_record (fun k hk => ?_) fun e he => ?_
  · simp only [List.mem_cons, List.not_mem_nil, or_false] at hk
    rcases hk with rfl | rfl <;> rfl
  · rcases List.mem_append.mp he with he | he
    · rcases List.mem_append.mp he with he | he
      · simp only [List.mem_cons, List.not_mem_nil, or_false] at he
        rcases he with rfl | rfl <;> exact ⟨_, rfl, .text _⟩
      · split at he
        · obtain rfl := List.mem_singleton.mp he
          exact ⟨_, rfl, .boolean _⟩
        · cases he
    · split at he
      · obtain rfl := List.mem_singleton.mp he
        exact ⟨_, rfl, .boolean _⟩
      · cases he

/-- A group is listed when it has members. -/
theorem oneofs_conform (groups : List OneofGroup) : Conforms (.mapping Shape.oneofShape) (oneofsJson groups) := by
  refine conforms_mapping fun e he => ?_
  obtain ⟨group, hgroup, rfl⟩ := List.mem_map.mp (Entries.mem_ofList he)
  refine conforms_record (fun k hk => ?_) fun e he => ?_
  · rw [List.mem_singleton.mp hk]
    rfl
  · obtain rfl := List.mem_singleton.mp he
    refine ⟨_, rfl, .list ?_ fun j hj => ?_⟩
    · rw [List.length_map]
      exact List.length_pos_iff.mpr (by simpa using (List.mem_filter.mp hgroup).2)
    · obtain ⟨name, -, rfl⟩ := List.mem_map.mp hj
      exact .text name

theorem values_conform (values : List EnumValue) : Conforms (.mapping (.integer none)) (valuesJson values) := by
  refine conforms_mapping fun e he => ?_
  obtain ⟨v, -, rfl⟩ := List.mem_map.mp (Entries.mem_ofList he)
  exact .integer rfl

theorem methods_conform : Conforms (.mapping (.named .method)) (.object (methodsJson g n)) := by
  refine conforms_mapping fun e he => ?_
  rw [methodsJson_eq] at he
  obtain ⟨x, -, rfl⟩ := List.mem_map.mp he
  exact .named (method_conforms x.2)

/-- The shape of the documents of a kind of nodes. -/
def shapeOf : Schema.Kind → ShapeName
  | .package => .package
  | .message => .message
  | .enum => .enum
  | .service => .service
  | .field => .extension
  | .method => .method

theorem shapeOf_mem {k : Schema.Kind} (h : k ≠ .method) : shapeOf k ∈ Shape.innerShapes := by
  cases k <;> first | exact absurd rfl h | decide

/-- The numbers of all fields and extensions are positive. -/
def Numbered (g : Graph) : Prop := ∀ n ∈ g.nodes, ∀ f, n.body = .field f → 1 ≤ f.tag

theorem fields_conform (h : g.Formed) (hnumbers : Numbered g) (hn : n ∈ g.nodes) (hk : n.kind = .message) :
    Conforms (.mapping (.named .field)) (.object (fieldsJson g n)) := by
  refine conforms_mapping fun e he => ?_
  rw [fieldsJson_eq] at he
  obtain ⟨x, hx, rfl⟩ := List.mem_map.mp he
  obtain ⟨hchild, hbody⟩ := mem_fieldsOf.mp hx
  obtain ⟨hc, hparent⟩ := (h.mem_childrenOf hn).mp hchild
  have hholds := h.placed hc hn hparent
  rw [hk, hbody] at hholds
  exact .named (field_conforms (hnumbers _ hc _ hbody) hholds)

theorem nested_conforms (h : ∀ e ∈ nested, ∃ name ∈ Shape.innerShapes, Conforms (.definition name) e.2) :
    Conforms (.named .nested) (.object nested) := by
  refine .named (conforms_mapping fun e he => ?_)
  obtain ⟨name, hname, hconforms⟩ := h e he
  exact .anyOf hname hconforms

/-- The document of a node has the shape of its kind when those inside have one. -/
theorem bodyJson_conforms (h : g.Formed) (hnumbers : Numbered g) (hn : n ∈ g.nodes) (hd : Documented g n)
    (hnested : ∀ e ∈ nested, ∃ name ∈ Shape.innerShapes, Conforms (.definition name) e.2) :
    Conforms (.definition (shapeOf n.kind)) (bodyJson g n nested) := by
  have hinner := nested_conforms hnested
  cases hb : n.body with
  | package =>
    rw [bodyJson, Node.kind, hb]
    refine conforms_record (List.forall_mem_nil _) fun e he => ?_
    obtain rfl := List.mem_singleton.mp he
    exact ⟨_, rfl, hinner⟩
  | message dialect groups =>
    have hk : n.kind = .message := by rw [Node.kind, hb]; rfl
    rw [bodyJson, hk, hb]
    refine conforms_record (fun k hk => ?_) fun e he => ?_
    · rw [List.mem_singleton.mp hk]
      rfl
    · rcases List.mem_append.mp he with he | he
      · rcases List.mem_cons.mp he with rfl | he
        · exact ⟨_, rfl, fields_conform h hnumbers hn hk⟩
        · split at he
          · cases he
          · obtain rfl := List.mem_singleton.mp he
            exact ⟨_, rfl, oneofs_conform groups⟩
      · split at he
        · cases he
        · obtain rfl := List.mem_singleton.mp he
          exact ⟨_, rfl, hinner⟩
  | enum values =>
    rw [bodyJson, Node.kind, hb]
    refine conforms_record (fun k hk => ?_) fun e he => ?_
    · rw [List.mem_singleton.mp hk]
      rfl
    · obtain rfl := List.mem_singleton.mp he
      exact ⟨_, rfl, values_conform values⟩
  | service =>
    rw [bodyJson, Node.kind, hb]
    refine conforms_record (fun k hk => ?_) fun e he => ?_
    · rw [List.mem_singleton.mp hk]
      rfl
    · obtain rfl := List.mem_singleton.mp he
      exact ⟨_, rfl, methods_conform⟩
  | field f =>
    obtain ⟨p, hp, hpk⟩ := hd.2 (by rw [Node.kind, hb]; rfl)
    obtain ⟨hpn, hparent⟩ := h.toArena.parentOf_iff.mp hp
    have hholds := h.placed hn hpn hparent
    rw [hpk, hb] at hholds
    rw [bodyJson, Node.kind, hb]
    exact extension_conforms (hnumbers n hn f hb) hholds.1
  | method m => exact absurd (by rw [Node.kind, hb]; rfl) hd.1

/-- **The document of a node has the shape of its kind.** -/
theorem nodeJson_conforms (h : g.Formed) (hnumbers : Numbered g) : ∀ {fuel : Nat} {n : Node} {j : Json}, n ∈ g.nodes →
    Documented g n → nodeJson g fuel n = .ok j → Conforms (.definition (shapeOf n.kind)) j
  | 0, n, j, _, _, hj => by cases hj
  | fuel + 1, n, j, hn, hd, hj => by
    obtain ⟨nested, hdocs, rfl⟩ := (nodeJson_eq_ok hd.1).mp hj
    refine bodyJson_conforms h hnumbers hn hd fun e he => ?_
    obtain ⟨c, hc, -, hdoc⟩ := forall₂_mem hdocs.flip he
    obtain ⟨hcn, -, hcd⟩ := mem_innerNodes h hn hc
    exact ⟨_, shapeOf_mem hcd.1, nodeJson_conforms h hnumbers hcn hcd hdoc⟩

/-! ## Numbers in valid documents -/

/-- What has a number is no other document inside a package than that of an extension. -/
theorem shape_of_number {name : ShapeName} (h : (Shape.definition name).holds fuel (.object entries) = true)
    (hname : name ∈ Shape.innerShapes) {j : Json} (hid : ("id", j) ∈ entries) : name = .extension := by
  cases name with
  | extension => rfl
  | nested | field | method => simp [Shape.innerShapes] at hname
  | package | message | enum | service =>
    obtain ⟨shape, k, hshape, -⟩ := (holds_record h).2 _ hid
    cases hshape

/-- The extensions in a validated package have positive numbers. -/
theorem Validated.extension_pos (h : Validated g p) (hk : p.kind = .package) (hn : n ∈ innerNodes g p)
    (hb : n.body = .field f) : 1 ≤ f.tag := by
  obtain ⟨fuel, j, k, hj, hholds⟩ := h
  cases fuel with
  | zero => cases hj
  | succ fuel =>
    obtain ⟨nested, hdocs, rfl⟩ := (nodeJson_eq_ok (by rw [hk]; decide)).mp hj
    obtain ⟨e, he, -, hdoc⟩ := forall₂_mem hdocs hn
    obtain ⟨entries, hentries, hnested, -⟩ := @bodyJson_space g p nested (.inl hk)
    rw [hentries] at hholds
    obtain ⟨k', hinner⟩ := holds_inner (.inl hk) hholds (hnested (List.ne_nil_of_mem he))
    obtain ⟨k'', name, hname, hshape⟩ := holds_nested hinner e he
    cases fuel with
    | zero => cases hdoc
    | succ fuel =>
      obtain ⟨nested', -, hbody⟩ := (nodeJson_eq_ok (by simp [Node.kind, hb, Schema.Body.kind])).mp hdoc
      have hdescriptor : e.2 = fieldJson g n f := by rw [hbody, bodyJson, hb]
      rw [hdescriptor, fieldJson_eq] at hshape
      have hid : ("id", Json.int f.tag) ∈ ("type", Json.string (leafName g f.type.leaf)) :: ("id", .int f.tag) ::
          (shapeJson g n f ++ extendJson g f) := List.mem_cons_of_mem _ List.mem_cons_self
      rw [shape_of_number hshape hname hid] at hshape
      obtain ⟨shape, k, hshape, hnumber⟩ := (holds_record hshape).2 _ hid
      obtain rfl : Shape.integer (some 1) = shape := Option.some.inj hshape
      cases k with
      | zero => cases hnumber
      | succ k => simpa [Shape.holds, Shape.isInteger] using hnumber

/-- The fields and extensions of a graph with a valid document have positive numbers. -/
theorem numbered_of_valid (h : g.Formed) {d : Json} (hd : document g = .ok d) (hvalid : isValid d = true) : Numbered g := by
  intro n hn f hb
  have hk : n.kind = .field := by rw [Node.kind, hb]; rfl
  obtain ⟨p, hp⟩ := h.toArena.exists_parentOf hn (by rw [hk]; decide)
  obtain ⟨hpn, hparent⟩ := h.toArena.parentOf_iff.mp hp
  rcases (h.placed hn hpn hparent).kinds with ⟨hpk, -⟩ | ⟨hpk, -⟩ | ⟨-, hmethod⟩
  · have hin : n ∈ innerNodes g p := by
      rw [innerNodes, if_pos (.inl hpk), nestedNodes, List.mem_filter, h.mem_childrenOf hpn]
      exact ⟨⟨hn, hparent⟩, by simp [hpk]⟩
    exact (validated h hd hvalid p.index rfl hpn (.inl hpk)).extension_pos hpk hin hb
  · have hfield : (n, f) ∈ fieldsOf g p := mem_fieldsOf.mpr ⟨(h.mem_childrenOf hpn).mpr ⟨hn, hparent⟩, hb⟩
    exact (validated h hd hvalid p.index rfl hpn (.inr hpk)).number_pos hpk hfield
  · exact absurd (hk.symm.trans hmethod) (by decide)

/-- The document of a graph is valid when the numbers of its fields are positive. -/
theorem document_conforms_iff (h : g.Final) : ∃ d, document g = .ok d ∧ (Conforms (.named .package) d ↔ Numbered g) := by
  obtain ⟨root, hroot, hk, -⟩ := h.root
  have hrm : root ∈ g.nodes := List.mem_of_getElem? hroot
  have hrd : Documented g root := ⟨by rw [hk]; nofun, by rw [hk]; nofun⟩
  obtain ⟨d, hd⟩ := nodeJson_exists h.toFormed hrm hrd (by omega : g.nodes.length < root.index + (g.nodes.length + 1))
  have hdocument : document g = .ok d := by
    rw [document, hroot]
    exact hd
  refine ⟨d, hdocument, fun hconforms => ?_, fun hnumbers => ?_⟩
  · exact numbered_of_valid h.toFormed hdocument (isValid_iff.mpr hconforms)
  · have hconforms := nodeJson_conforms h.toFormed hnumbers hrm hrd hd
    rw [hk] at hconforms
    exact .named hconforms

/-! ## Loaded graphs -/

section Loaded

variable {sources : Schema.Sources} {s : Schema.Loader}

/-- **Validation accepts exactly the graphs with positive numbers.** The document of a loaded graph exists, and it has the
shape of a reflection document exactly when the numbers of all fields and extensions are positive. So the description of
the graph is refused exactly when a field or an extension has the number zero and the parts that are shown as refused can
be written; and it is given exactly when none has the number zero and the document can be written. Where a number is too
long to be written there is neither a refusal nor a description. -/
theorem validation_exact [Source.CharacterNames] (hload : Schema.loadSources sources .empty = .ok g s) :
    ∃ d, document g = .ok d ∧ (isValid d = true ↔ Conforms (.named .package) d) ∧
      (isValid d = true ↔ ∀ n ∈ g.nodes, ∀ f, n.body = .field f → 1 ≤ f.tag) ∧
      (describe g true = .error .invalid ↔ (∃ n ∈ g.nodes, ∃ f, n.body = .field f ∧ f.tag = 0) ∧
        ∀ part ∈ refusedParts d, part.isWritable = true) ∧
      (describe g true = .error .unwritable ↔
        (∃ n ∈ g.nodes, ∃ f, n.body = .field f ∧ f.tag = 0) ∧ (∃ part ∈ refusedParts d, part.isWritable = false) ∨
        (¬ ∃ n ∈ g.nodes, ∃ f, n.body = .field f ∧ f.tag = 0) ∧ d.isWritable = false) ∧
      ∀ t, describe g true = .ok t ↔ (¬ ∃ n ∈ g.nodes, ∃ f, n.body = .field f ∧ f.tag = 0) ∧
        d.isWritable = true ∧ t = d.text ++ "\n" := by
  obtain ⟨d, hd, hconforms⟩ := document_conforms_iff (Schema.loadSources_final Schema.Graph.empty_formed hload)
  have hvalid : isValid d = true ↔ Numbered g := isValid_iff.trans hconforms
  have hzero : (∃ n ∈ g.nodes, ∃ f, n.body = .field f ∧ f.tag = 0) ↔ ¬ isValid d = true := by
    rw [hvalid]
    constructor
    · rintro ⟨n, hn, f, hb, htag⟩ hnumbers
      have hpos := hnumbers n hn f hb
      omega
    · intro hnot
      simp only [Numbered, not_forall] at hnot
      obtain ⟨n, hn, f, hb, htag⟩ := hnot
      have hnonneg := Schema.loadSources_tag_nonneg hload hn hb
      exact ⟨n, hn, f, hb, by omega⟩
  have hparts : (∃ part ∈ refusedParts d, part.isWritable = false) ↔
      ¬ ∀ part ∈ refusedParts d, part.isWritable = true := by simp
  refine ⟨d, hd, isValid_iff, hvalid, ?_⟩
  rw [hzero, hparts, describe_of_document hd]
  cases isValid d with
  | true => cases d.isWritable <;> simp [@eq_comm _ (d.text ++ "\n")]
  | false => by_cases hall : ∀ part ∈ refusedParts d, part.isWritable = true <;> simp [hall]

/-- A message with a field of number zero. -/
def unnumberedFiles : List (String × List Source.Decl) :=
  [("a.proto", [.message "A" [.field ⟨none, "int32", "a", 0, [], 1⟩] 1])]

def unnumbered : Schema.Sources := Schema.printedSources unnumberedFiles

/-- The graph has a field of number zero, and its document has no long number in what is refused of it. -/
def refuses (g : Graph) : Bool :=
  (g.nodes.any fun n => n.field?.any (·.tag == 0)) &&
    (document g).toOption.any fun d => (refusedParts d).all Json.isWritable

theorem unnumbered_checked : succeedsWith (Schema.loadSources unnumbered) .empty refuses = true := by
  unfold Schema.loadSources Schema.loadOne
  rw [Schema.Load.load_eq_known unnumberedFiles (by decide +kernel)]
  decide +kernel

theorem validation_exact_unnumbered : ∃ g s, Schema.loadSources unnumbered .empty = .ok g s ∧
    describe g true = .error .invalid := by
  obtain ⟨g, s, hload, htest⟩ := exists_of_succeedsWith unnumbered_checked
  obtain ⟨hzero, hparts⟩ := (Bool.and_eq_true _ _).mp htest
  obtain ⟨d, hd, -, -, hrefused, -⟩ := validation_exact hload
  refine ⟨g, s, hload, hrefused.mpr ⟨?_, fun part hpart => ?_⟩⟩
  · obtain ⟨n, hn, htag⟩ := List.any_eq_true.mp hzero
    obtain ⟨f, hf, htag⟩ := (Option.any_eq_true _ _).mp htag
    exact ⟨n, hn, f, Node.field?_eq_some_iff.mp hf, beq_iff_eq.mp htag⟩
  · rw [hd] at hparts
    exact List.all_eq_true.mp hparts part hpart

end Loaded

end ProtoBind.Reflection
