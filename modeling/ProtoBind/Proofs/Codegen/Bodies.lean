/-
The bodies of classes and methods.

What code is written with is quiet: names, paths, expressions and numbers have
no colon and no line feed, and no name is a keyword for a block. So the classes
of messages, enums and services are made of lines that open no block, and of
blocks with a line in them, whichever of their fields, groups, values and methods
are missing (`messageClassCode_proper`, `enumCode_proper`, `serviceCode_proper`).
-/
import ProtoBind.Proofs.Codegen.Blocks
import ProtoBind.Proofs.Codegen.Scopes

namespace ProtoBind.Codegen

open Schema Schema.Graph
open Code (Begun Closing Filled Line Proper Quiet Single Usable opensBlock_append quiet_of_word)
open Source (Dotted Identifier)

/-! ## Names and numbers -/

theorem quiet_of_dotted {text : String} (h : Dotted text) : Quiet text := by
  intro c hc
  rcases h c hc with rfl | hrest
  · exact ⟨by decide, by decide⟩
  · exact ⟨fun he => absurd hrest (by rw [he]; decide), fun he => absurd hrest (by rw [he]; decide)⟩

theorem intText_quiet (n : Int) : Quiet (intText n) := by
  have hdigits (k : Nat) : ∀ c ∈ decimalDigits k, c ≠ ':' ∧ c ≠ '\n' := by
    intro c hc
    have hdigit := Source.decimal_digit hc
    exact ⟨fun he => absurd hdigit (by rw [he]; decide), fun he => absurd hdigit (by rw [he]; decide)⟩
  rw [Quiet, intText, String.toList_ofList]
  split
  · exact List.forall_mem_cons.mpr ⟨⟨by decide, by decide⟩, hdigits _⟩
  · exact hdigits _

/-- A guarded name is no keyword. -/
theorem guard_usable {name : String} (h : Identifier name) (reserved : List String) :
    Usable (Naming.guard reserved name) := by
  obtain ⟨c, rest, hname, -⟩ := h.chars
  have hword := isWord_of_word h.word
  unfold Naming.guard
  split
  next =>
    refine ⟨?_, by simp, fun hmem => ?_⟩
    · rw [String.toList_append]
      exact List.forall_mem_append.mpr ⟨hword, List.all_eq_true.mp (by decide)⟩
    · have hlast : ∀ opener ∈ Code.openers, opener.toList.getLast? ≠ some '_' := by decide
      exact hlast _ hmem (by simp)
  next hfree =>
    have hkeywords : ∀ opener ∈ Code.openers, Naming.keywords.contains opener = true := by decide
    refine ⟨hword, fun he => ?_, fun hmem => hfree ?_⟩
    · rw [he] at hname
      cases hname
    · rw [hkeywords name hmem, Bool.true_or]

theorem guard_quiet {name : String} (h : Quiet name) (reserved : List String) : Quiet (Naming.guard reserved name) := by
  unfold Naming.guard
  split
  · exact h.lit rfl rfl
  · exact h

/-! ### Names of declarations -/

section Names

variable {g : Graph} {n : Node} (h : g.Identified) (hn : n ∈ g.nodes)

include h hn

theorem className_quiet : Quiet (className n) := guard_quiet (quiet_of_dotted (h.names n hn)) _

theorem shapeName_quiet : Quiet (shapeName n) := by
  unfold shapeName
  split
  · exact guard_quiet ((.literal rfl rfl : Quiet "I").append (quiet_of_dotted (h.names n hn))) _
  · exact className_quiet h hn

theorem path_quiet : Quiet n.path := (.literal rfl rfl : Quiet ".").append (quiet_of_dotted (h.paths n hn))

theorem identifier_usable (hk : n.kind ≠ .package) : Usable (Naming.identifier n.name) :=
  guard_usable (h.entries n hn hk).name _

end Names

namespace Code.Usable

variable {name text : String}

theorem quiet (h : Usable name) : Quiet name := quiet_of_word h.word

/-- A line that gives a name a value. -/
theorem assigns (h : Usable name) (htext : Quiet text) : Line 0 false (name ++ " = " ++ text) :=
  (h.begun (.literal rfl rfl) ⟨' ', _, rfl, by decide⟩).quiet (opensBlock_append name (by decide)) htext

/-- A line that gives a name a type. -/
theorem annotates (h : Usable name) (htext : Quiet text) : Line 0 false (name ++ ": " ++ text) :=
  (h.begun (.literal rfl rfl) ⟨':', _, rfl, by decide⟩).quiet (opensBlock_append name (by decide)) htext

end Code.Usable

/-! ## Documentation -/

/-- A graph without documentation comments. -/
structure Undocumented (g : Graph) : Prop where
  nodes : ∀ n ∈ g.nodes, n.doc.getD "" = ""
  groups : ∀ n ∈ g.nodes, ∀ group ∈ n.oneofs, group.doc.getD "" = ""
  values : ∀ n ∈ g.nodes, ∀ v ∈ n.enumValues, v.doc.getD "" = ""

instance (g : Graph) : Decidable (Undocumented g) :=
  decidable_of_iff ((∀ n ∈ g.nodes, n.doc.getD "" = "") ∧
      (∀ n ∈ g.nodes, ∀ group ∈ n.oneofs, group.doc.getD "" = "") ∧
      ∀ n ∈ g.nodes, ∀ v ∈ n.enumValues, v.doc.getD "" = "")
    ⟨fun ⟨hnodes, hgroups, hvalues⟩ => ⟨hnodes, hgroups, hvalues⟩, fun h => ⟨h.nodes, h.groups, h.values⟩⟩

theorem docstring_undocumented {doc : Option String} (h : doc.getD "" = "") : docstring doc = [] := by
  rw [docstring, h]
  rfl

theorem comments_undocumented {doc : Option String} (h : doc.getD "" = "") : comments doc = [] := by
  rw [comments, h]
  rfl

/-! ## Fields -/

theorem scalarType_quiet (k : Scalar) : Quiet (scalarType k) := by cases k <;> exact .literal rfl rfl

theorem zeroLiteral_quiet (k : Scalar) : Quiet (zeroLiteral k) := by cases k <;> exact .literal rfl rfl

theorem scalarName_quiet (k : Scalar) : Quiet k.name := by cases k <;> exact .literal rfl rfl

/-- The expressions for an element are quiet. -/
def Element.Quiet : Element → Prop
  | .enum ref => Code.Quiet ref
  | .message ref shape => Code.Quiet ref ∧ Code.Quiet shape
  | .scalar _ | .unresolved => True

namespace Element

variable {e : Element} {typing runtime value : String}

theorem ref_quiet (h : e.Quiet) : Code.Quiet e.ref := by
  cases e with
  | scalar k => exact scalarType_quiet k
  | enum ref => exact h
  | message ref shape => exact h.1
  | unresolved => exact (.literal rfl rfl : Code.Quiet placeholder)

theorem accepted_quiet (h : e.Quiet) (ht : Code.Quiet typing) : Code.Quiet (e.accepted typing) := by
  cases e with
  | scalar k => exact scalarType_quiet k
  | enum ref => exact ((ht.lit rfl rfl).append h).lit rfl rfl
  | message ref shape => exact ((((ht.lit rfl rfl).append h.2).lit rfl rfl).append h.1).lit rfl rfl
  | unresolved => exact (.literal rfl rfl : Code.Quiet placeholder)

theorem read_quiet (h : e.Quiet) (hr : Code.Quiet runtime) : Code.Quiet (e.read runtime) := by
  cases e with
  | scalar k => exact ((.literal rfl rfl : Code.Quiet "reader.").append (scalarName_quiet k)).lit rfl rfl
  | enum ref => exact ((hr.lit rfl rfl).append h).lit rfl rfl
  | message ref shape => exact h.1.lit rfl rfl
  | unresolved => exact (ref_quiet (e := .unresolved) h).lit rfl rfl

theorem convert_quiet (h : e.Quiet) (hr : Code.Quiet runtime) (hv : Code.Quiet value) :
    Code.Quiet (e.convert runtime value) := by
  cases e with
  | scalar k => exact (((scalarType_quiet k).lit rfl rfl).append hv).lit rfl rfl
  | enum ref => exact ((((hr.lit rfl rfl).append h).lit rfl rfl).append hv).lit rfl rfl
  | message ref shape => exact ((h.1.lit rfl rfl).append hv).lit rfl rfl
  | unresolved => exact (((ref_quiet (e := .unresolved) h).lit rfl rfl).append hv).lit rfl rfl

theorem zero_quiet (h : e.Quiet) : Code.Quiet e.zero := by
  cases e with
  | scalar k => exact zeroLiteral_quiet k
  | message ref shape => exact h.1.lit rfl rfl
  | enum | unresolved => exact (.literal rfl rfl : Code.Quiet "0")

end Element

/-- The plan of a field without documentation that can be named. -/
structure FieldPlan.Plain (p : FieldPlan) : Prop where
  attr : Usable p.attr
  doc : p.doc.getD "" = ""
  element : p.element.Quiet

namespace FieldPlan

variable {p : FieldPlan} {typing runtime element : String}

theorem typeWith_quiet (ht : Quiet typing) (he : Quiet element) : Quiet (p.typeWith typing element) := by
  unfold typeWith
  split
  next => exact ((ht.lit rfl rfl).append he).lit rfl rfl
  next key _ =>
    exact ((((ht.lit rfl rfl).append (scalarType_quiet key)).lit rfl rfl).append he).lit rfl rfl
  next =>
    split
    · exact ((ht.lit rfl rfl).append he).lit rfl rfl
    · exact he

namespace Plain

theorem shapeCode (h : p.Plain) (ht : Quiet typing) : Filled (p.shapeCode typing) := by
  rw [FieldPlan.shapeCode, comments_undocumented h.doc]
  exact .line (h.attr.annotates (typeWith_quiet ht (Element.accepted_quiet h.element ht)))

theorem classCode (h : p.Plain) (ht : Quiet typing) : Proper (p.classCode typing) := by
  rw [FieldPlan.classCode, comments_undocumented h.doc]
  exact .line (h.attr.annotates (typeWith_quiet ht (Element.ref_quiet h.element)))

theorem memberCode {group : String} (h : p.Plain) (hr : Quiet runtime) (hg : Quiet group) :
    Proper (p.memberCode runtime group) := by
  have hbegun : Begun false (p.attr ++ " = ") := h.attr.begun (.literal rfl rfl) ⟨' ', _, rfl, by decide⟩
  rw [FieldPlan.memberCode, comments_undocumented h.doc]
  exact .line ((((hbegun.append hr.single).lit rfl rfl).append hg.single).stop rfl rfl)

/-- The code that reads a field. -/
theorem readCode (h : p.Plain) (hr : Quiet runtime) : Filled (p.readCode runtime) := by
  have hread := Element.read_quiet h.element hr
  have hresult : Begun false ("result." ++ p.attr) :=
    (.literal rfl rfl : Begun false "result.").append h.attr.quiet.single
  have happend : Line 0 false ("result." ++ p.attr ++ ".append(" ++ p.element.read runtime ++ ")") :=
    ((hresult.lit rfl rfl).append hread.single).stop rfl rfl
  have hvalue : Begun false "value = " := .literal rfl rfl
  unfold FieldPlan.readCode
  dsimp only
  split
  next key _ =>
    have hkey : Line 0 false ("key = reader." ++ key.name ++ "()") :=
      ((.literal rfl rfl : Begun false "key = reader.").append (scalarName_quiet key).single).stop rfl rfl
    have hzero : Line 0 false ("key = " ++ zeroLiteral key) :=
      (.literal rfl rfl : Begun false "key = ").quiet rfl (zeroLiteral_quiet key)
    have hentry : Filled [.line "entry_tag = reader.uint32()",
        .line "if entry_tag >> 3 == 1:", .block [.line ("key = reader." ++ key.name ++ "()")],
        .line "elif entry_tag >> 3 == 2:", .block [.line ("value = " ++ p.element.read runtime)],
        .line "else:", .block [.line "reader.skip_type(entry_tag & 7)"]] := by
      refine (Filled.line (.literal rfl rfl)).append ?_
      refine (Proper.block (.literal rfl rfl) (.line hkey)).append ?_
      refine (Proper.block (.literal rfl rfl) (.line (hvalue.quiet rfl hread))).append ?_
      exact .block (.literal rfl rfl) (.line (.literal rfl rfl))
    refine (Filled.line (.literal rfl rfl)).append ((Proper.line hzero).append ?_)
    refine (Proper.line (hvalue.quiet rfl (Element.zero_quiet h.element))).append ?_
    exact (Proper.block (.literal rfl rfl) hentry).append (.line (hresult.stop rfl rfl))
  next =>
    split
    · have hpacked : Filled [.line "packed_end = reader.uint32() + reader.pos", .line "while reader.pos < packed_end:",
          .block [.line ("result." ++ p.attr ++ ".append(" ++ p.element.read runtime ++ ")")]] :=
        (Filled.line (.literal rfl rfl)).append (.block (.literal rfl rfl) (.line happend))
      exact (Filled.block (.literal rfl rfl) hpacked).append (.block (.literal rfl rfl) (.line happend))
    · exact .line happend
  next => exact .line ((hresult.lit rfl rfl).quiet (opensBlock_append _ (by decide)) hread)

/-- The code that creates a field. -/
theorem createCode (h : p.Plain) (hr : Quiet runtime) : Proper (p.createCode runtime) := by
  have hattr := h.attr.quiet
  have hsource : Quiet ("properties[\"" ++ p.attr ++ "\"]") :=
    ((.literal rfl rfl : Quiet "properties[\"").append hattr).lit rfl rfl
  have hresult : Begun false ("result." ++ p.attr ++ " = ") :=
    ((.literal rfl rfl : Begun false "result.").append hattr.single).lit rfl rfl
  have hopens : Code.opensBlock ("result." ++ p.attr ++ " = ") = false := opensBlock_append _ (by decide)
  have hgiven : Line 0 true ("if properties.get(\"" ++ p.attr ++ "\") is not None:") :=
    ((.literal rfl rfl : Begun true "if properties.get(\"").append hattr.single).stop rfl rfl
  unfold FieldPlan.createCode
  dsimp only
  refine .block hgiven (.line ?_)
  split
  next =>
    have hitem := Element.convert_quiet h.element hr (.literal rfl rfl : Quiet "item")
    exact hresult.quiet hopens
      (((((.literal rfl rfl : Quiet "[").append hitem).lit rfl rfl).append hsource).lit rfl rfl)
  next key _ =>
    -- The colon behind the key is inside the braces, which end the line.
    have hvalue := Element.convert_quiet h.element hr (.literal rfl rfl : Quiet "value")
    have hkey : Single ("\x7b" ++ scalarType key ++ "(key): ") :=
      ((Single.literal rfl rfl).append (scalarType_quiet key).single).lit rfl rfl
    rw [← String.append_assoc]
    exact (hresult.append (((hkey.append hvalue.single).lit rfl rfl).append hsource.single)).stop rfl rfl
  next => exact hresult.quiet hopens (Element.convert_quiet h.element hr hsource)

end Plain
end FieldPlan

/-! ## Messages -/

variable {g : Graph} {n : Node} {plans : List FieldPlan} {typing runtime reflection enums : String}

theorem branchesCode_proper (hp : ∀ p ∈ plans, p.Plain) (hr : Quiet runtime) {first : String}
    (hfirst : Begun true (first ++ " tag >> 3 == ")) : Proper (branchesCode runtime first plans) := by
  induction plans generalizing first with
  | nil => exact .nil
  | cons p plans ih =>
    obtain ⟨hp, hrest⟩ := List.forall_mem_cons.mp hp
    have hline : Line 0 true (first ++ " tag >> 3 == " ++ intText p.tag ++ ":") :=
      (hfirst.append (intText_quiet p.tag).single).stop rfl rfl
    have helif : Begun true "elif tag >> 3 == " := .literal rfl rfl
    exact (Proper.block hline (hp.readCode hr)).append (ih hrest helif)

/-- The first line of a method that reads. -/
theorem readerLine (hr : Quiet runtime) : Line 0 false ("reader = " ++ runtime ++ ".Reader.create(reader)") :=
  ((.literal rfl rfl : Begun false "reader = ").append hr.single).stop rfl rfl

theorem decodeCode_proper (hp : ∀ p ∈ plans, p.Plain) (hr : Quiet runtime) : Proper (decodeCode runtime plans) := by
  have hskip : Line 0 false "reader.skip_type(tag & 7)" := .literal rfl rfl
  have hif : Begun true ("if" ++ " tag >> 3 == ") := (.literal rfl rfl : Begun true "if tag >> 3 == ")
  have hbranches : Proper (branchesCode runtime "if" plans) := branchesCode_proper hp hr hif
  have htag : Line 0 false "tag = reader.uint32()" := .literal rfl rfl
  have helse : Proper (if plans.isEmpty then [.line "reader.skip_type(tag & 7)"]
      else [.line "else:", .block [.line "reader.skip_type(tag & 7)"]]) := by
    split
    · exact .line hskip
    · exact .block (.literal rfl rfl) (.line hskip)
  have hbody : Filled [.line ("reader = " ++ runtime ++ ".Reader.create(reader)"),
      .line "end = reader.len if length is None else reader.pos + length", .line "result = cls()"] :=
    (Filled.line (readerLine hr)).append ((Proper.line (.literal rfl rfl)).append (.line (.literal rfl rfl)))
  have hrest := (Proper.block (.literal rfl rfl : Line 0 true "while reader.pos < end:")
    (((Filled.line htag).append hbranches).append helse)).append
    (.line (.literal rfl rfl : Line 0 false "return result"))
  exact (Proper.line (.literal rfl rfl)).append (.block (.literal rfl rfl) (hbody.append hrest))

theorem decodeDelimitedCode_proper (hr : Quiet runtime) : Proper (decodeDelimitedCode runtime) :=
  (Proper.line (.literal rfl rfl)).append
    (.block (.literal rfl rfl) ((Filled.line (readerLine hr)).append (.line (.literal rfl rfl))))

theorem createCode_proper (hp : ∀ p ∈ plans, p.Plain) (hr : Quiet runtime) : Proper (createCode runtime plans) := by
  have hreturn : Line 0 false "return result" := .literal rfl rfl
  have hmade : Filled [.line "if isinstance(properties, cls):", .block [.line "return properties"],
      .line "result = cls()"] :=
    (Filled.block (.literal rfl rfl) (.line (.literal rfl rfl))).append (.line (.literal rfl rfl))
  have hempty : Proper (if plans.isEmpty then []
      else [.line "if not properties:", .block [.line "return result"]]) := by
    split
    · exact .nil
    · exact .block (.literal rfl rfl) (.line hreturn)
  have hfields : Proper (plans.flatMap (·.createCode runtime)) := .flatMap fun p hmem => (hp p hmem).createCode hr
  exact (Proper.line (.literal rfl rfl)).append
    (.block (.literal rfl rfl) (((hmade.append hempty).append hfields).append (.line hreturn)))

theorem groupCode_proper (hp : ∀ p ∈ plans, p.Plain) (hr : Quiet runtime) {group : OneofGroup}
    (hname : Identifier group.name) (hdoc : group.doc.getD "" = "") : Proper (groupCode runtime plans group) := by
  have hattr : Usable (Naming.attributeName group.name) := guard_usable hname _
  have hbegun : Begun false (Naming.attributeName group.name ++ " = ") :=
    hattr.begun (.literal rfl rfl) ⟨' ', _, rfl, by decide⟩
  have hmembers : ∀ p ∈ plans.filter (·.oneof == some group.name), p.Plain := fun p hmem =>
    hp p (List.mem_of_mem_filter hmem)
  have hnames : Quiet (Text.join ", " ((plans.filter (·.oneof == some group.name)).map fun p =>
      "\"" ++ p.attr ++ "\"")) := by
    refine Quiet.join (.literal rfl rfl) (List.forall_mem_map.mpr fun p hmem => ?_)
    exact ((.literal rfl rfl : Quiet "\"").append (hmembers p hmem).attr.quiet).lit rfl rfl
  unfold groupCode
  dsimp only
  split
  · exact .nil
  · rw [comments_undocumented hdoc]
    exact ((Proper.blank 1).append (.flatMap fun p hmem => (hmembers p hmem).memberCode hr hattr.quiet)).append
      (.line ((((hbegun.append hr.single).lit rfl rfl).append hnames.single).stop rfl rfl))

/-- The line of a class. -/
theorem classLine_opens {name base rest : String} (hname : Quiet name) (hbase : Quiet base)
    (hrest : Closing true rest) : Line 0 true ("class " ++ name ++ "(" ++ base ++ rest) :=
  ((((.literal rfl rfl : Begun true "class ").append hname.single).lit rfl rfl).append hbase.single).close hrest

/-- The line of a class that refers to its descriptor. -/
theorem reflectionLine {lookup path : String} (hr : Quiet reflection) (hlookup : Quiet lookup) (hpath : Quiet path) :
    Line 0 false ("reflection = " ++ reflection ++ lookup ++ path ++ "\")") :=
  have hgiven : Begun false ("reflection = " ++ reflection) :=
    (.literal rfl rfl : Begun false "reflection = ").append hr.single
  ((hgiven.append hlookup.single).append hpath.single).stop rfl rfl

theorem messageShapeCode_proper (hg : g.Identified) (hu : Undocumented g) (hn : n ∈ g.nodes)
    (hp : ∀ p ∈ plans, p.Plain) (ht : Quiet typing) : Proper (messageShapeCode typing n plans) := by
  rw [messageShapeCode, docstring_undocumented (hu.nodes n hn)]
  exact .block (classLine_opens (shapeName_quiet hg hn) ht (.literal rfl rfl))
    (.orPass fun p hmem => (hp p hmem).shapeCode ht)

theorem messageClassCode_proper {a : Aliases} {nested : List Code} (hg : g.Identified) (hu : Undocumented g)
    (hn : n ∈ g.nodes) (hp : ∀ p ∈ plans, p.Plain) (ht : Quiet a.typing) (hr : Quiet a.runtime)
    (hf : Quiet a.reflection) (hnested : Proper nested) : Proper (messageClassCode a n plans nested) := by
  have hreflection := reflectionLine hf (.literal rfl rfl : Quiet ".root.lookup_type(\"") (path_quiet hg hn)
  have hregular : Proper (if (plans.filter (·.isRegular)).isEmpty then []
      else .blank 1 :: (plans.filter (·.isRegular)).flatMap (·.classCode a.typing)) := by
    split
    · exact .nil
    · exact (Proper.blank 1).append (.flatMap fun p hmem => (hp p (List.mem_of_mem_filter hmem)).classCode ht)
  have hgroups : Proper (n.oneofs.flatMap (groupCode a.runtime plans)) := .flatMap fun group hmem =>
    groupCode_proper hp hr (hg.groups hn group hmem) (hu.groups n hn group hmem)
  rw [messageClassCode, docstring_undocumented (hu.nodes n hn)]
  refine .block (classLine_opens (className_quiet hg hn) hr (.literal rfl rfl)) ?_
  exact ((((((((((Filled.line hreflection).append hregular).append hgroups).append hnested).append (.blank 1)).append
    (decodeCode_proper hp hr)).append (.blank 1)).append (decodeDelimitedCode_proper hr)).append (.blank 1)).append
    (createCode_proper hp hr))

/-! ## Enums, services and extensions -/

theorem enumCode_proper (hg : g.Identified) (hu : Undocumented g) (hn : n ∈ g.nodes) (he : Quiet enums) :
    Proper (enumCode enums n) := by
  have hvalue : ∀ v ∈ n.enumValues, Filled (enumValueCode v) := fun v hv => by
    rw [enumValueCode, comments_undocumented (hu.values n hn v hv)]
    exact .line ((guard_usable (hg.values hn v hv) Naming.enumReserved).assigns (intText_quiet v.number))
  rw [enumCode, docstring_undocumented (hu.nodes n hn)]
  exact .block (classLine_opens (className_quiet hg hn) he (.literal rfl rfl)) (.orPass hvalue)

theorem methodCode_proper {m : Method} {request requestShape response : String} (hdoc : n.doc.getD "" = "")
    (hname : Quiet n.name) (ht : Quiet typing) (hq : Quiet request) (hqs : Quiet requestShape) (hs : Quiet response) :
    Proper (methodCode typing n m request requestShape response) := by
  have hunion : Quiet (typing ++ ".Union[" ++ requestShape ++ ", " ++ request ++ "]") :=
    ((((ht.lit rfl rfl).append hqs).lit rfl rfl).append hq).lit rfl rfl
  have haccepted : Quiet (if m.requestStream then
      typing ++ ".Iterable[" ++ (typing ++ ".Union[" ++ requestShape ++ ", " ++ request ++ "]") ++ "]"
      else typing ++ ".Union[" ++ requestShape ++ ", " ++ request ++ "]") := by
    split
    · exact ((ht.lit rfl rfl).append hunion).lit rfl rfl
    · exact hunion
  have hpassed : Quiet (if m.requestStream then "(" ++ request ++ ".create(item) for item in request)"
      else request ++ ".create(request)") := by
    split
    · exact ((.literal rfl rfl : Quiet "(").append hq).lit rfl rfl
    · exact hq.lit rfl rfl
  have hreturned : Quiet (if m.responseStream then typing ++ ".Iterator[" ++ response ++ "]" else response) := by
    split
    · exact ((ht.lit rfl rfl).append hs).lit rfl rfl
    · exact hs
  have hbegun : Begun true ("def " ++ Naming.methodName (snakeCase n.name) ++ "(self, request: ") :=
    ((.literal rfl rfl : Begun true "def ").append (quiet_of_word (methodName_isWord n.name)).single).lit rfl rfl
  have hmetadata := (((((hbegun.append haccepted.single).append (.literal rfl rfl : Single ", metadata: ")).append
    ht.single).append (.literal rfl rfl : Single ".Optional[")).append ht.single).append
    (.literal rfl rfl : Single ".Mapping[str, str]] = None) -> ")
  have hcall : Begun false ("return self.call(\"" ++ n.name ++ "\", ") :=
    ((.literal rfl rfl : Begun false "return self.call(\"").append hname.single).lit rfl rfl
  rw [methodCode, docstring_undocumented hdoc]
  exact .block ((hmetadata.append hreturned.single).stop rfl rfl)
    (.line ((((hcall.append hpassed.single).lit rfl rfl).append hs.single).stop rfl rfl))

theorem serviceCode_proper {methods : List (List Code)} (hg : g.Identified) (hu : Undocumented g) (hn : n ∈ g.nodes)
    (hr : Quiet runtime) (hf : Quiet reflection) (hmethods : ∀ code ∈ methods, Proper code) :
    Proper (serviceCode runtime reflection n methods) := by
  have hreflection := reflectionLine hf (.literal rfl rfl : Quiet ".root.lookup_service(\"") (path_quiet hg hn)
  rw [serviceCode, docstring_undocumented (hu.nodes n hn)]
  exact .block (classLine_opens (className_quiet hg hn) hr (.literal rfl rfl))
    ((Filled.line hreflection).append (.flatMap fun code hcode => (Proper.blank 1).append (hmethods code hcode)))

end ProtoBind.Codegen
