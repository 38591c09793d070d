/-
The names that generated code binds.

A line before a block opens a class or a method, and a line by itself may
assign a variable, so the names that code binds can be read off its lines
(`Code.classNames`, `Code.methodNames`, `Code.variableNames`), and those that the
classes in it bind off their bodies (`Code.classBodies`). The code of a module
binds what its declarations are to bind, and so do the bodies of its classes
(`emitDeclarations_reads`).
-/
import ProtoBind.Proofs.Codegen.Lasting
import ProtoBind.Proofs.Codegen.Plan
import ProtoBind.Proofs.Schema.Declared

namespace ProtoBind.Codegen

open Schema Schema.Graph

/-! ## Reading code -/

namespace Code

/-- The word behind a keyword with which a line begins. -/
def wordAfter (keyword line : String) : Option String :=
  if keyword.toList.isPrefixOf line.toList then
    some (String.ofList ((line.toList.drop keyword.toList.length).takeWhile isWord))
  else none

/-- The variable that a line assigns. -/
def assigned (line : String) : Option String :=
  let word := line.toList.takeWhile isWord
  if " = ".toList.isPrefixOf (line.toList.drop word.length) then some (String.ofList word) else none

/-- The lines with a block right behind them. -/
def headings : List Code → List String
  | line h :: block _ :: rest => h :: headings rest
  | _ :: rest => headings rest
  | [] => []

def classNames (code : List Code) : List String := (headings code).filterMap (wordAfter "class ")

def methodNames (code : List Code) : List String := (headings code).filterMap (wordAfter "def ")

def variableNames (code : List Code) : List String :=
  code.filterMap fun
    | line h => assigned h
    | _ => none

/-- The bodies of the classes in some code, and of the classes in them. -/
def classBodies : List Code → List (List Code)
  | line h :: block body :: rest =>
    (if (wordAfter "class " h).isSome then body :: classBodies body else []) ++ classBodies rest
  | _ :: rest => classBodies rest
  | [] => []

/-- The classes and the methods that code binds. -/
def scope (code : List Code) : List String × List String := (classNames code, methodNames code)

/-- No block stands at the beginning. -/
def Opens (code : List Code) : Prop := ∀ body, code.head? ≠ some (block body)

theorem headings_append : ∀ {a b : List Code}, Opens b → headings (a ++ b) = headings a ++ headings b
  | [], _, _ => rfl
  | [line _], [], _ => rfl
  | [line _], block body :: _, hb => absurd rfl (hb body)
  | [line _], line _ :: _, _ | [line _], blank _ :: _, _ => rfl
  | line h :: block _ :: _, _, hb => congrArg (h :: ·) (headings_append hb)
  | line _ :: line h :: a, _, hb => headings_append (a := line h :: a) hb
  | line _ :: blank k :: a, _, hb => headings_append (a := blank k :: a) hb
  | blank _ :: a, _, hb | block _ :: a, _, hb => headings_append (a := a) hb

theorem classBodies_append : ∀ {a b : List Code}, Opens b → classBodies (a ++ b) = classBodies a ++ classBodies b
  | [], _, _ => by simp [classBodies]
  | [line _], [], _ => by simp [classBodies]
  | [line _], block body :: _, hb => absurd rfl (hb body)
  | [line _], line _ :: _, _ | [line _], blank _ :: _, _ => by simp [classBodies]
  | line _ :: block _ :: a, _, hb => by simp [classBodies, classBodies_append (a := a) hb]
  | line _ :: line h :: a, b, hb => by
    have hrest := classBodies_append (a := line h :: a) hb
    simpa [classBodies] using hrest
  | line _ :: blank k :: a, _, hb => by
    have hrest := classBodies_append (a := blank k :: a) hb
    simpa [classBodies] using hrest
  | blank _ :: a, _, hb | block _ :: a, _, hb => by simp [classBodies, classBodies_append (a := a) hb]

/-- The code binds the classes and the methods, and the bodies of the classes in it have these scopes. -/
structure Reads (code : List Code) (classes methods : List String) (bodies : List (List String × List String)) :
    Prop where
  opens : Opens code
  classes : classNames code = classes
  methods : methodNames code = methods
  bodies : (classBodies code).map scope = bodies

namespace Reads

variable {a b code : List Code} {classes classes' methods methods' : List String}
  {bodies bodies' : List (List String × List String)}

theorem nil : Reads [] [] [] [] := ⟨nofun, rfl, rfl, by simp [classBodies]⟩

theorem append (ha : Reads a classes methods bodies) (hb : Reads b classes' methods' bodies') :
    Reads (a ++ b) (classes ++ classes') (methods ++ methods') (bodies ++ bodies') where
  opens body hbody := by
    rw [List.head?_append, Option.or_eq_some_iff] at hbody
    exact hbody.elim (ha.opens body) fun h => hb.opens body h.2
  classes := by rw [classNames, headings_append hb.opens, List.filterMap_append, ← ha.classes, ← hb.classes]; rfl
  methods := by rw [methodNames, headings_append hb.opens, List.filterMap_append, ← ha.methods, ← hb.methods]; rfl
  bodies := by rw [classBodies_append hb.opens, List.map_append, ha.bodies, hb.bodies]

theorem blank (k : Int) (h : Reads code classes methods bodies) : Reads (.blank k :: code) classes methods bodies where
  opens := nofun
  classes := h.classes
  methods := h.methods
  bodies := by rw [classBodies, h.bodies]; exact nofun

/-- Code without blocks binds no class and no method. -/
theorem flat : ∀ {code : List Code}, (∀ c ∈ code, ∀ body, c ≠ .block body) → Reads code [] [] []
  | [], _ => .nil
  | .blank k :: code, h => .blank k (flat fun c hc => h c (List.mem_cons_of_mem _ hc))
  | .block body :: code, h => absurd rfl (h _ List.mem_cons_self body)
  | .line text :: code, h =>
    have hline : Reads [.line text] [] [] [] := ⟨nofun, rfl, rfl, by simp [classBodies]⟩
    hline.append (flat fun c hc => h c (List.mem_cons_of_mem _ hc))

theorem line (text : String) : Reads [.line text] [] [] [] := flat (by simp)

theorem ofLines (lines : List String) : Reads (Code.ofLines lines) [] [] [] := by
  refine flat fun c hc => ?_
  obtain ⟨text, -, rfl⟩ := List.mem_map.mp hc
  exact nofun

/-- Two pieces that bind nothing. -/
theorem join (ha : Reads a [] [] []) (hb : Reads b [] [] []) : Reads (a ++ b) [] [] [] := ha.append hb

theorem flatMap {α : Type} {f : α → List Code} {names : α → List String} : ∀ {xs : List α},
    (∀ x ∈ xs, Reads (f x) [] (names x) []) → Reads (xs.flatMap f) [] (xs.flatMap names) []
  | [], _ => .nil
  | x :: _, h => (h x List.mem_cons_self).append (flatMap fun y hy => h y (List.mem_cons_of_mem _ hy))

/-- What reads as nothing, any number of times. -/
theorem flatMap_nothing {α : Type} {f : α → List Code} {xs : List α} (h : ∀ x ∈ xs, Reads (f x) [] [] []) :
    Reads (xs.flatMap f) [] [] [] := by
  have hall : Reads (xs.flatMap f) [] (xs.flatMap fun _ => []) [] := flatMap h
  rwa [List.flatMap_eq_nil_iff.mpr fun _ _ => rfl] at hall

end Reads

/-- Behind a word and an opening parenthesis. -/
theorem wordAfter_eq (keyword : String) {name : String} (hname : ∀ c ∈ name.toList, isWord c = true)
    (rest : String) : wordAfter keyword (keyword ++ name ++ "(" ++ rest) = some name := by
  have hlist : (keyword ++ name ++ "(" ++ rest).toList = keyword.toList ++ (name.toList ++ '(' :: rest.toList) := by
    simp
  have hprefix : keyword.toList.isPrefixOf (keyword.toList ++ (name.toList ++ '(' :: rest.toList)) = true :=
    List.isPrefixOf_iff_prefix.mpr (List.prefix_append _ _)
  have hparen : isWord '(' = false := by decide
  rw [wordAfter, hlist, if_pos hprefix, List.drop_left, List.takeWhile_append_of_pos hname,
    List.takeWhile_cons_of_neg (by simp [hparen]), List.append_nil, String.ofList_toList]

theorem wordAfter_eq_none {keyword : String} {k c : Char} {ks cs : List Char} {text : String}
    (hkeyword : keyword.toList = k :: ks) (htext : text.toList = c :: cs) (hne : k ≠ c) : wordAfter keyword text = none := by
  refine if_neg ?_
  rw [hkeyword, htext, List.isPrefixOf, beq_false_of_ne hne, Bool.false_and]
  exact Bool.false_ne_true

/-- A class with its body. -/
theorem Reads.ofClass {name : String} (hname : ∀ c ∈ name.toList, isWord c = true) (rest : String)
    {body : List Code} {classes methods : List String} {bodies : List (List String × List String)}
    (hbody : Reads body classes methods bodies) :
    Reads [.line ("class " ++ name ++ "(" ++ rest), .block body] [name] [] ((classes, methods) :: bodies) := by
  have hclass := wordAfter_eq "class " hname rest
  have hmethod : wordAfter "def " ("class " ++ name ++ "(" ++ rest) = none :=
    wordAfter_eq_none rfl (by simp [String.toList_append]; rfl) (by decide : 'd' ≠ 'c')
  refine ⟨nofun, ?_, ?_, ?_⟩
  · simp [classNames, headings, hclass]
  · simp [methodNames, headings, hmethod]
  · simp [classBodies, hclass, scope, hbody.classes, hbody.methods, hbody.bodies]

/-- A method, whatever stands in its body. -/
theorem Reads.ofMethod {name : String} (hname : ∀ c ∈ name.toList, isWord c = true) (rest : String)
    (body : List Code) : Reads [.line ("def " ++ name ++ "(" ++ rest), .block body] [] [name] [] := by
  have hmethod := wordAfter_eq "def " hname rest
  have hclass : wordAfter "class " ("def " ++ name ++ "(" ++ rest) = none :=
    wordAfter_eq_none rfl (by simp [String.toList_append]; rfl) (by decide : 'c' ≠ 'd')
  refine ⟨nofun, ?_, ?_, ?_⟩
  · simp [classNames, headings, hclass]
  · simp [methodNames, headings, hmethod]
  · simp [classBodies, hclass]

/-- A line with something else than an equals sign behind its first word assigns no variable. -/
theorem assigned_eq_none {line : String} {word rest : List Char} (hword : ∀ x ∈ word, isWord x = true)
    (hend : rest.takeWhile isWord = []) (hne : " = ".toList.isPrefixOf rest = false)
    (hline : line.toList = word ++ rest) : assigned line = none := by
  have htake : line.toList.takeWhile isWord = word := by
    rw [hline, List.takeWhile_append_of_pos hword, hend, List.append_nil]
  unfold assigned
  dsimp only
  rw [htake, hline, List.drop_left, hne]
  exact if_neg Bool.false_ne_true

theorem assigned_eq {name : String} (hname : ∀ x ∈ name.toList, isWord x = true) (rest : String) :
    assigned (name ++ " = " ++ rest) = some name := by
  have hlist : (name ++ " = " ++ rest).toList = name.toList ++ ' ' :: '=' :: ' ' :: rest.toList := by simp
  have hspace : isWord ' ' = false := by decide
  have htake : (name ++ " = " ++ rest).toList.takeWhile isWord = name.toList := by
    rw [hlist, List.takeWhile_append_of_pos hname, List.takeWhile_cons_of_neg (by simp [hspace]), List.append_nil]
  unfold assigned
  dsimp only
  rw [htake, hlist, List.drop_left]
  exact congrArg some (String.ofList_toList)

end Code

/-! ## Names -/

theorem isWord_of_word {s : String} (h : Source.Word s) : ∀ c ∈ s.toList, isWord c = true := h

theorem identifier_isWord {s : String} (h : ∀ c ∈ s.toList, isWord c = true) :
    ∀ c ∈ (Naming.identifier s).toList, isWord c = true := by
  unfold Naming.identifier Naming.guard
  split
  · rw [String.toList_append]
    exact List.forall_mem_append.mpr ⟨h, List.all_eq_true.mp (by decide)⟩
  · exact h

/-- A node that is named by a word. -/
def Worded (n : Node) : Prop := ∀ c ∈ n.name.toList, isWord c = true

variable {g : Graph} {s : Site} {o : Options} {n : Node} {d d' : Draft}

theorem Worded.className (h : Worded n) : ∀ c ∈ (className n).toList, isWord c = true := identifier_isWord h

theorem Worded.shapeName (h : Worded n) : ∀ c ∈ (shapeName n).toList, isWord c = true := by
  unfold Codegen.shapeName
  split
  · refine identifier_isWord ?_
    rw [String.toList_append]
    exact List.forall_mem_append.mpr ⟨List.all_eq_true.mp (by decide), h⟩
  · exact h.className

theorem methodName_isWord (name : String) : ∀ c ∈ (Naming.methodName (snakeCase name)).toList, isWord c = true := by
  have hsnake : ∀ c ∈ (snakeCase name).toList, isWord c = true := by
    rw [snakeCase, String.toList_ofList]
    exact chars_isWord .snakeCase name.toList
  unfold Naming.methodName Naming.guard
  split
  · rw [String.toList_append]
    exact List.forall_mem_append.mpr ⟨hsnake, List.all_eq_true.mp (by decide)⟩
  · exact hsnake

/-! ## Classes -/

namespace Code

/-- The methods of every message class. -/
def messageMethods : List String := ["decode", "decode_delimited", "create"]

theorem enumCode_reads (h : Worded n) (enums : String) : Reads (enumCode enums n) [className n] [] [([], [])] := by
  have hbody : Reads (ofLines (docstring n.doc) ++
      (if !(docstring n.doc).isEmpty && !n.enumValues.isEmpty then [blank 1] else []) ++
      n.enumValues.flatMap enumValueCode ++
      (if (docstring n.doc).isEmpty && n.enumValues.isEmpty then [line "pass"] else [])) [] [] [] := by
    refine (((Reads.ofLines _).join ?_).join (.flatMap_nothing fun v _ => ?_)).join ?_
    · split
      · exact .blank 1 .nil
      · exact .nil
    · exact (Reads.ofLines _).append (.line _)
    · split
      · exact .line _
      · exact .nil
  unfold enumCode
  simpa only [String.append_assoc] using Reads.ofClass h.className (enums ++ ".IntEnum):") hbody

theorem shapeCode_reads (h : Worded n) (typing : String) (plans : List FieldPlan) :
    Reads (messageShapeCode typing n plans) [shapeName n] [] [([], [])] := by
  have hbody : Reads (ofLines (docstring n.doc) ++ plans.flatMap (·.shapeCode typing) ++
      (if (docstring n.doc).isEmpty && plans.isEmpty then [line "pass"] else [])) [] [] [] := by
    refine ((Reads.ofLines _).join (.flatMap_nothing fun p _ => ?_)).join ?_
    · exact (Reads.ofLines _).append (.line _)
    · split
      · exact .line _
      · exact .nil
  unfold messageShapeCode
  simpa only [String.append_assoc] using Reads.ofClass h.shapeName (typing ++ ".TypedDict, total=False):") hbody

theorem groupCode_reads (runtime : String) (plans : List FieldPlan) (group : OneofGroup) :
    Reads (groupCode runtime plans group) [] [] [] := by
  unfold groupCode
  dsimp only
  split
  · exact .nil
  · refine .blank 1 (((Reads.ofLines _).append (.flatMap_nothing fun p _ => ?_)).append (.line _))
    exact (Reads.ofLines _).append (.line _)

theorem classMethod_reads (name : String) (hname : ∀ c ∈ name.toList, isWord c = true) {text : String} (rest : String)
    (htext : text = "def " ++ name ++ "(" ++ rest) (body : List Code) :
    Reads [line "@classmethod", line text, block body] [] [name] [] := by
  rw [htext]
  exact (Reads.line "@classmethod").append (.ofMethod hname rest body)

/-- The class of a message around classes that are nested in it. -/
theorem classCode_reads (h : Worded n) (a : Aliases) (plans : List FieldPlan) {nested : List Code}
    {classes : List String} {bodies : List (List String × List String)} (hnested : Reads nested classes [] bodies) :
    Reads (messageClassCode a n plans nested) [className n] [] ((classes, messageMethods) :: bodies) := by
  have hdecode : Reads (decodeCode a.runtime plans) [] ["decode"] [] :=
    classMethod_reads "decode" (List.all_eq_true.mp (by decide)) "cls, reader, length=None):" rfl _
  have hdelimited : Reads (decodeDelimitedCode a.runtime) [] ["decode_delimited"] [] :=
    classMethod_reads "decode_delimited" (List.all_eq_true.mp (by decide)) "cls, reader):" rfl _
  have hcreate : Reads (createCode a.runtime plans) [] ["create"] [] :=
    classMethod_reads "create" (List.all_eq_true.mp (by decide)) "cls, properties=None):" rfl _
  have hdoc : Reads (if (docstring n.doc).isEmpty then [] else ofLines (docstring n.doc) ++ [blank 1]) [] [] [] := by
    split
    · exact .nil
    · exact (Reads.ofLines _).append (.blank 1 .nil)
  have hregular : Reads (if (plans.filter (·.isRegular)).isEmpty then []
      else blank 1 :: (plans.filter (·.isRegular)).flatMap (·.classCode a.typing)) [] [] [] := by
    split
    · exact .nil
    · exact .blank 1 (.flatMap_nothing fun p _ => (Reads.ofLines _).append (.line _))
  have hgroups : Reads (n.oneofs.flatMap (groupCode a.runtime plans)) [] [] [] :=
    .flatMap_nothing fun group _ => groupCode_reads _ _ _
  have hbody := (((((((((hdoc.append (.line ("reflection = " ++ a.reflection ++ ".root.lookup_type(\"" ++ n.path ++
    "\")"))).append hregular).append hgroups).append hnested).append (.blank 1 .nil)).append hdecode).append
    (.blank 1 .nil)).append hdelimited).append (.blank 1 .nil)).append hcreate
  have hmethods : messageMethods = ["decode"] ++ ["decode_delimited"] ++ ["create"] := rfl
  rw [messageClassCode, hmethods]
  simpa only [String.append_assoc, List.nil_append, List.append_nil] using
    Reads.ofClass h.className (a.runtime ++ ".Message):") hbody

theorem methodCode_reads (typing : String) (n : Node) (m : Method) (request requestShape response : String) :
    Reads (methodCode typing n m request requestShape response) [] [Naming.methodName (snakeCase n.name)] [] := by
  unfold methodCode
  dsimp only
  have hline (rest : String) : "def " ++ Naming.methodName (snakeCase n.name) ++ "(self, request: " ++ rest =
      "def " ++ Naming.methodName (snakeCase n.name) ++ "(" ++ ("self, request: " ++ rest) := by
    simp only [String.append_assoc]
    rfl
  simp only [String.append_assoc] at hline ⊢
  rw [hline]
  simpa only [String.append_assoc] using Reads.ofMethod (methodName_isWord n.name) _ _

theorem serviceCode_reads (h : Worded n) (runtime reflection : String) {methods : List (List Code)}
    {names : List String} (hmethods : Reads (methods.flatMap (blank 1 :: ·)) [] names []) :
    Reads (serviceCode runtime reflection n methods) [className n] [] [([], names)] := by
  have hdoc : Reads (if (docstring n.doc).isEmpty then [] else ofLines (docstring n.doc) ++ [blank 1]) [] [] [] := by
    split
    · exact .nil
    · exact (Reads.ofLines _).append (.blank 1 .nil)
  have hbody := (hdoc.join (.line ("reflection = " ++ reflection ++ ".root.lookup_service(\"" ++ n.path ++
    "\")"))).append hmethods
  unfold serviceCode
  simpa only [String.append_assoc, List.nil_append] using Reads.ofClass h.className (runtime ++ ".Client):") hbody

end Code

/-! ## Emitters -/

open Code (Reads variableNames)

/-- Code that binds these classes and assigns nothing, with statements behind it that assign nothing. -/
structure Emitted.Binds (e : Emitted) (classes : List String) (bodies : List (List String × List String)) : Prop where
  reads : Reads e.code classes [] bodies
  assigns : variableNames e.code = []
  statements : ∀ statement ∈ e.bindings, Code.assigned statement = none

theorem Emitted.Binds.append {e e' : Emitted} {classes classes' : List String}
    {bodies bodies' : List (List String × List String)} (h : e.Binds classes bodies) (h' : e'.Binds classes' bodies') :
    (e.append e').Binds (classes ++ classes') (bodies ++ bodies') where
  reads := h.reads.append h'.reads
  assigns := by
    rw [Emitted.append, variableNames, List.filterMap_append]
    exact List.append_eq_nil_iff.mpr ⟨h.assigns, h'.assigns⟩
  statements := List.forall_mem_append.mpr ⟨h.statements, h'.statements⟩

theorem emitted_empty_binds : Emitted.empty.Binds [] [] := ⟨.nil, rfl, nofun⟩

/-- The classes around a node are those of messages. -/
theorem mem_outerClasses {fuel : Nat} {name : String} (h : name ∈ outerClasses g fuel n) :
    ∃ p ∈ g.nodes, p.kind = .message ∧ name = className p := by
  induction fuel generalizing n with
  | zero => cases h
  | succ fuel ih =>
    rw [outerClasses] at h
    split at h
    next => cases h
    next p hp =>
      split at h
      next hk =>
        obtain ⟨i, -, hi⟩ := Option.bind_eq_some_iff.mp hp
        rcases List.mem_append.mp h with h | h
        · exact ih h
        · exact ⟨p, List.mem_of_getElem? hi, hk, List.mem_singleton.mp h⟩
      next => cases h

theorem outerClasses_isWord (hw : ∀ n ∈ g.nodes, n.kind ≠ .package → Worded n) (fuel : Nat) (n : Node) :
    ∀ name ∈ outerClasses g fuel n, ∀ c ∈ name.toList, isWord c = true := by
  intro name hname
  obtain ⟨p, hp, hk, rfl⟩ := mem_outerClasses hname
  exact (hw p hp (by rw [hk]; decide)).className

theorem toList_join_dot (first : String) (rest : List String) (more : String) :
    ∃ tail, (Text.join "." (first :: rest) ++ "." ++ more).toList = first.toList ++ '.' :: tail := by
  cases rest with
  | nil =>
    refine ⟨more.toList, ?_⟩
    simp [Text.join]
  | cons second rest =>
    refine ⟨(Text.join "." (second :: rest) ++ "." ++ more).toList, ?_⟩
    simp [Text.join, String.toList_append]

/-- The statement that binds an enum assigns an attribute, no variable. -/
theorem enumBinding_assigned (hw : ∀ n ∈ s.graph.nodes, n.kind ≠ .package → Worded n) (hn : Worded n)
    (reflection : String) : Code.assigned (enumBinding s n reflection) = none := by
  let more := "reflection = " ++ reflection ++ ".root.lookup_enum(\"" ++ n.path ++ "\")"
  have hstatement (path : List String) : Text.join "." path ++ ".reflection = " ++ reflection ++
      ".root.lookup_enum(\"" ++ n.path ++ "\")" = Text.join "." path ++ "." ++ more := by
    simp only [more, String.append_assoc]
    rfl
  rw [enumBinding, localPath, pathTo, hstatement]
  have hpath : ∀ name ∈ outerClasses s.graph s.graph.nodes.length n ++ [className n],
      ∀ c ∈ name.toList, isWord c = true :=
    List.forall_mem_append.mpr ⟨outerClasses_isWord hw _ n, fun name hname => List.mem_singleton.mp hname ▸ hn.className⟩
  cases hparts : outerClasses s.graph s.graph.nodes.length n ++ [className n] with
  | nil => simp at hparts
  | cons first rest =>
    rw [hparts] at hpath
    obtain ⟨tail, htail⟩ := toList_join_dot first rest more
    have hdot : isWord '.' = false := by decide
    exact Code.assigned_eq_none (hpath first List.mem_cons_self) (List.takeWhile_cons_of_neg (by simp [hdot])) rfl htail

/-- The line that opens a class assigns nothing. -/
theorem classLine_assigned {name : String} (hname : ∀ c ∈ name.toList, isWord c = true) (rest : String) :
    Code.assigned ("class " ++ name ++ "(" ++ rest) = none := by
  have hline : ("class " ++ name ++ "(" ++ rest).toList =
      "class".toList ++ ' ' :: (name.toList ++ '(' :: rest.toList) := by
    simp
  have hblank : isWord ' ' = false := by decide
  refine Code.assigned_eq_none (List.all_eq_true.mp (by decide)) (List.takeWhile_cons_of_neg (by simp [hblank])) ?_ hline
  -- The name is a word, so no equals sign follows the blank.
  cases hchars : name.toList with
  | nil => rfl
  | cons c cs =>
    have hc : c ≠ '=' := fun he => absurd (hname c (hchars ▸ List.mem_cons_self)) (by rw [he]; decide)
    have hsign : " = ".toList = [' ', '=', ' '] := by decide
    rw [hsign, List.cons_append, List.isPrefixOf, List.isPrefixOf, beq_false_of_ne hc.symm, Bool.false_and,
      Bool.and_false]

theorem emitEnum_binds (hw : ∀ n ∈ s.graph.nodes, n.kind ≠ .package → Worded n) (hn : Worded n) {e : Emitted}
    (h : emitEnum s o n d = .ok e d') : e.Binds [className n] [([], [])] := by
  obtain ⟨enums, d₁, -, h⟩ := bind_eq_ok.mp h
  obtain ⟨_, d₂, -, h⟩ := bind_eq_ok.mp h
  obtain ⟨reflection, d₃, -, h⟩ := bind_eq_ok.mp h
  cases h
  refine ⟨Code.enumCode_reads hn enums, ?_, fun statement hstatement => ?_⟩
  · have hline := classLine_assigned hn.className (enums ++ ".IntEnum):")
    simp only [String.append_assoc] at hline
    simp [variableNames, enumCode, String.append_assoc, hline]
  · rw [List.mem_singleton.mp hstatement]
    exact enumBinding_assigned hw hn reflection

theorem emitEach_binds {f : Node → Emit Emitted} {classes : Node → List String}
    {bodies : Node → List (List String × List String)} {ns : List Node} {e : Emitted}
    (hf : ∀ n ∈ ns, ∀ {e d d'}, f n d = .ok e d' → e.Binds (classes n) (bodies n))
    (h : emitEach f ns d = .ok e d') : e.Binds (ns.flatMap classes) (ns.flatMap bodies) := by
  have hfold : ∀ (ns : List Node) {acc : Emitted} {before : List String} {scopes : List (List String × List String)}
      {d : Draft}, (∀ n ∈ ns, ∀ {e d d'}, f n d = .ok e d' → e.Binds (classes n) (bodies n)) → acc.Binds before scopes →
      (ns.foldlM (fun acc n => do
        let e ← f n
        return acc.append ⟨.blank 1 :: e.code, e.bindings⟩) acc : Emit Emitted) d = .ok e d' →
      e.Binds (before ++ ns.flatMap classes) (scopes ++ ns.flatMap bodies) := by
    intro ns
    induction ns with
    | nil =>
      intro acc before scopes d _ hacc h
      cases h
      simpa using hacc
    | cons n ns ih =>
      intro acc before scopes d hf hacc h
      rw [List.foldlM_cons] at h
      obtain ⟨acc', d₁, hstep, h⟩ := bind_eq_ok.mp h
      obtain ⟨e', d₂, he, hstep⟩ := bind_eq_ok.mp hstep
      cases hstep
      have hbinds := hf n List.mem_cons_self he
      have hone : (Emitted.mk (.blank 1 :: e'.code) e'.bindings).Binds (classes n) (bodies n) :=
        ⟨hbinds.reads.blank 1, hbinds.assigns, hbinds.statements⟩
      rw [List.flatMap_cons, List.flatMap_cons, ← List.append_assoc, ← List.append_assoc]
      exact ih (fun m hm => hf m (List.mem_cons_of_mem _ hm)) (hacc.append hone) h
  exact hfold ns hf emitted_empty_binds h

/-- The classes that an enum or a message becomes. -/
def classesOf (n : Node) : List String := if n.kind = .message then [shapeName n, className n] else [className n]

/-- The declarations that are nested in a message, as they follow in its class. -/
def nested (g : Graph) (n : Node) : List Node := g.childrenOfKind n .enum ++ g.childrenOfKind n .message

/-- The scopes of the classes of a message: its dictionary type, its class, and those of its enums and messages. -/
def messageScopes (g : Graph) : (fuel : Nat) → Node → List (List String × List String)
  | 0, _ => []
  | fuel + 1, n => ([], []) :: ((nested g n).flatMap classesOf, Code.messageMethods) ::
    ((g.childrenOfKind n .enum).flatMap (fun _ => [([], [])]) ++
      (g.childrenOfKind n .message).flatMap (messageScopes g fuel))

/-- What a run over a message emits: its two classes, after the plans of its fields, and in the second one what was
emitted for its enums and then for its messages. -/
theorem emitMessage_ok {fuel : Nat} {spacing : Int} {e : Emitted} (h : emitMessage s o (fuel + 1) spacing n d = .ok e d') :
    ∃ (a : Aliases) (plans : List FieldPlan) (enums messages : Emitted),
      Part (planFields s n) plans d'.imports.entries ∧
      Part (emitEach (emitEnum s o) (s.graph.childrenOfKind n .enum)) enums d'.imports.entries ∧
      Part (emitEach (emitMessage s o fuel 1) (s.graph.childrenOfKind n .message)) messages d'.imports.entries ∧
      e = ⟨messageShapeCode a.typing n plans ++ [.blank spacing] ++
        messageClassCode a n plans (enums.append messages).code, (enums.append messages).bindings⟩ := by
  have hlasting := Extends.lasting s o
  obtain ⟨typing, d₁, -, h⟩ := bind_eq_ok.mp h
  obtain ⟨plans, d₂, hplans, h⟩ := bind_eq_ok.mp h
  obtain ⟨runtime, d₃, hruntime, h⟩ := bind_eq_ok.mp h
  obtain ⟨reflection, d₄, hreflection, h⟩ := bind_eq_ok.mp h
  obtain ⟨enums, d₅, henums, h⟩ := bind_eq_ok.mp h
  obtain ⟨messages, d₆, hmessages, h⟩ := bind_eq_ok.mp h
  obtain ⟨_, d₇, hnumbers, h⟩ := bind_eq_ok.mp h
  cases h
  have hlast : d₆.imports.entries <+: d'.imports.entries := Keeps.extends (fun _ => Lasting.checkNumbers _) hnumbers
  have hmiddle : d₅.imports.entries <+: d'.imports.entries :=
    (Keeps.extends (fun old => Lasting.emitEach ((hlasting old).emitMessage fuel 1) _) hmessages).trans hlast
  have hfirst : d₄.imports.entries <+: d'.imports.entries :=
    (Keeps.extends (fun old => Lasting.emitEach (hlasting old).emitEnum _) henums).trans hmiddle
  have hbefore : d₂.imports.entries <+: d'.imports.entries :=
    ((Keeps.extends (fun old => (hlasting old).runtime) hruntime).trans
      (Keeps.extends (fun old => (hlasting old).reflection) hreflection)).trans hfirst
  exact ⟨⟨typing, runtime, reflection⟩, plans, enums, messages, ⟨_, _, hplans, hbefore⟩, ⟨_, _, henums, hmiddle⟩,
    ⟨_, _, hmessages, hlast⟩, rfl⟩

theorem emitMessage_binds (hg : s.graph.Arena) (hw : ∀ n ∈ s.graph.nodes, n.kind ≠ .package → Worded n) :
    ∀ (fuel : Nat) (spacing : Int) {n : Node} {e : Emitted} {d d' : Draft}, n ∈ s.graph.nodes → n.kind = .message →
      s.graph.nodes.length ≤ fuel + n.index → emitMessage s o fuel spacing n d = .ok e d' →
      e.Binds [shapeName n, className n] (messageScopes s.graph fuel n)
  | 0, spacing, n, e, d, d', hn, _, hfuel, h => by
    have := hg.lt_length hn
    omega
  | fuel + 1, spacing, n, e, d, d', hn, hk, hfuel, h => by
    have hword : Worded n := hw n hn (by rw [hk]; decide)
    obtain ⟨a, plans, enums, messages, -, ⟨d₁, d₂, henums, -⟩, ⟨d₃, d₄, hmessages, -⟩, rfl⟩ := emitMessage_ok h
    have hchild {k : Kind} {c : Node} (hc : c ∈ s.graph.childrenOfKind n k) :
        c ∈ s.graph.nodes ∧ c.kind = k ∧ n.index < c.index := by
      obtain ⟨hc, hck⟩ := List.mem_filter.mp hc
      exact ⟨((hg.mem_childrenOf hn).mp hc).1, beq_iff_eq.mp hck, hg.child_lt hn hc⟩
    have henums : enums.Binds ((s.graph.childrenOfKind n .enum).flatMap classesOf)
        ((s.graph.childrenOfKind n .enum).flatMap fun _ => [([], [])]) :=
      emitEach_binds (fun c hc e d d' h => by
        obtain ⟨hcn, hck, -⟩ := hchild hc
        rw [classesOf, if_neg (by rw [hck]; decide)]
        exact emitEnum_binds hw (hw c hcn (by rw [hck]; decide)) h) henums
    have hmessages : messages.Binds ((s.graph.childrenOfKind n .message).flatMap classesOf)
        ((s.graph.childrenOfKind n .message).flatMap (messageScopes s.graph fuel)) :=
      emitEach_binds (fun c hc e d d' h => by
        obtain ⟨hcn, hck, hlt⟩ := hchild hc
        rw [classesOf, if_pos hck]
        exact emitMessage_binds hg hw fuel 1 hcn hck (by omega) h) hmessages
    have hnested := henums.append hmessages
    rw [← List.flatMap_append] at hnested
    refine ⟨?_, ?_, hnested.statements⟩
    · have hshape := Code.shapeCode_reads hword a.typing plans
      have hclass := Code.classCode_reads hword a plans hnested.reads
      exact (hshape.append (.blank spacing .nil)).append hclass
    · have hshape := classLine_assigned hword.shapeName (a.typing ++ ".TypedDict, total=False):")
      have hclass := classLine_assigned hword.className (a.runtime ++ ".Message):")
      simp only [String.append_assoc] at hshape hclass
      simp [variableNames, messageShapeCode, messageClassCode, String.append_assoc, hshape, hclass]

/-- The methods of the client class of a service. -/
def clientMethods (g : Graph) (n : Node) : List String :=
  (g.childrenOf n).filterMap fun c => c.method?.map fun _ => Naming.methodName (snakeCase c.name)

theorem emitMethod_reads {m : Method} {code : List Code} (h : emitMethod s n m d = .ok code d') :
    Reads code [] [Naming.methodName (snakeCase n.name)] [] := by
  obtain ⟨typing, d₁, -, h⟩ := bind_eq_ok.mp h
  obtain ⟨request, d₂, -, h⟩ := bind_eq_ok.mp h
  obtain ⟨response, d₃, -, h⟩ := bind_eq_ok.mp h
  cases h
  exact Code.methodCode_reads ..

/-- The code of a node if it is a method. -/
def emitMethod? (s : Site) (c : Node) : Emit (Option (List Code)) :=
  match c.method? with
  | some m => do return some (← emitMethod s c m)
  | none => return none

theorem emitService_reads (hn : Worded n) {code : List Code} (h : emitService s o n d = .ok code d') :
    Reads code [className n] [] [([], clientMethods s.graph n)] ∧ variableNames code = [] := by
  have hmethods : ∀ {cs : List Node} {methods : List (List Code)} {d d' : Draft},
      cs.filterMapM (emitMethod? s) d = .ok methods d' →
      Reads (methods.flatMap (.blank 1 :: ·)) []
        (cs.filterMap fun c => c.method?.map fun _ => Naming.methodName (snakeCase c.name)) [] := by
    intro cs
    induction cs with
    | nil =>
      intro methods d d' h
      cases h
      exact .nil
    | cons c cs ih =>
      intro methods d d' h
      rw [List.filterMapM_cons] at h
      obtain ⟨method, d₁, hc, h⟩ := bind_eq_ok.mp h
      unfold emitMethod? at hc
      cases hm : c.method? with
      | none =>
        rw [hm] at hc
        cases hc
        simpa [hm] using ih h
      | some m =>
        rw [hm] at hc
        obtain ⟨code, d₂, hcode, hc⟩ := bind_eq_ok.mp hc
        cases hc
        obtain ⟨rest, d₃, hrest, h⟩ := bind_eq_ok.mp h
        cases h
        simpa [hm] using ((emitMethod_reads hcode).blank 1).append (ih hrest)
  obtain ⟨runtime, d₁, -, h⟩ := bind_eq_ok.mp h
  obtain ⟨reflection, d₂, -, h⟩ := bind_eq_ok.mp h
  obtain ⟨methods, d₃, hall, h⟩ := bind_eq_ok.mp h
  cases h
  refine ⟨Code.serviceCode_reads hn runtime reflection (hmethods hall), ?_⟩
  have hline := classLine_assigned hn.className (runtime ++ ".Client):")
  simp only [String.append_assoc] at hline
  simp [variableNames, serviceCode, String.append_assoc, hline]

/-! ## Declarations -/

/-- The classes that an outermost declaration becomes. -/
def outerClassesOf (n : Node) : List String := if n.kind = .field then [] else classesOf n

/-- The variable that an extension becomes. -/
def variablesOf (n : Node) : List String := if n.kind = .field then [Naming.identifier n.name] else []

/-- The scopes of the classes of an outermost declaration. -/
def scopesOf (g : Graph) (n : Node) : List (List String × List String) :=
  match n.kind with
  | .message => messageScopes g g.nodes.length n
  | .service => [([], clientMethods g n)]
  | .enum => [([], [])]
  | _ => []

theorem withBindings_reads {e : Emitted} {classes : List String} {bodies : List (List String × List String)}
    (h : e.Binds classes bodies) : Reads (withBindings e) classes [] bodies ∧ variableNames (withBindings e) = [] := by
  have hstatements : variableNames (Code.ofLines e.bindings) = [] := by
    rw [variableNames, Code.ofLines, List.filterMap_map]
    exact List.filterMap_eq_nil_iff.mpr h.statements
  unfold withBindings
  split
  · rw [List.append_nil]
    exact ⟨h.reads.blank 2, h.assigns⟩
  · refine ⟨?_, ?_⟩
    · have hall := (h.reads.blank 2).append ((Reads.ofLines e.bindings).blank 2)
      simpa only [List.append_nil] using hall
    · rw [variableNames, List.filterMap_append]
      exact List.append_eq_nil_iff.mpr ⟨h.assigns, hstatements⟩

theorem emitDeclaration_reads (hg : s.graph.Arena) (hw : ∀ n ∈ s.graph.nodes, n.kind ≠ .package → Worded n)
    (hn : n ∈ s.graph.nodes) {previous : Option Kind} {code : List Code}
    (h : emitDeclaration s o previous n d = .ok code d') :
    Reads code (outerClassesOf n) [] (scopesOf s.graph n) ∧ variableNames code = variablesOf n := by
  have hword (hk : n.kind ≠ .package) : Worded n := hw n hn hk
  unfold emitDeclaration at h
  unfold outerClassesOf classesOf variablesOf scopesOf
  unfold Node.kind at hword ⊢
  cases hb : n.body with
  | package | method =>
    rw [hb] at h
    cases h
  | enum values =>
    rw [hb] at h hword
    obtain ⟨e, d₁, he, h⟩ := bind_eq_ok.mp h
    cases h
    exact withBindings_reads (emitEnum_binds hw (hword nofun) he)
  | message dialect groups =>
    rw [hb] at h
    obtain ⟨e, d₁, he, h⟩ := bind_eq_ok.mp h
    cases h
    exact withBindings_reads (emitMessage_binds hg hw _ 2 hn (congrArg Body.kind hb) (Nat.le_add_right _ _) he)
  | service =>
    rw [hb] at h hword
    obtain ⟨code, d₁, he, h⟩ := bind_eq_ok.mp h
    cases h
    obtain ⟨hreads, hvariables⟩ := emitService_reads (hword nofun) he
    exact ⟨hreads.blank 2, hvariables⟩
  | field f =>
    rw [hb] at h hword
    have hrest {d : Draft} (h : (do
        let reflection ← Emit.reflectionAlias o
        return (if previous == some .field then [] else [.blank 2]) ++ [extensionCode reflection n] :
        Emit (List Code)) d = .ok code d') :
        Reads code [] [] [] ∧ variableNames code = [Naming.identifier n.name] := by
      obtain ⟨reflection, d₁, -, h⟩ := bind_eq_ok.mp h
      cases h
      have hassigned := Code.assigned_eq (identifier_isWord (hword nofun))
        (reflection ++ ".root.lookup(\"" ++ n.path ++ "\")")
      simp only [String.append_assoc] at hassigned
      split
      · exact ⟨.line _, by simp [variableNames, extensionCode, String.append_assoc, hassigned]⟩
      · exact ⟨.blank 2 (.line _), by simp [variableNames, extensionCode, String.append_assoc, hassigned]⟩
    dsimp only at h
    cases hl : f.type.leaf with
    | scalar k =>
      rw [hl] at h
      exact hrest h
    | reference r =>
      rw [hl] at h
      obtain ⟨_, d₁, -, h⟩ := bind_eq_ok.mp h
      exact hrest h

/-- **The code of declarations binds what they become**, and so do the bodies of its classes. -/
theorem emitDeclarations_reads (hg : s.graph.Arena) (hw : ∀ n ∈ s.graph.nodes, n.kind ≠ .package → Worded n) :
    ∀ {ns : List Node} {previous : Option Kind} {code : List Code} {d d' : Draft}, (∀ n ∈ ns, n ∈ s.graph.nodes) →
      emitDeclarations s o previous ns d = .ok code d' →
      Reads code (ns.flatMap outerClassesOf) [] (ns.flatMap (scopesOf s.graph)) ∧
        variableNames code = ns.flatMap variablesOf
  | [], _, _, _, _, _, h => by
    cases h
    exact ⟨.nil, rfl⟩
  | n :: ns, previous, code, d, d', hns, h => by
    obtain ⟨first, d₁, hfirst, h⟩ := bind_eq_ok.mp h
    obtain ⟨rest, d₂, hrest, h⟩ := bind_eq_ok.mp h
    cases h
    obtain ⟨hreads, hvariables⟩ := emitDeclaration_reads hg hw (hns n List.mem_cons_self) hfirst
    obtain ⟨hreads', hvariables'⟩ :=
      emitDeclarations_reads hg hw (fun m hm => hns m (List.mem_cons_of_mem _ hm)) hrest
    refine ⟨hreads.append hreads', ?_⟩
    rw [variableNames, List.filterMap_append, List.flatMap_cons, ← hvariables, ← hvariables']
    rfl

end ProtoBind.Codegen
