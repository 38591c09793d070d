/-
How code is laid out in lines.

A piece of code adds lines to those before it, none of them written further out
than its level (`layoutAll_adds`). So the lines that enclose a line, as its
indentation tells, are those right before the blocks that it stands in
(`Within.enclosed`), and the classes around a class can be read off the lines.
-/
import ProtoBind.Proofs.Codegen.Scopes

namespace ProtoBind.Codegen.Code

/-! ## Indentation -/

/-- The number of blanks at the beginning of a line. -/
def indentOf (line : String) : Nat := (line.toList.takeWhile (· == ' ')).length

/-- There is something on the line besides blanks. -/
def isWritten (line : String) : Bool := line.toList.any (· != ' ')

variable {text : String}

theorem toList_indented (h : text ≠ "") (level : Nat) :
    (indented indentation level text).toList = List.replicate (4 * level) ' ' ++ text.toList := by
  have hpad : ∀ level, (String.join (List.replicate level indentation)).toList = List.replicate (4 * level) ' ' := by
    intro level
    induction level with
    | zero => rfl
    | succ level ih =>
      rw [String.toList_join] at ih ⊢
      rw [List.replicate_succ, List.flatMap_cons, ih, Nat.mul_succ, Nat.add_comm, List.replicate_add]
      rfl
  rw [indented, if_neg (by simpa using h), String.toList_append, hpad]

theorem indentOf_indented (h : text ≠ "") (level : Nat) :
    indentOf (indented indentation level text) = 4 * level + indentOf text := by
  rw [indentOf, toList_indented h, List.takeWhile_append_of_pos fun c hc => by simp [List.eq_of_mem_replicate hc],
    List.length_append, List.length_replicate]
  rfl

theorem isWritten_indented (level : Nat) : isWritten (indented indentation level text) = isWritten text := by
  by_cases h : text = ""
  · rw [h]
    rfl
  · simp [isWritten, toList_indented h]

/-! ## Lines of code -/

/-- No line is written further out than the level. -/
def Inside (level : Nat) (lines : List String) : Prop := ∀ line ∈ lines, isWritten line = true → 4 * level ≤ indentOf line

theorem Inside.append {level : Nat} {a b : List String} (ha : Inside level a) (hb : Inside level b) :
    Inside level (a ++ b) :=
  List.forall_mem_append.mpr ⟨ha, hb⟩

theorem Inside.of_le {level level' : Nat} {lines : List String} (h : Inside level' lines) (hle : level ≤ level') :
    Inside level lines := fun line hline hwritten => by
  have := h line hline hwritten
  omega

theorem indented_inside (level : Nat) (text : String) : Inside level [indented indentation level text] := by
  intro line hline hwritten
  rw [List.mem_singleton.mp hline] at hwritten ⊢
  by_cases h : text = ""
  · rw [h] at hwritten
    cases hwritten
  · rw [indentOf_indented h]
    omega

theorem addBlank_adds (level : Nat) (count : Int) (before : List String) :
    ∃ added, addBlank count before = before ++ added ∧ Inside level added := by
  unfold addBlank
  split
  · exact ⟨[], (List.append_nil _).symm, List.forall_mem_nil _⟩
  · refine ⟨_, rfl, fun line hline hwritten => ?_⟩
    rw [List.eq_of_mem_replicate hline] at hwritten
    cases hwritten

mutual

theorem layout_adds (level : Nat) (before : List String) : ∀ c : Code,
    ∃ added, layout indentation level before c = before ++ added ∧ Inside level added
  | line text => ⟨_, rfl, indented_inside level text⟩
  | blank count => addBlank_adds level count before
  | block body => by
    obtain ⟨added, hadded, hinside⟩ := layoutAll_adds (level + 1) before body
    exact ⟨added, hadded, hinside.of_le (Nat.le_succ level)⟩

/-- Code adds lines, none of them written further out than its level. -/
theorem layoutAll_adds (level : Nat) (before : List String) : ∀ code : List Code,
    ∃ added, layoutAll indentation level before code = before ++ added ∧ Inside level added
  | [] => ⟨[], (List.append_nil _).symm, List.forall_mem_nil _⟩
  | c :: rest => by
    obtain ⟨first, hfirst, hinside⟩ := layout_adds level before c
    obtain ⟨more, hmore, hinside'⟩ := layoutAll_adds level (before ++ first) rest
    exact ⟨first ++ more, by rw [layoutAll, hfirst, hmore, List.append_assoc], hinside.append hinside'⟩

end

theorem layoutAll_append (indent : String) (level : Nat) (b : List Code) : ∀ (a : List Code) (before : List String),
    layoutAll indent level before (a ++ b) = layoutAll indent level (layoutAll indent level before a) b
  | [], _ => rfl
  | _ :: a, _ => layoutAll_append indent level b a _

/-- A line with its block somewhere in code: the lines of the block are laid out behind it, one level further in. -/
theorem layoutAll_block {code body : List Code} (h : [line text, block body] <:+: code) (level : Nat)
    (before : List String) : ∃ above below, Inside level above ∧
      layoutAll indentation level before code = layoutAll indentation (level + 1)
        (before ++ above ++ [indented indentation level text]) body ++ below := by
  obtain ⟨a, b, rfl⟩ := h
  obtain ⟨above, habove, hinside⟩ := layoutAll_adds level before a
  obtain ⟨below, hbelow, -⟩ := layoutAll_adds level
    (layoutAll indentation (level + 1) (before ++ above ++ [indented indentation level text]) body) b
  refine ⟨above, below, hinside, ?_⟩
  rw [layoutAll_append, layoutAll_append, habove, ← hbelow]
  rfl

/-! ## Enclosing lines -/

/-- The lines that enclose what stands behind some lines, the outermost first: going up, each written line that is less
far in than all below it. The lines are given from the last one on. -/
def enclosing : (indent : Nat) → List String → List String
  | _, [] => []
  | indent, l :: above =>
    if isWritten l && decide (indentOf l < indent) then enclosing (indentOf l) above ++ [l]
    else enclosing indent above

theorem enclosing_zero : ∀ above : List String, enclosing 0 above = []
  | [] => rfl
  | _ :: above => by rw [enclosing, if_neg (by simp), enclosing_zero above]

/-- Lines that are as far in enclose nothing. -/
theorem enclosing_inside {level : Nat} {above : List String} : ∀ {added : List String}, Inside level added →
    enclosing (4 * level) (added ++ above) = enclosing (4 * level) above
  | [], _ => rfl
  | l :: added, h => by
    have hline := h l List.mem_cons_self
    rw [List.cons_append, enclosing, if_neg (by simpa using hline),
      enclosing_inside fun l hl => h l (List.mem_cons_of_mem _ hl)]

/-- The class that a line opens. -/
def classOf (line : String) : Option String :=
  wordAfter "class " (String.ofList (line.toList.dropWhile (· == ' ')))

/-- The first line of a class. -/
def classLine (name rest : String) : String := "class " ++ name ++ "(" ++ rest

theorem classLine_toList (name rest : String) : (classLine name rest).toList =
    'c' :: ("lass ".toList ++ name.toList ++ "(".toList ++ rest.toList) := by
  simp [classLine]

theorem classLine_ne_empty (name rest : String) : classLine name rest ≠ "" := fun h => by
  have hlist := classLine_toList name rest
  rw [h] at hlist
  cases hlist

/-- The line of a class at a level. -/
theorem classLine_indented {name : String} (hname : ∀ c ∈ name.toList, isWord c = true) (rest : String) (level : Nat) :
    isWritten (indented indentation level (classLine name rest)) = true ∧
      indentOf (indented indentation level (classLine name rest)) = 4 * level ∧
      classOf (indented indentation level (classLine name rest)) = some name := by
  have hne := classLine_ne_empty name rest
  have hlist := classLine_toList name rest
  refine ⟨?_, ?_, ?_⟩
  · rw [isWritten_indented, isWritten, hlist]
    rfl
  · rw [indentOf_indented hne, indentOf, hlist]
    rfl
  · have hdrop : (indented indentation level (classLine name rest)).toList.dropWhile (· == ' ') =
        (classLine name rest).toList := by
      rw [toList_indented hne, List.dropWhile_append_of_pos fun c hc => by simp [List.eq_of_mem_replicate hc], hlist]
      rfl
    rw [classOf, hdrop, String.ofList_toList]
    exact wordAfter_eq "class " hname rest

/-- Code stands in the classes on a path. -/
inductive Within (part : List Code) : List Code → List String → Prop
  | here {code : List Code} : part <:+: code → Within part code []
  | inside {code body : List Code} {name rest : String} {path : List String} :
    [line (classLine name rest), block body] <:+: code → (∀ c ∈ name.toList, isWord c = true) →
      Within part body path → Within part code (name :: path)

/-- One class further in. -/
theorem Within.into {code part body inner : List Code} {path : List String} {name rest : String}
    (h : Within part code path) (hclass : [line (classLine name rest), block body] <:+: part)
    (hname : ∀ c ∈ name.toList, isWord c = true) (hinner : inner <:+: body) : Within inner code (path ++ [name]) := by
  induction h with
  | here hpart => exact .inside (hclass.trans hpart) hname (.here hinner)
  | inside houter hword _ ih => exact .inside houter hword ih

theorem Within.of_infix {code part inner : List Code} {path : List String} (h : Within part code path)
    (hinner : inner <:+: part) : Within inner code path := by
  induction h with
  | here hpart => exact .here (hinner.trans hpart)
  | inside houter hword _ ih => exact .inside houter hword ih

/-- A line of these opens the class, and the lines that enclose it open the classes on the path, the outermost first. -/
def HasClass (lines : List String) (path : List String) (name : String) : Prop :=
  ∃ above line below, lines = above ++ line :: below ∧ classOf line = some name ∧
    (enclosing (indentOf line) above.reverse).map classOf = path.map some

/-- Behind any lines, a class in the classes on a path is enclosed by what encloses the code and by those classes. -/
theorem Within.enclosed {code part body : List Code} {path : List String} {name rest : String} (h : Within part code path)
    (hclass : [line (classLine name rest), block body] <:+: part) (hname : ∀ c ∈ name.toList, isWord c = true) :
    ∀ (level : Nat) (before : List String), ∃ above opening below,
      layoutAll indentation level before code = before ++ above ++ opening :: below ∧ classOf opening = some name ∧
        ∀ outer, (enclosing (indentOf opening) (above.reverse ++ outer)).map classOf =
          (enclosing (4 * level) outer).map classOf ++ path.map some := by
  induction h with
  | here hpart =>
    intro level before
    obtain ⟨above, below, hinside, hlines⟩ := layoutAll_block (hclass.trans hpart) level before
    obtain ⟨added, hadded, -⟩ := layoutAll_adds (level + 1)
      (before ++ above ++ [indented indentation level (classLine name rest)]) body
    obtain ⟨-, hindent, hopens⟩ := classLine_indented hname rest level
    refine ⟨above, _, added ++ below, ?_, hopens, fun outer => ?_⟩
    · rw [hlines, hadded]
      simp
    · rw [hindent, enclosing_inside fun l hl => hinside l (List.mem_reverse.mp hl), List.map_nil, List.append_nil]
  | @inside code inner name' rest' path houter hword _ ih =>
    intro level before
    obtain ⟨above, below, hinside, hlines⟩ := layoutAll_block houter level before
    obtain ⟨above', opening, below', hlines', hopens, hpath⟩ :=
      ih (level + 1) (before ++ above ++ [indented indentation level (classLine name' rest')])
    obtain ⟨hwritten, hindent, hopens'⟩ := classLine_indented hword rest' level
    refine ⟨above ++ indented indentation level (classLine name' rest') :: above', opening, below' ++ below,
      by rw [hlines, hlines']; simp, hopens, fun outer => ?_⟩
    have houter : enclosing (4 * (level + 1)) (indented indentation level (classLine name' rest') ::
        (above.reverse ++ outer)) = enclosing (4 * level) outer ++ [indented indentation level (classLine name' rest')] := by
      rw [enclosing, if_pos (by rw [hwritten, hindent]; simp), hindent,
        enclosing_inside fun l hl => hinside l (List.mem_reverse.mp hl)]
    have hall := hpath (indented indentation level (classLine name' rest') :: (above.reverse ++ outer))
    rw [houter, List.map_append, List.append_assoc, List.map_singleton, hopens'] at hall
    simpa using hall

/-- The lines of code have the classes that stand in it, whatever stands before. -/
theorem Within.hasClass {code part body : List Code} {path : List String} {name rest : String} (h : Within part code path)
    (hclass : [line (classLine name rest), block body] <:+: part) (hname : ∀ c ∈ name.toList, isWord c = true)
    (before : List String) : HasClass (before ++ lines code) path name := by
  obtain ⟨above, opening, below, hlines, hopens, hpath⟩ := h.enclosed hclass hname 0 []
  refine ⟨before ++ above, opening, below, by simp [lines, hlines], hopens, ?_⟩
  have hall := hpath before.reverse
  rw [Nat.mul_zero, enclosing_zero, List.map_nil, List.nil_append] at hall
  rw [List.reverse_append]
  exact hall

end ProtoBind.Codegen.Code
