/-
Code in blocks.

A line that ends with a colon opens a block: the next line is one level further
in, and nowhere else does code go further in (`Blocks`). Code that is made of
lines, and of lines that open a block with something in it, is laid out so at
every level (`Proper.lays`). The lines of a module's text are those of its code
(`textLines_moduleText`).
-/
import Mathlib.Data.List.Chain
import ProtoBind.Codegen.Assembly
import ProtoBind.Proofs.Codegen.Layout
import ProtoBind.Proofs.Source.Printing

namespace ProtoBind.Codegen.Code

/-! ## Lines -/

/-- The keywords of the statements that have a block. -/
def openers : List String := ["class", "def", "if", "elif", "else", "while"]

/-- The word with which the writing on a line begins. -/
def firstWord (line : String) : String :=
  String.ofList ((line.toList.dropWhile (· == ' ')).takeWhile isWord)

/-- The line ends with a colon. -/
def opensBlock (line : String) : Bool := line.toList.getLast? == some ':'

/-- The text is all on one line. -/
def Single (text : String) : Prop := '\n' ∉ text.toList

/-- What is needed of one line at a level: just a line that opens a block has a keyword for it. -/
structure Line (level : Nat) (opening : Bool) (text : String) : Prop where
  single : Single text
  written : isWritten text = true
  indent : indentOf text = 4 * level
  opens : opensBlock text = opening
  keyword : firstWord text ∈ openers ↔ opening = true

/-- A line moved to a level. -/
theorem Line.indented {opening : Bool} {text : String} (h : Line 0 opening text) (level : Nat) :
    Line level opening (indented indentation level text) := by
  have hne : text ≠ "" := by
    rintro rfl
    cases h.written
  have hlist := toList_indented hne level
  refine ⟨?_, (isWritten_indented level).trans h.written, ?_, ?_, ?_⟩
  · rw [Single, hlist, List.mem_append, not_or]
    exact ⟨fun hmem => absurd (List.eq_of_mem_replicate hmem) (by decide), h.single⟩
  · rw [indentOf_indented hne, h.indent, Nat.mul_zero, Nat.add_zero]
  · rw [← h.opens, opensBlock, opensBlock, hlist, List.getLast?_append_of_ne_nil _ (by simpa using hne)]
  · rw [← h.keyword, firstWord, firstWord, hlist,
      List.dropWhile_append_of_pos fun c hc => by simp [List.eq_of_mem_replicate hc]]

/-! ### Parts of lines -/

theorem Single.append {a b : String} (ha : Single a) (hb : Single b) : Single (a ++ b) := by
  rw [Single, String.toList_append, List.mem_append, not_or]
  exact ⟨ha, hb⟩

/-- Neither a colon nor a line feed is in the text. -/
def Quiet (text : String) : Prop := ∀ c ∈ text.toList, c ≠ ':' ∧ c ≠ '\n'

theorem Quiet.append {a b : String} (ha : Quiet a) (hb : Quiet b) : Quiet (a ++ b) := by
  rw [Quiet, String.toList_append]
  exact List.forall_mem_append.mpr ⟨ha, hb⟩

theorem Quiet.join {separator : String} (hseparator : Quiet separator) : ∀ {parts : List String},
    (∀ part ∈ parts, Quiet part) → Quiet (Text.join separator parts)
  | [], _ => by simp [Text.join, Quiet]
  | [part], h => by simpa [Text.join] using h
  | part :: next :: rest, h => by
    rw [List.forall_mem_cons] at h
    rw [Text.join, String.intercalate_cons_of_ne_nil (List.cons_ne_nil next rest)]
    exact (h.1.append hseparator).append (hseparator.join h.2)

theorem Quiet.single {text : String} (h : Quiet text) : Single text := fun hmem => (h _ hmem).2 rfl

theorem Quiet.opensBlock {text : String} (h : Quiet text) : opensBlock text = false := by
  rw [Code.opensBlock, beq_eq_false_iff_ne]
  exact fun hlast => (h _ (List.mem_of_getLast? hlast)).1 rfl

theorem quiet_of_word {text : String} (h : ∀ c ∈ text.toList, isWord c = true) : Quiet text := fun c hc =>
  ⟨fun he => absurd (h c hc) (by rw [he]; decide), fun he => absurd (h c hc) (by rw [he]; decide)⟩

/-- The end of a line is that of its last part. -/
theorem opensBlock_append (a : String) {b : String} (hb : b ≠ "") : opensBlock (a ++ b) = opensBlock b := by
  rw [opensBlock, opensBlock, String.toList_append, List.getLast?_append_of_ne_nil _ (by simpa using hb)]

/-- The end of a line: its last character, without a line feed before it. -/
structure Closing (opening : Bool) (text : String) : Prop where
  single : Single text
  ne_empty : text ≠ ""
  opens : opensBlock text = opening

/-- The beginning of a line, with something behind its first word. -/
structure Begun (opening : Bool) (text : String) : Prop where
  single : Single text
  indent : indentOf text = 0
  broken : text.toList.any (!isWord ·) = true
  keyword : firstWord text ∈ openers ↔ opening = true

namespace Begun

variable {opening : Bool} {a b : String}

/-- The first character of a line that begins at no blank. -/
theorem head (h : Begun opening a) : ∃ c rest, a.toList = c :: rest ∧ c ≠ ' ' := by
  have hindent := h.indent
  have hbroken := h.broken
  rw [indentOf] at hindent
  cases ha : a.toList with
  | nil =>
    rw [ha] at hbroken
    cases hbroken
  | cons c rest =>
    refine ⟨c, rest, rfl, fun hc => ?_⟩
    rw [ha, hc] at hindent
    cases hindent

theorem append (h : Begun opening a) (hb : Single b) : Begun opening (a ++ b) := by
  obtain ⟨c, rest, ha, hc⟩ := h.head
  have hlist : (a ++ b).toList = c :: (rest ++ b.toList) := by rw [String.toList_append, ha, List.cons_append]
  have hword : firstWord (a ++ b) = firstWord a := by
    have hlength : ((c :: rest).takeWhile isWord).length ≠ (c :: rest).length := by
      intro hlength
      have hall := List.takeWhile_eq_self_iff.mp ((List.takeWhile_prefix isWord).eq_of_length hlength)
      obtain ⟨x, hx, hnot⟩ := List.any_eq_true.mp (ha ▸ h.broken)
      rw [hall x hx] at hnot
      cases hnot
    rw [firstWord, firstWord, hlist, ha, List.dropWhile_cons_of_neg (by simpa using hc),
      List.dropWhile_cons_of_neg (by simpa using hc), ← List.cons_append, List.takeWhile_append, if_neg hlength]
  refine ⟨h.single.append hb, ?_, ?_, ?_⟩
  · rw [indentOf, hlist, List.takeWhile_cons_of_neg (by simpa using hc)]
    rfl
  · rw [String.toList_append, List.any_append, h.broken]
    rfl
  · rw [hword, h.keyword]

theorem line (h : Begun opening a) (hopens : opensBlock a = opening) : Line 0 opening a := by
  obtain ⟨c, rest, ha, hc⟩ := h.head
  refine ⟨h.single, ?_, h.indent, hopens, h.keyword⟩
  rw [isWritten, ha]
  simp [hc]

/-- A line with its end. -/
theorem close (h : Begun opening a) (hb : Closing opening b) : Line 0 opening (a ++ b) :=
  (h.append hb.single).line ((opensBlock_append a hb.ne_empty).trans hb.opens)

/-- A line that ends in something quiet. -/
theorem quiet (h : Begun false a) (ha : opensBlock a = false) (hb : Quiet b) : Line 0 false (a ++ b) := by
  refine (h.append hb.single).line ?_
  by_cases he : b = ""
  · rwa [he, String.append_empty]
  · rw [opensBlock_append a he, hb.opensBlock]

end Begun

/-- A word that is no keyword for a block. -/
structure Usable (name : String) : Prop where
  word : ∀ c ∈ name.toList, isWord c = true
  ne_empty : name ≠ ""
  notMem : name ∉ openers

/-- A line that begins with a name. -/
theorem Usable.begun {name rest : String} (h : Usable name) (hsingle : Single rest)
    (hrest : ∃ c cs, rest.toList = c :: cs ∧ isWord c = false) : Begun false (name ++ rest) := by
  obtain ⟨c, cs, hcs, hc⟩ := hrest
  have hlist : (name ++ rest).toList = name.toList ++ c :: cs := by rw [String.toList_append, hcs]
  obtain ⟨x, xs, hname⟩ := List.exists_cons_of_ne_nil (fun he => h.ne_empty (String.toList_eq_nil_iff.mp he))
  have hx : x ≠ ' ' := fun he => absurd (h.word x (hname ▸ List.mem_cons_self)) (by rw [he]; decide)
  refine ⟨(quiet_of_word h.word).single.append hsingle, ?_, ?_, iff_of_false ?_ Bool.false_ne_true⟩
  · rw [indentOf, hlist, hname, List.cons_append, List.takeWhile_cons_of_neg (by simpa using hx)]
    rfl
  · rw [hlist, List.any_append, List.any_cons, hc]
    simp
  · have hword : firstWord (name ++ rest) = name := by
      rw [firstWord, hlist, hname, List.cons_append, List.dropWhile_cons_of_neg (by simpa using hx), ← List.cons_append,
        ← hname, List.takeWhile_append_of_pos h.word, List.takeWhile_cons_of_neg (by simp [hc]), List.append_nil,
        String.ofList_toList]
    rw [hword]
    exact h.notMem

/-! ### Literals

A literal is checked on its characters. -/

variable {opening : Bool} {text : String} {cs : List Char}

theorem toList_literal (h : String.ofList cs = text) : text.toList = cs := by rw [← h, String.toList_ofList]

theorem Single.literal (h : String.ofList cs = text) (hcs : cs.contains '\n' = false) : Single text := by
  rw [Single, toList_literal h]
  simpa using hcs

theorem Quiet.literal (h : String.ofList cs = text) (hcs : cs.all (fun c => c != ':' && c != '\n') = true) :
    Quiet text := by
  rw [Quiet, toList_literal h]
  simpa using hcs

/-- The characters are on one line and end with a colon just when they are to. -/
def endsLine (opening : Bool) (cs : List Char) : Bool :=
  !cs.contains '\n' && !cs.isEmpty && (cs.getLast? == some ':') == opening

theorem Closing.literal (h : String.ofList cs = text) (hcs : endsLine opening cs = true) : Closing opening text := by
  simp only [endsLine, Bool.and_eq_true, Bool.not_eq_true', beq_iff_eq] at hcs
  refine ⟨Single.literal h hcs.1.1, fun he => ?_, by rw [opensBlock, toList_literal h, hcs.2]⟩
  obtain rfl : cs = [] := by rw [← toList_literal h, he]; rfl
  cases hcs.1.2

/-- With a literal behind. -/
theorem Single.lit {a : String} (ha : Single a) (h : String.ofList cs = text) (hcs : cs.contains '\n' = false) :
    Single (a ++ text) :=
  ha.append (.literal h hcs)

theorem Quiet.lit {a : String} (ha : Quiet a) (h : String.ofList cs = text)
    (hcs : cs.all (fun c => c != ':' && c != '\n') = true) : Quiet (a ++ text) :=
  ha.append (.literal h hcs)

theorem Begun.lit {a : String} (ha : Begun opening a) (h : String.ofList cs = text) (hcs : cs.contains '\n' = false) :
    Begun opening (a ++ text) :=
  ha.append (.literal h hcs)

/-- The characters begin with no blank, and with a keyword for a block just when they are to. -/
def startsLine (opening : Bool) (cs : List Char) : Bool :=
  cs.head?.any (· != ' ') && (openers.contains (String.ofList (cs.takeWhile isWord))) == opening

theorem startsLine_spec (h : String.ofList cs = text) (hcs : startsLine opening cs = true) :
    isWritten text = true ∧ indentOf text = 0 ∧ (firstWord text ∈ openers ↔ opening = true) := by
  rw [isWritten, indentOf, firstWord, toList_literal h]
  cases cs with
  | nil => cases hcs
  | cons c cs =>
    simp only [startsLine, List.head?_cons, Option.any_some, Bool.and_eq_true, bne_iff_ne, beq_iff_eq] at hcs
    obtain ⟨hc, hword⟩ := hcs
    rw [List.takeWhile_cons_of_neg (by simpa using hc), List.dropWhile_cons_of_neg (by simpa using hc), ← hword]
    exact ⟨by simp [hc], rfl, by simp⟩

theorem Line.literal (h : String.ofList cs = text)
    (hcs : (!cs.contains '\n' && (cs.getLast? == some ':') == opening && startsLine opening cs) = true) :
    Line 0 opening text := by
  simp only [Bool.and_eq_true, Bool.not_eq_true', beq_iff_eq] at hcs
  obtain ⟨hwritten, hindent, hkeyword⟩ := startsLine_spec h hcs.2
  exact ⟨Single.literal h hcs.1.1, hwritten, hindent, by rw [opensBlock, toList_literal h, hcs.1.2], hkeyword⟩

theorem Begun.literal (h : String.ofList cs = text)
    (hcs : (!cs.contains '\n' && cs.any (!isWord ·) && startsLine opening cs) = true) : Begun opening text := by
  simp only [Bool.and_eq_true, Bool.not_eq_true'] at hcs
  obtain ⟨-, hindent, hkeyword⟩ := startsLine_spec h hcs.2
  exact ⟨Single.literal h hcs.1.1, hindent, by rw [toList_literal h, hcs.1.2], hkeyword⟩

/-- A line that ends in a literal. -/
theorem Begun.stop {a : String} (ha : Begun opening a) (h : String.ofList cs = text)
    (hcs : endsLine opening cs = true) : Line 0 opening (a ++ text) :=
  ha.close (.literal h hcs)

/-! ## Blocks -/

/-- Behind a line that opens a block the next is one level further in, and behind any other it is no further in. -/
def Follows (line next : String) : Prop :=
  if opensBlock line then indentOf next = indentOf line + 4 else indentOf next ≤ indentOf line

/-- Written lines from a level on, in blocks: the first is at the level, each goes by the one before, and the last opens
no block. -/
structure Blocks (level : Nat) (lines : List String) : Prop where
  first : ∀ line ∈ lines.head?, indentOf line = 4 * level
  levels : ∀ line ∈ lines, 4 ∣ indentOf line ∧ 4 * level ≤ indentOf line
  follows : lines.IsChain Follows
  last : ∀ line ∈ lines.getLast?, opensBlock line = false
  keywords : ∀ line ∈ lines, opensBlock line = true ↔ firstWord line ∈ openers

namespace Blocks

variable {level : Nat} {lines more : List String} {text : String}

theorem nil (level : Nat) : Blocks level [] := ⟨nofun, nofun, .nil, nofun, nofun⟩

theorem line (h : Line level false text) : Blocks level [text] where
  first _ hline := Option.some.inj hline ▸ h.indent
  levels _ hline := by
    rw [List.mem_singleton.mp hline, h.indent]
    exact ⟨Nat.dvd_mul_right _ _, Nat.le_refl _⟩
  follows := .singleton text
  last _ hline := Option.some.inj hline ▸ h.opens
  keywords _ hline := by rw [List.mem_singleton.mp hline, h.opens, h.keyword]

/-- A line that opens a block, with what stands in the block. -/
theorem block (h : Line level true text) (hbody : Blocks (level + 1) lines) (hne : lines ≠ []) :
    Blocks level (text :: lines) where
  first _ hline := Option.some.inj hline ▸ h.indent
  levels := by
    refine List.forall_mem_cons.mpr ⟨?_, fun line hline => ?_⟩
    · rw [h.indent]
      exact ⟨Nat.dvd_mul_right _ _, Nat.le_refl _⟩
    · obtain ⟨hdvd, hle⟩ := hbody.levels line hline
      exact ⟨hdvd, by omega⟩
  follows := by
    refine List.isChain_cons.mpr ⟨fun line hline => ?_, hbody.follows⟩
    rw [Follows, if_pos h.opens, hbody.first line hline, h.indent, Nat.mul_add_one]
  last := by
    rw [List.getLast?_cons_of_ne_nil hne]
    exact hbody.last
  keywords := List.forall_mem_cons.mpr ⟨by rw [h.opens, h.keyword], hbody.keywords⟩

/-- What is at one level, one behind the other. -/
theorem append (h : Blocks level lines) (h' : Blocks level more) : Blocks level (lines ++ more) where
  first line hline := by
    rw [List.head?_append, Option.mem_def, Option.or_eq_some_iff] at hline
    exact hline.elim (h.first line) fun hline => h'.first line hline.2
  levels := List.forall_mem_append.mpr ⟨h.levels, h'.levels⟩
  follows := by
    refine List.isChain_append.mpr ⟨h.follows, h'.follows, fun line hline next hnext => ?_⟩
    rw [Follows, if_neg (by rw [h.last line hline]; decide), h'.first next hnext]
    exact (h.levels line (List.mem_of_getLast? hline)).2
  last line hline := by
    rw [List.getLast?_append, Option.mem_def, Option.or_eq_some_iff] at hline
    exact hline.elim (h'.last line) fun hline => h.last line hline.2
  keywords := List.forall_mem_append.mpr ⟨h.keywords, h'.keywords⟩

end Blocks

/-! ## Code -/

/-- There is a line in the code, and not just in the blocks in it. -/
def HasLine (code : List Code) : Prop := ∃ text, line text ∈ code

/-- Code of lines, and of lines that open a block with a line in it. -/
inductive Proper : List Code → Prop
  | nil : Proper []
  | blank (count : Int) : Proper [blank count]
  | line {text : String} : Line 0 false text → Proper [line text]
  | opening {text : String} {body : List Code} : Line 0 true text → Proper body → HasLine body →
    Proper [Code.line text, Code.block body]
  | append {a b : List Code} : Proper a → Proper b → Proper (a ++ b)

/-- Proper code that can be the body of a block. -/
structure Filled (code : List Code) : Prop where
  proper : Proper code
  hasLine : HasLine code

namespace Proper

variable {body : List Code}

theorem block (h : Line 0 true text) (hbody : Filled body) : Proper [Code.line text, Code.block body] :=
  .opening h hbody.proper hbody.hasLine

theorem flatMap {α : Type} {f : α → List Code} : ∀ {xs : List α}, (∀ x ∈ xs, Proper (f x)) → Proper (xs.flatMap f)
  | [], _ => .nil
  | x :: _, h => (h x List.mem_cons_self).append (flatMap fun y hy => h y (List.mem_cons_of_mem _ hy))

theorem ofLines : ∀ {lines : List String}, (∀ text ∈ lines, Line 0 false text) → Proper (ofLines lines)
  | [], _ => .nil
  | text :: _, h =>
    (Proper.line (h text List.mem_cons_self)).append (ofLines fun l hl => h l (List.mem_cons_of_mem _ hl))

end Proper

namespace Filled

variable {a b body : List Code}

theorem line (h : Line 0 false text) : Filled [Code.line text] := ⟨.line h, text, List.mem_cons_self⟩

theorem append (ha : Filled a) (hb : Proper b) : Filled (a ++ b) :=
  ⟨ha.proper.append hb, ha.hasLine.imp fun _ => List.mem_append_left b⟩

theorem block (h : Line 0 true text) (hbody : Filled body) : Filled [Code.line text, Code.block body] :=
  ⟨.block h hbody, text, List.mem_cons_self⟩

/-- What there is, or one line for nothing. -/
theorem orPass {α : Type} {f : α → List Code} {xs : List α} (h : ∀ x ∈ xs, Filled (f x)) :
    Filled (xs.flatMap f ++ if xs.isEmpty then [Code.line "pass"] else []) := by
  cases xs with
  | nil => exact line (.literal rfl (by decide))
  | cons x xs =>
    exact ((h x List.mem_cons_self).append (.flatMap fun y hy => (h y (List.mem_cons_of_mem _ hy)).proper)).append .nil

end Filled

/-- Lines that were added for code at a level. -/
structure Lays (level : Nat) (code : List Code) (added : List String) : Prop where
  single : ∀ line ∈ added, Single line
  blocks : Blocks level (added.filter isWritten)
  blank : ∀ line ∈ added, isWritten line = false → line = ""
  written : HasLine code → added.filter isWritten ≠ []

theorem Lays.append {level : Nat} {a b : List Code} {added more : List String} (ha : Lays level a added)
    (hb : Lays level b more) : Lays level (a ++ b) (added ++ more) where
  single := List.forall_mem_append.mpr ⟨ha.single, hb.single⟩
  blocks := by
    rw [List.filter_append]
    exact ha.blocks.append hb.blocks
  blank := List.forall_mem_append.mpr ⟨ha.blank, hb.blank⟩
  written := by
    rintro ⟨text, htext⟩ hnil
    rw [List.filter_append, List.append_eq_nil_iff] at hnil
    exact (List.mem_append.mp htext).elim (fun h => ha.written ⟨text, h⟩ hnil.1) fun h => hb.written ⟨text, h⟩ hnil.2

theorem lays_blank (level : Nat) (count : Int) (k : Nat) : Lays level [blank count] (List.replicate k "") where
  single line hline := by
    rw [List.eq_of_mem_replicate hline]
    exact List.not_mem_nil
  blocks := by
    rw [List.filter_replicate]
    exact .nil level
  blank line hline _ := List.eq_of_mem_replicate hline
  written := by simp [HasLine]

/-- A line of its own, or with what was added for its block. -/
theorem lays_cons {level : Nat} {text : String} {code : List Code} {added : List String} {opening : Bool}
    (hline : Line level opening text) (hblocks : Blocks level (text :: added.filter isWritten))
    (hsingle : ∀ line ∈ added, Single line) (hblank : ∀ line ∈ added, isWritten line = false → line = "") :
    Lays level code (text :: added) where
  single := List.forall_mem_cons.mpr ⟨hline.single, hsingle⟩
  blocks := by rwa [List.filter_cons_of_pos hline.written]
  blank := List.forall_mem_cons.mpr ⟨fun h => absurd h (by simp [hline.written]), hblank⟩
  written _ := by
    rw [List.filter_cons_of_pos hline.written]
    exact List.cons_ne_nil _ _

/-- **Proper code is laid out in blocks**, at every level and behind any lines. -/
theorem Proper.lays {code : List Code} (h : Proper code) : ∀ (level : Nat) (before : List String),
    ∃ added, layoutAll indentation level before code = before ++ added ∧ Lays level code added := by
  induction h with
  | nil => exact fun level before => ⟨[], (List.append_nil _).symm, nofun, .nil level, nofun, by simp [HasLine]⟩
  | blank count =>
    intro level before
    simp only [layoutAll, layout, addBlank]
    split
    · exact ⟨[], (List.append_nil _).symm, lays_blank level count 0⟩
    · exact ⟨_, rfl, lays_blank level count _⟩
  | line hline =>
    intro level before
    have hline := hline.indented level
    exact ⟨_, rfl, lays_cons hline (.line hline) nofun nofun⟩
  | @opening text body hline _ hwritten ih =>
    intro level before
    have hline := hline.indented level
    obtain ⟨added, hadded, hlays⟩ := ih (level + 1) (before ++ [indented indentation level text])
    exact ⟨indented indentation level text :: added, hadded.trans (List.append_cons _ _ _).symm,
      lays_cons hline (.block hline hlays.blocks (hlays.written hwritten)) hlays.single hlays.blank⟩
  | append _ _ iha ihb =>
    intro level before
    obtain ⟨added, hadded, hlays⟩ := iha level before
    obtain ⟨more, hmore, hlays'⟩ := ihb level (before ++ added)
    refine ⟨added ++ more, ?_, hlays.append hlays'⟩
    rw [layoutAll_append, hadded, hmore, List.append_assoc]

/-- The lines of code by itself. -/
theorem Proper.lines {code : List Code} (h : Proper code) : Lays 0 code (lines code) := by
  obtain ⟨added, hadded, hlays⟩ := h.lays 0 []
  rwa [Code.lines, hadded]

/-! ## Texts -/

/-- The lines of a text. -/
def textLines (text : String) : List String := Text.splitOnChar '\n' text

/-- The lines of a text on which something is written. -/
def writtenLines (text : String) : List String := (textLines text).filter isWritten

/-- A line feed at the end adds an empty line. -/
theorem textLines_feed (cs : List Char) :
    textLines (String.ofList (cs ++ ['\n'])) = textLines (String.ofList cs) ++ [""] := by
  have hsplit : (cs ++ ['\n']).splitOn '\n' = cs.splitOn '\n' ++ [[]] :=
    List.splitOnP_append_cons cs [] (beq_self_eq_true '\n')
  rw [textLines, textLines, Text.splitOnChar, Text.splitOnChar, String.toList_ofList, String.toList_ofList,
    Source.splitAtChar_eq, Source.splitAtChar_eq, hsplit, List.map_append]
  rfl

theorem textLines_trimEnd (cs : List Char) : ∃ k, textLines (String.ofList cs) =
    textLines (String.ofList (Text.trimEnd (· == '\n') cs)) ++ List.replicate k "" := by
  induction cs using List.reverseRecOn with
  | nil => exact ⟨0, rfl⟩
  | append_singleton cs c ih =>
    rw [Text.trimEnd, List.reverse_concat, List.dropWhile_cons]
    split
    next hc =>
      obtain ⟨k, hk⟩ := ih
      refine ⟨k + 1, ?_⟩
      rw [eq_of_beq hc, textLines_feed, hk, List.append_assoc, List.replicate_succ']
      rfl
    next =>
      rw [List.reverse_cons, List.reverse_reverse]
      exact ⟨0, (List.append_nil _).symm⟩

/-- **The lines of the text of a module** are those it is made of, up to empty lines at the end. -/
theorem textLines_moduleText {lines : List String} (h : ∀ line ∈ lines, Single line) (hne : lines ≠ []) :
    ∃ k, textLines (moduleText lines) ++ List.replicate k "" = lines ++ [""] := by
  obtain ⟨k, hk⟩ := textLines_trimEnd (Text.join "\n" lines).toList
  have hlines : textLines (Text.join "\n" lines) = lines := Source.splitOnChar_join rfl h hne
  have hfeed := textLines_feed (Text.trimEnd (· == '\n') (Text.join "\n" lines).toList)
  have hempty : [""] ++ List.replicate k "" = List.replicate k "" ++ [""] := List.replicate_succ'
  rw [String.ofList_append] at hfeed
  refine ⟨k, ?_⟩
  rw [moduleText, show "\n" = String.ofList ['\n'] from rfl, hfeed, List.append_assoc, hempty, ← List.append_assoc,
    ← hk, String.ofList_toList]
  exact congrArg (· ++ [""]) hlines

/-- What is written in the text of a module. -/
theorem writtenLines_moduleText {lines : List String} (h : ∀ line ∈ lines, Single line) (hne : lines ≠ []) :
    writtenLines (moduleText lines) = lines.filter isWritten := by
  obtain ⟨k, hk⟩ := textLines_moduleText h hne
  have hfilter := congrArg (List.filter isWritten) hk
  rw [List.filter_append, List.filter_append, List.filter_replicate] at hfilter
  simpa [writtenLines, show isWritten "" = false from rfl] using hfilter

end ProtoBind.Codegen.Code
