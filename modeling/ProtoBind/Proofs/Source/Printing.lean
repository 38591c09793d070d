/-
Declarations printed as text.

`Decl.words` gives the words of a declaration in order, and `printed` writes
them with single blanks between them. Numbers, names and quoted texts denote
what was printed: a number of at most 4300 digits, an identifier or several
with dots between them, a text of plain characters.
-/
import Mathlib.Data.List.TakeWhile
import ProtoBind.Proofs.Entries
import ProtoBind.Proofs.Source.Escapes
import ProtoBind.Proofs.Source.Reading

namespace ProtoBind.Source

/-! ## Words -/

/-- Parts with a mark between them. -/
def separated (mark : String) : List (List String) → List String
  | [] => []
  | ws :: rest => ws ++ rest.flatMap (mark :: ·)

/-- Identifiers with dots between them; a name that begins with a dot has a dot before them. -/
def nameWords (name : String) : List String :=
  separated "." ((Text.splitOnChar '.' name).map fun part => if part.isEmpty then [] else [part])

def intWords (n : Int) : List String := if n < 0 then ["-", intText (-n)] else [intText n]

/-- The words of a constant that is an integer or a name. -/
def constantWords : Value → List String
  | .int n => intWords n
  | .ident name => nameWords name
  | _ => []

def entryWords (entry : String × Value) : List String := nameWords entry.1 ++ "=" :: constantWords entry.2

def optionWords (options : Options) : List String :=
  if options.isEmpty then [] else ["["] ++ separated "," (options.map entryWords) ++ ["]"]

/-- The words of a field from its name on. -/
def tagWords (name : String) (tag : Int) (options : Options) : List String :=
  [name, "=", intText tag] ++ optionWords options ++ [";"]

def FieldDecl.words (d : FieldDecl) : List String :=
  (d.label.map Label.word).toList ++ nameWords d.typeName ++ tagWords d.name d.tag d.options

def MapDecl.words (d : MapDecl) : List String :=
  ["map", "<", d.keyType, ","] ++ nameWords d.valueType ++ [">"] ++ tagWords d.name d.tag d.options

/-- A named block. -/
def blockWords (word name : String) (items : List String) : List String := [word, name, "\x7b"] ++ items ++ ["\x7d"]

def OneofDecl.words (d : OneofDecl) : List String := blockWords "oneof" d.name (d.fields.flatMap FieldDecl.words)

def EnumValueDecl.words (d : EnumValueDecl) : List String := [d.name, "="] ++ intWords d.number ++ [";"]

def EnumDecl.words (d : EnumDecl) : List String := blockWords "enum" d.name (d.values.flatMap EnumValueDecl.words)

/-- A type in parentheses, with the word for a stream before it. -/
def rpcTypeWords (type : String) (isStream : Bool) : List String :=
  ["("] ++ (if isStream then ["stream"] else []) ++ nameWords type ++ [")"]

def RpcDecl.words (d : RpcDecl) : List String :=
  ["rpc", d.name] ++ rpcTypeWords d.request d.requestStream ++ ["returns"] ++
    rpcTypeWords d.response d.responseStream ++ [";"]

def ServiceDecl.words (d : ServiceDecl) : List String := blockWords "service" d.name (d.rpcs.flatMap RpcDecl.words)

def ExtendDecl.words (d : ExtendDecl) : List String :=
  ["extend"] ++ nameWords d.extendee ++ ["\x7b"] ++ d.fields.flatMap FieldDecl.words ++ ["\x7d"]

mutual

/-- The words of a declaration. -/
def Decl.words : Decl → List String
  | .dialect value => ["syntax", "=", quotedText value, ";"]
  | .edition value => ["edition", "=", quotedText value, ";"]
  | .package name => ["package"] ++ nameWords name ++ [";"]
  | .imports file => ["import", quotedText file, ";"]
  | .option name value => ["option"] ++ entryWords (name, value) ++ [";"]
  | .field d => d.words
  | .map d => d.words
  | .oneof d => d.words
  | .message name items _ => blockWords "message" name (declWords items)
  | .enum d => d.words
  | .service d => d.words
  | .extend d => d.words

def declWords : List Decl → List String
  | [] => []
  | d :: ds => d.words ++ declWords ds

end

theorem declWords_eq : ∀ ds : List Decl, declWords ds = ds.flatMap Decl.words
  | [] => rfl
  | d :: ds => by rw [declWords, declWords_eq ds, List.flatMap_cons]

/-- Declarations printed with single blanks between all words. -/
def printed (ds : List Decl) : String := Text.join " " (ds.flatMap Decl.words)

/-! ## What can be printed -/

/-- Identifiers with dots between them. -/
def isDotted (name : String) : Bool := (Text.splitOnChar '.' name).all isIdentifier

/-- A name of a type: relative, or absolute with a dot before it. -/
def isTypeName (name : String) : Bool :=
  isDotted name || name.toList.head? == some '.' && isDotted (String.ofList name.toList.tail)

/-- A constant that is an integer among those that fit, or a name. -/
def isConstant (fits : Int → Bool) : Value → Bool
  | .int n => fits n
  | .ident name => isDotted name
  | _ => false

/-- Options with distinct names. -/
def areOptions (fits : Int → Bool) (options : Options) : Bool :=
  decide (options.map (·.1)).Nodup && options.all fun entry => isDotted entry.1 && isConstant fits entry.2

/-- The name, tag and options of a field. -/
def isTagged (fits : Int → Bool) (name : String) (tag : Int) (options : Options) : Bool :=
  isIdentifier name && decide (0 ≤ tag) && fits tag && areOptions fits options

def FieldDecl.isPrintable (fits : Int → Bool) (d : FieldDecl) : Bool :=
  isTypeName d.typeName && isTagged fits d.name d.tag d.options

def MapDecl.isPrintable (fits : Int → Bool) (d : MapDecl) : Bool :=
  isIdentifier d.keyType && isTypeName d.valueType && isTagged fits d.name d.tag d.options

/-- Fields in a oneof group have no label. -/
def OneofDecl.isPrintable (fits : Int → Bool) (d : OneofDecl) : Bool :=
  isIdentifier d.name && d.fields.all fun f => f.label == none && f.isPrintable fits

def EnumDecl.isPrintable (fits : Int → Bool) (d : EnumDecl) : Bool :=
  isIdentifier d.name && d.values.all fun v => isIdentifier v.name && fits v.number

def ServiceDecl.isPrintable (d : ServiceDecl) : Bool :=
  isIdentifier d.name && d.rpcs.all fun r => isIdentifier r.name && isTypeName r.request && isTypeName r.response

def ExtendDecl.isPrintable (fits : Int → Bool) (d : ExtendDecl) : Bool :=
  isTypeName d.extendee && d.fields.all (·.isPrintable fits)

mutual

/-- What can stand at the top of a file, or in a message when it is nested. -/
def Decl.isPrintable (fits : Int → Bool) (nested : Bool) : Decl → Bool
  | .dialect value => !nested && value.toList.all isPlainChar
  | .edition value => !nested && value.toList.all isPlainChar
  | .package name => !nested && isDotted name
  | .imports file => !nested && file.toList.all isPlainChar
  | .option name value => isDotted name && isConstant fits value
  | .field d => nested && d.isPrintable fits
  | .map d => nested && d.isPrintable fits
  | .oneof d => nested && d.isPrintable fits
  | .message name items _ => isIdentifier name && arePrintable fits items
  | .enum d => d.isPrintable fits
  | .service d => !nested && d.isPrintable
  | .extend d => d.isPrintable fits

/-- All can stand in a message. -/
def arePrintable (fits : Int → Bool) : List Decl → Bool
  | [] => true
  | d :: ds => d.isPrintable fits true && arePrintable fits ds

end

theorem arePrintable_iff {fits : Int → Bool} : ∀ {ds : List Decl},
    arePrintable fits ds = true ↔ ∀ d ∈ ds, d.isPrintable fits true = true
  | [] => by simp [arePrintable]
  | d :: ds => by rw [arePrintable, Bool.and_eq_true, arePrintable_iff, List.forall_mem_cons]

/-! ## Numbers -/

variable {n : Nat} {k : Int} {w : String}

theorem decimal_digit {d : Char} (hd : d ∈ decimalDigits n) : d.isDigit = true :=
  Nat.isDigit_of_mem_toDigits (by decide) (by decide) hd

/-- Only zero begins with a zero. -/
theorem decimal_zero : ∀ (n : Nat) {rest : List Char}, decimalDigits n = '0' :: rest → rest = [] := by
  intro n
  induction n using Nat.strongRecOn with
  | ind n ih =>
    intro rest h
    by_cases hn : n < 10
    · rw [decimalDigits, Nat.toDigits_of_lt_base hn] at h
      exact (List.cons.inj h).2.symm
    · rw [decimalDigits, Nat.toDigits_of_base_le (by decide) (Nat.not_lt.mp hn)] at h
      obtain ⟨c, more, hmore⟩ := List.exists_cons_of_ne_nil (Nat.toDigits_ne_nil (n := n / 10) (b := 10))
      rw [hmore, List.cons_append] at h
      obtain ⟨rfl, -⟩ := List.cons.inj h
      obtain rfl := ih (n / 10) (by omega) hmore
      -- The digits before the last are those of a tenth, which is not zero.
      have hzero := @Nat.ofDigitChars_ten_toDigits (n / 10)
      rw [hmore] at hzero
      have : n / 10 = 0 := hzero.symm
      omega

theorem digitsToNat_decimal (n : Nat) : Text.digitsToNat 10 (decimalDigits n) = n := by
  have hfold : ∀ {ds : List Char} (init : Nat), (∀ d ∈ ds, d.isDigit = true) →
      ds.foldl (fun n c =>
        let v := if c.isDigit then c.toNat - 48 else if c.isLower then c.toNat - 87 else c.toNat - 55
        n * 10 + v) init = Nat.ofDigitChars 10 ds init := by
    intro ds
    induction ds with
    | nil => exact fun init _ => rfl
    | cons d ds ih =>
      intro init hds
      rw [List.foldl_cons, Nat.ofDigitChars_cons, ih _ fun c hc => hds c (List.mem_cons_of_mem d hc)]
      simp only [hds d List.mem_cons_self, if_true]
      rw [Nat.mul_comm]
      rfl
  rw [Text.digitsToNat, hfold 0 fun d => decimal_digit]
  exact Nat.ofDigitChars_ten_toDigits

theorem areDigits_decimal (n : Nat) : areDigits 10 (decimalDigits n) = true := by
  rw [areDigits, Bool.and_eq_true, Bool.not_eq_true', List.isEmpty_eq_false_iff, List.all_eq_true]
  refine ⟨Nat.toDigits_ne_nil, fun d hd => ?_⟩
  have hdigit := decimal_digit hd
  rw [if_pos hdigit]
  simp only [Char.isDigit, Bool.and_eq_true, decide_eq_true_eq, ge_iff_le, UInt32.le_iff_toNat_le] at hdigit ⊢
  have hnine : '9'.val.toNat = 57 := by decide
  have hnat : d.toNat = d.val.toNat := rfl
  omega

/-- Decimal digits denote their number when they are few enough, and nothing otherwise. -/
theorem magnitude_decimal (n : Nat) : magnitude? (decimalDigits n) =
    if (decimalDigits n).length ≤ Text.maxIntegerDigits then some n else none := by
  unfold magnitude?
  split
  next x rest h =>
    have := decimal_zero n h
    cases this
  next => simp [areDigits_decimal, digitsToNat_decimal]

/-- The text of an integer. -/
def intDigits (k : Int) : List Char := if k < 0 then '-' :: decimalDigits k.natAbs else decimalDigits k.natAbs

theorem dropWhile_decimal {p : Char → Bool} (hp : ∀ c, c.isDigit = true → p c = false) (n : Nat) :
    (decimalDigits n).dropWhile p = decimalDigits n := by
  obtain ⟨c, rest, h⟩ := List.exists_cons_of_ne_nil (Nat.toDigits_ne_nil (n := n) (b := 10))
  have hc : c ∈ decimalDigits n := by
    rw [decimalDigits, h]
    exact List.mem_cons_self
  rw [decimalDigits, h, List.dropWhile_cons_of_neg (by simp [hp c (decimal_digit hc)])]

theorem digit_other {c : Char} (hc : c.isDigit = true) {d : Char} (hd : d.isDigit = false) : c ≠ d := by
  rintro rfl
  rw [hc] at hd
  cases hd

theorem intLiteral_digits (k : Int) : intLiteral? (intDigits k) = if isShort k then some k else none := by
  have hsign {c : Char} (hc : c.isDigit = true) : (c == '+' || c == '-') = false := by
    simp [digit_other hc (by decide : '+'.isDigit = false), digit_other hc (by decide : '-'.isDigit = false)]
  have hdrop : (intDigits k).dropWhile (fun c => c == '+' || c == '-') = decimalDigits k.natAbs := by
    unfold intDigits
    split
    · rw [List.dropWhile_cons_of_pos (by decide), dropWhile_decimal fun c => hsign]
    · exact dropWhile_decimal (fun c => hsign) _
  have hminus : (intDigits k).head? = some '-' ↔ k < 0 := by
    unfold intDigits
    split
    next hk => exact iff_of_true rfl hk
    next hk => exact iff_of_false (fun h => absurd (decimal_digit (List.mem_of_mem_head? h)) (by decide)) hk
  have hvalue : (if k < 0 then -(k.natAbs : Int) else (k.natAbs : Int)) = k := by
    split <;> omega
  simp only [intLiteral?, hdrop, beq_iff_eq, hminus, magnitude_decimal, isShort, decide_eq_true_eq]
  by_cases hfew : (decimalDigits k.natAbs).length ≤ Text.maxIntegerDigits
  · rw [if_pos hfew, if_pos hfew]
    exact congrArg some hvalue
  · rw [if_neg hfew, if_neg hfew]
    rfl

theorem mem_intDigits {c : Char} (hc : c ∈ intDigits k) : c.isDigit = true ∨ c = '-' := by
  unfold intDigits at hc
  split at hc
  · exact (List.mem_cons.mp hc).symm.imp_left decimal_digit
  · exact .inl (decimal_digit hc)

/-- A number that is written with digits only is read as an integer. -/
theorem numberLiteral_digits (k : Int) : numberLiteral? (intDigits k) = if isShort k then some (.int k) else none := by
  have hnot {d : Char} (hd : d.isDigit = false) (hminus : d ≠ '-') : d ∉ intDigits k := fun hmem => by
    rcases mem_intDigits hmem with h | h
    · rw [hd] at h
      cases h
    · exact hminus h
  have hlower : (intDigits k).map Char.toLower = intDigits k := by
    refine (List.map_congr_left fun c hc => dif_neg fun hrange => ?_).trans (List.map_id _)
    have hupper : c.isUpper = true := decide_eq_true hrange
    have hstart : Terminal.isIdentStart c = true := by
      show (c.isUpper || c.isLower || c == '_') = true
      rw [hupper, Bool.true_or, Bool.true_or]
    rcases mem_intDigits hc with h | rfl
    · exact absurd h (Bool.eq_false_iff.mp (identStart_not_digit hstart))
    · exact absurd hupper (by decide)
  have hplus : (intDigits k).dropWhile (· == '+') = intDigits k := by
    refine List.dropWhile_eq_self_iff.mpr fun hpos => ?_
    have hmem := List.getElem_mem hpos
    intro he
    exact hnot (d := '+') (by decide) (by decide) (beq_iff_eq.mp he ▸ hmem)
  have hword : ["inf", "-inf", "nan", "-nan"].contains (String.ofList (intDigits k)) = false := by
    refine Bool.eq_false_iff.mpr fun h => ?_
    have hchars : ∀ w ∈ ["inf", "-inf", "nan", "-nan"], 'n' ∈ w.toList := by decide
    have hmem := hchars _ (List.contains_iff_mem.mp h)
    rw [String.toList_ofList] at hmem
    exact hnot (d := 'n') (by decide) (by decide) hmem
  have hpoint : ((intDigits k).contains '.' || (intDigits k).contains 'e') = false := by
    simp [hnot (d := '.') (by decide) (by decide), hnot (d := 'e') (by decide) (by decide)]
  simp only [numberLiteral?, hlower, hplus, hword, hpoint, Bool.false_and, Bool.false_eq_true, if_false, intLiteral_digits]
  split <;> rfl

/-! ## Names -/

theorem splitAtChar_ne_nil (d : Char) (s : List Char) : Text.splitAtChar d s ≠ [] := by
  cases s with
  | nil => nofun
  | cons c s =>
    rw [Text.splitAtChar]
    split
    · nofun
    · split <;> nofun

theorem intercalate_splitAtChar (d : Char) : ∀ s : List Char, [d].intercalate (Text.splitAtChar d s) = s
  | [] => rfl
  | c :: s => by
    have ih := intercalate_splitAtChar d s
    cases hs : Text.splitAtChar d s with
    | nil => exact absurd hs (splitAtChar_ne_nil d s)
    | cons piece pieces =>
      rw [hs] at ih
      rw [Text.splitAtChar, hs]
      by_cases hc : c = d
      · rw [if_pos hc, List.intercalate_cons_cons, ih, hc]
        rfl
      · rw [if_neg hc, ← ih]
        cases pieces <;> simp [List.intercalate_cons_cons]

/-- Cutting at a character as lists do it. -/
theorem splitAtChar_eq (c : Char) : ∀ s : List Char, Text.splitAtChar c s = s.splitOn c
  | [] => rfl
  | x :: rest => by
    rw [Text.splitAtChar, splitAtChar_eq c rest, List.splitOn, List.splitOn, List.splitOnP_cons_eq_if_modifyHead]
    by_cases hx : x = c
    · simp [hx]
    · simp only [hx, if_false, beq_iff_eq]
      cases hs : rest.splitOnP (· == c) with
      | nil => exact absurd hs (List.splitOnP_ne_nil _ _)
      | cons piece pieces => rfl

/-- What is joined by a separator is cut where it was joined. -/
theorem splitOnChar_join {sep : Char} {separator : String} (hsep : separator.toList = [sep]) {parts : List String}
    (h : ∀ part ∈ parts, sep ∉ part.toList) (hne : parts ≠ []) :
    Text.splitOnChar sep (Text.join separator parts) = parts := by
  have hsplit : (Text.join separator parts).toList.splitOn sep = parts.map String.toList := by
    rw [Text.join, String.toList_intercalate, hsep]
    refine List.splitOn_intercalate sep (fun l hl => ?_) (by simpa using hne)
    obtain ⟨part, hpart, rfl⟩ := List.mem_map.mp hl
    exact h part hpart
  rw [Text.splitOnChar, splitAtChar_eq, hsplit, List.map_map]
  simp [Function.comp_def]

theorem join_splitOnChar (name : String) : Text.join "." (Text.splitOnChar '.' name) = name := by
  have hpieces : (Text.splitOnChar '.' name).map String.toList = Text.splitAtChar '.' name.toList := by
    simp [Text.splitOnChar]
  rw [← String.toList_inj, Text.join, String.toList_intercalate, hpieces]
  exact intercalate_splitAtChar '.' name.toList

theorem identifier_ne_empty (h : isIdentifier w = true) : w ≠ "" := by
  rintro rfl
  cases h

/-! ## Quoted texts -/

theorem unescape_plain [CharacterNames] : ∀ {body : List Char} {fuel : Nat},
    (∀ c ∈ body, isPlainChar c = true) → body.length < fuel → unescape body fuel = some body
  | _, 0, _, h => absurd h (Nat.not_lt_zero _)
  | [], fuel + 1, _, _ => unescape_nil fuel
  | c :: body, fuel + 1, hbody, hfuel => by
    have hc := hbody c List.mem_cons_self
    simp only [isPlainChar, Bool.and_eq_true, bne_iff_ne, decide_eq_true_eq] at hc
    have hstop : c ≠ '\r' ∧ c ≠ '\x00' := by
      constructor <;> (rintro rfl; exact absurd hc.1.1.1.1 (by decide))
    rw [unescape_char hc.2 hstop.1, if_neg hstop.2, unescape_plain (fun d hd => hbody d (List.mem_cons_of_mem c hd))
      (Nat.lt_of_succ_lt_succ hfuel)]
    rfl

theorem stringLiteral_quoted [CharacterNames] (h : ∀ c ∈ w.toList, isPlainChar c = true) :
    stringLiteral (quotedText w).toList = .ok w := by
  have hinner : ((quotedText w).toList.drop 1).dropLast = w.toList := by
    rw [quotedText, String.toList_ofList, List.drop_one, List.tail_cons, List.dropLast_concat]
  simp only [stringLiteral, hinner, unescape_plain h (Nat.lt_succ_self _), String.ofList_toList]

end ProtoBind.Source
