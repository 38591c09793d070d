/-
Parts of module names.

Converting a part of a file or package name gives a name that can stand in
code, keeps the letters and digits of the part (`word_chars`), and changes
nothing that it gave itself (`component_component`).
-/
import ProtoBind.Proofs.Codegen.Plan
import ProtoBind.Proofs.Naming

namespace ProtoBind.Codegen

/-! ## Letters -/

theorem isUpper_toLower (c : Char) : c.toLower.isUpper = false := by
  cases h : c.isUpper with
  | true => exact (toLower_of_isUpper h).2
  | false => rw [toLower_of_not_isUpper h, h]

/-- A letter or an underscore, and then letters, digits and underscores, all of ASCII. -/
def IsIdentifier (s : String) : Prop :=
  ∃ c cs, s.toList = c :: cs ∧ (c.isAlpha = true ∨ c = '_') ∧ ∀ d ∈ cs, d.isAlphanum = true ∨ d = '_'

namespace Convention

/-- What becomes of a letter or a digit. -/
def spell : Convention → Char → Char
  | snakeCase | lower => Char.toLower
  | preserve => id

/-- The letters and digits of a text. -/
def word (s : List Char) : List Char := s.filter Char.isAlphanum

/-- A character that conversion leaves as it is. -/
def Settled (conv : Convention) (c : Char) : Prop := isWord c = true ∧ conv.spell c = c

/-! ## What is kept -/

theorem word_cons_underscore (s : List Char) : word ('_' :: s) = word s := List.filter_cons_of_neg (by decide)

theorem word_cons_congr {s t : List Char} (h : word s = word t) (c : Char) : word (c :: s) = word (c :: t) := by
  unfold word at h ⊢
  rw [List.filter_cons, List.filter_cons, h]

theorem word_breakAcronyms (s : List Char) : word (breakAcronyms s) = word s := by
  fun_induction breakAcronyms s with
  | case1 p c n rest h ih => exact word_cons_congr ((word_cons_underscore _).trans ih) p
  | case2 p c n rest h ih => exact word_cons_congr ih p
  | case3 s h => rfl

theorem word_breakHumps (s : List Char) : word (breakHumps s) = word s := by
  fun_induction breakHumps s with
  | case1 p c rest h ih => exact word_cons_congr ((word_cons_underscore _).trans ih) p
  | case2 p c rest h ih => exact word_cons_congr ih p
  | case3 s h => rfl

theorem word_replaceOthers (s : List Char) : word (replaceOthers s) = word s := by
  induction s with
  | nil => rfl
  | cons c s ih =>
    rw [replaceOthers, List.map_cons]
    split
    next => exact word_cons_congr ih c
    next hc =>
      have hother : c.isAlphanum = false := by
        simp only [isWord, Bool.or_eq_true, not_or, Bool.not_eq_true] at hc
        exact hc.1
      rw [word_cons_underscore]
      exact ih.trans (List.filter_cons_of_neg (by simp [hother])).symm

theorem word_toLower (s : List Char) : word (s.map Char.toLower) = (word s).map Char.toLower := by
  rw [word, word, List.filter_map]
  exact congrArg (List.map Char.toLower) (List.filter_congr fun c _ => isAlphanum_toLower c)

/-- **Conversion keeps the letters and digits**, in the case that the convention asks for. -/
theorem word_chars (conv : Convention) (s : List Char) : word (conv.chars s) = (word s).map conv.spell := by
  cases conv with
  | snakeCase =>
    show word ((replaceOthers (breakHumps (breakAcronyms s))).map Char.toLower) = _
    rw [word_toLower, word_replaceOthers, word_breakHumps, word_breakAcronyms]
    rfl
  | lower =>
    show word ((replaceOthers s).map Char.toLower) = _
    rw [word_toLower, word_replaceOthers]
    rfl
  | preserve =>
    show word (replaceOthers s) = _
    rw [word_replaceOthers]
    exact (List.map_id _).symm

theorem word_leading (s : List Char) : word (leading s) = word s := by
  unfold leading
  split
  next => rfl
  next c rest =>
    split
    next => exact word_cons_underscore _
    next => rfl

/-! ## What is changed no more -/

theorem breakAcronyms_eq_self {s : List Char} (h : ∀ c ∈ s, c.isUpper = false) : breakAcronyms s = s := by
  fun_induction breakAcronyms s with
  | case1 p c n rest hbreak ih => simp [h p List.mem_cons_self] at hbreak
  | case2 p c n rest hbreak ih => rw [ih fun d hd => h d (List.mem_cons_of_mem p hd)]
  | case3 s hs => rfl

theorem breakHumps_eq_self {s : List Char} (h : ∀ c ∈ s, c.isUpper = false) : breakHumps s = s := by
  fun_induction breakHumps s with
  | case1 p c rest hbreak ih => simp [h c (by simp)] at hbreak
  | case2 p c rest hbreak ih => rw [ih fun d hd => h d (List.mem_cons_of_mem p hd)]
  | case3 s hs => rfl

theorem map_eq_self {f : Char → Char} {s : List Char} (h : ∀ c ∈ s, f c = c) : s.map f = s := by
  rw [List.map_congr_left h, List.map_id']

theorem chars_eq_self {conv : Convention} {s : List Char} (h : ∀ c ∈ s, conv.Settled c) : conv.chars s = s := by
  have hwords : replaceOthers s = s := map_eq_self fun c hc => if_pos (h c hc).1
  have hspelled : s.map conv.spell = s := map_eq_self fun c hc => (h c hc).2
  cases conv with
  | snakeCase =>
    have hupper : ∀ c ∈ s, c.isUpper = false := fun c hc => (h c hc).2 ▸ isUpper_toLower c
    show (replaceOthers (breakHumps (breakAcronyms s))).map Char.toLower = s
    rw [breakAcronyms_eq_self hupper, breakHumps_eq_self hupper, hwords]
    exact hspelled
  | lower =>
    show (replaceOthers s).map Char.toLower = s
    rw [hwords]
    exact hspelled
  | preserve => exact hwords

theorem chars_settled (conv : Convention) (s : List Char) : ∀ c ∈ conv.chars s, conv.Settled c := by
  have hlower : ∀ s : List Char, ∀ c ∈ s.map Char.toLower, c.toLower = c := by
    intro s c hc
    obtain ⟨b, -, rfl⟩ := List.mem_map.mp hc
    exact toLower_of_not_isUpper (isUpper_toLower b)
  refine fun c hc => ⟨chars_isWord conv s c hc, ?_⟩
  cases conv with
  | snakeCase => exact hlower _ c hc
  | lower => exact hlower _ c hc
  | preserve => rfl

/-! ## Names -/

/-- A character that can stand in a name, at its beginning if it is no digit. -/
theorem isWord_iff {c : Char} : isWord c = true ↔ c.isAlphanum = true ∨ c = '_' := by
  rw [isWord, Bool.or_eq_true, beq_iff_eq]

/-- Nothing is put before a name that is not empty and begins with no digit. -/
theorem leading_eq_self {c : Char} (h : c.isDigit = false) (s : List Char) : leading (c :: s) = c :: s :=
  if_neg (by simp [h])

theorem exists_leading (s : List Char) : ∃ c cs, leading s = c :: cs ∧ c.isDigit = false := by
  unfold leading
  split
  next => exact ⟨'_', [], rfl, rfl⟩
  next c rest =>
    cases hc : c.isDigit with
    | true => exact ⟨'_', c :: rest, if_pos rfl, rfl⟩
    | false => exact ⟨c, rest, if_neg Bool.false_ne_true, hc⟩

/-- A name with its keyword escaped is the name, or the name and an underscore. -/
theorem exists_identifier (s : String) : ∃ t, (Naming.identifier s).toList = s.toList ++ t ∧ ∀ c ∈ t, c = '_' := by
  unfold Naming.identifier Naming.guard
  split
  · exact ⟨['_'], String.toList_append, by simp⟩
  · exact ⟨[], (List.append_nil _).symm, nofun⟩

theorem identifier_not_escaped (s : String) : ¬ Naming.Escaped [] (Naming.identifier s) := by
  rw [Naming.identifier]
  by_cases h : Naming.Escaped [] s
  · rw [Naming.guard_of_escaped h]
    exact Naming.stable_nil.not_escaped h
  · rwa [Naming.guard_of_not_escaped h]

theorem word_append_underscores {t : List Char} (h : ∀ c ∈ t, c = '_') (s : List Char) : word (s ++ t) = word s := by
  have hnone : word t = [] := List.filter_eq_nil_iff.mpr fun c hc => by rw [h c hc]; decide
  unfold word at hnone ⊢
  rw [List.filter_append, hnone, List.append_nil]

/-- The characters of a component: they begin with no digit, and conversion leaves them as they are. -/
theorem exists_component (conv : Convention) (part : String) : ∃ c cs, (conv.component part).toList = c :: cs ∧
    c.isDigit = false ∧ (∀ d ∈ c :: cs, conv.Settled d) ∧ word (c :: cs) = (word part.toList).map conv.spell := by
  obtain ⟨c, cs, hleading, hdigit⟩ := exists_leading (conv.chars part.toList)
  obtain ⟨t, ht, hunderscores⟩ := exists_identifier (String.ofList (leading (conv.chars part.toList)))
  replace ht : (conv.component part).toList = c :: (cs ++ t) := by
    rw [component, ht, String.toList_ofList, hleading, List.cons_append]
  have hunderscore : conv.Settled '_' := ⟨rfl, by cases conv <;> rfl⟩
  refine ⟨c, cs ++ t, ht, hdigit, ?_, ?_⟩
  · rw [← List.cons_append, ← hleading, List.forall_mem_append]
    refine ⟨?_, fun d hd => hunderscores d hd ▸ hunderscore⟩
    have hsettled := chars_settled conv part.toList
    unfold leading
    split
    next => exact List.forall_mem_singleton.mpr hunderscore
    next b rest hchars =>
      rw [hchars] at hsettled
      split
      · exact List.forall_mem_cons.mpr ⟨hunderscore, hsettled⟩
      · exact hsettled
  · rw [← List.cons_append, ← hleading, word_append_underscores hunderscores, word_leading, word_chars]

theorem component_component (conv : Convention) (part : String) :
    conv.component (conv.component part) = conv.component part := by
  obtain ⟨c, cs, hchars, hdigit, hsettled, -⟩ := exists_component conv part
  have hname : String.ofList (leading (conv.chars (conv.component part).toList)) = conv.component part := by
    rw [hchars, chars_eq_self hsettled, leading_eq_self hdigit, ← hchars, String.ofList_toList]
  have hfree : ¬ Naming.Escaped [] (conv.component part) := identifier_not_escaped _
  rw [component, hname]
  exact Naming.guard_of_not_escaped hfree

/-- **Conversion gives usable and stable names.** For every text and every convention the component is an identifier
and no keyword; converting it again gives itself; and its characters other than underscores are the letters and digits
of the text in their order, in lower case unless case is preserved. -/
theorem component_usable (conv : Convention) (part : String) :
    IsIdentifier (conv.component part) ∧ conv.component part ∉ Naming.keywords ∧
    conv.component (conv.component part) = conv.component part ∧
    (conv.component part).toList.filter (· != '_') =
      (part.toList.filter Char.isAlphanum).map (if conv = preserve then id else Char.toLower) := by
  obtain ⟨c, cs, hchars, hdigit, hsettled, hword⟩ := exists_component conv part
  have hwords : ∀ d ∈ c :: cs, d.isAlphanum = true ∨ d = '_' := fun d hd => isWord_iff.mp (hsettled d hd).1
  refine ⟨⟨c, cs, hchars, ?_, fun d hd => hwords d (List.mem_cons_of_mem c hd)⟩, ?_, component_component conv part, ?_⟩
  · have hc := hwords c List.mem_cons_self
    rwa [Char.isAlphanum, hdigit, Bool.or_false] at hc
  · exact fun hmem => identifier_not_escaped _ (.inl hmem)
  · have hspell : conv.spell = if conv = preserve then id else Char.toLower := by cases conv <;> rfl
    rw [hchars, ← hspell]
    refine Eq.trans ?_ hword
    refine List.filter_congr fun d hd => ?_
    rcases hwords d hd with halnum | rfl
    · rw [halnum, bne_iff_ne]
      rintro rfl
      cases halnum
    · rfl

end Convention
end ProtoBind.Codegen
