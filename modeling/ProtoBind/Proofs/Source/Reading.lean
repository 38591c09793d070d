/-
What words are read as.

Words make up an expression when they are the texts of clear tokens of trees
of the expression, and what they are read as is what these trees mean
(`Reads`). The words of a whole file are read as they are by the parser
(`parse_of_reads`).
-/
import Mathlib.Data.List.Induction
import ProtoBind.Proofs.Source.Forms
import ProtoBind.Proofs.Source.Spelling

namespace ProtoBind.Source

open Grammar (Expr)

variable {a b e : Expr} {ws ws' : List String} {ms parts : List Meaning} {result : Except LiteralFault (List Meaning)}
  {fault : LiteralFault} {us : List Tree} {t : Terminal} {w : String} {r : Rule} {m : Meaning}

/-- Trees that expressions stand for have no places. -/
theorem Forms.bare (h : Forms e us) : bareTrees us = us := by
  induction h with
  | empty | absent | nothing => rfl
  | terminal => rfl
  | rule parts ih => rw [bareTrees, Tree.bare, ih]; rfl
  | seq _ _ iha ihb => rw [bareTrees_append, iha, ihb]
  | more _ _ ihbefore ihlast => rw [bareTrees_append, ihbefore, ihlast]
  | left _ ih | right _ ih | present _ ih | many _ ih | one _ ih => exact ih

variable [CharacterNames]

theorem meaningAll_append (us ts : List Tree) : meaningAll (ts ++ us) = (do
    let ms ← meaningAll ts
    let ms' ← meaningAll us
    return ms ++ ms') := by
  induction ts with
  | nil => cases hus : meaningAll us <;> simp [meaningAll, hus] <;> rfl
  | cons t ts ih =>
    rw [List.cons_append, meaningAll, meaningAll, ih]
    cases t.meaning with
    | error fault => rfl
    | ok m =>
      cases meaningAll ts with
      | error fault => rfl
      | ok ms => cases meaningAll us <;> rfl

/-- The words are the texts of clear tokens of trees that the expression stands for, and this is what the trees mean. -/
def Reads (e : Expr) (ws : List String) (result : Except LiteralFault (List Meaning)) : Prop :=
  ∃ us, Forms e us ∧ textsOf us = ws ∧ (∀ k ∈ tokensAll us, k.Clear) ∧ meaningAll us = result

/-- The meaning of a token. -/
def leafOf (t : Terminal) (w : String) : Meaning := .token (.of t w)

namespace Reads

theorem token (h : (Token.of t w).Clear) : Reads (.terminal t.index) [w] (.ok [leafOf t w]) :=
  ⟨_, .terminal t w, rfl, fun k hk => by
    obtain rfl : k = Token.of t w := by simpa [tokensAll, Tree.tokens] using hk
    exact h, rfl⟩

theorem spelled (t : Terminal) (w : String) (h : t.spelling? = some w) :
    Reads (.terminal t.index) [w] (.ok [leafOf t w]) :=
  token (clear_spelled h)

theorem seq (ha : Reads a ws (.ok ms)) (hb : Reads b ws' result) :
    Reads (.seq a b) (ws ++ ws') (result.map (ms ++ ·)) := by
  obtain ⟨ts, hts, rfl, hclear, hmeaning⟩ := ha
  obtain ⟨us, hus, rfl, hclear', rfl⟩ := hb
  refine ⟨ts ++ us, hts.seq hus, textsOf_append ts us, fun k hk => ?_, ?_⟩
  · rw [tokensAll_append] at hk
    exact (List.mem_append.mp hk).elim (hclear k) (hclear' k)
  · rw [meaningAll_append, hmeaning]
    cases meaningAll us <;> rfl

theorem seq_error (ha : Reads a ws (.error fault)) (hb : Reads b ws' result) :
    Reads (.seq a b) (ws ++ ws') (.error fault) := by
  obtain ⟨ts, hts, rfl, hclear, hmeaning⟩ := ha
  obtain ⟨us, hus, rfl, hclear', rfl⟩ := hb
  refine ⟨ts ++ us, hts.seq hus, textsOf_append ts us, fun k hk => ?_, ?_⟩
  · rw [tokensAll_append] at hk
    exact (List.mem_append.mp hk).elim (hclear k) (hclear' k)
  · rw [meaningAll_append, hmeaning]
    rfl

theorem left (h : Reads a ws result) : Reads (.alt a b) ws result := by
  obtain ⟨us, hus, h⟩ := h
  exact ⟨us, hus.left, h⟩

theorem right (h : Reads b ws result) : Reads (.alt a b) ws result := by
  obtain ⟨us, hus, h⟩ := h
  exact ⟨us, hus.right, h⟩

theorem absent : Reads (.opt a) [] (.ok []) := ⟨[], .absent, rfl, nofun, rfl⟩

theorem present (h : Reads a ws result) : Reads (.opt a) ws result := by
  obtain ⟨us, hus, h⟩ := h
  exact ⟨us, hus.present, h⟩

/-- A construct means what its parts make of it. -/
theorem rule (h : Reads r.body ws result) :
    Reads (.rule r.index) ws (result >>= fun parts => (Meaning.ofParts r 0 parts).map ([·])) := by
  obtain ⟨us, hus, htexts, hclear, rfl⟩ := h
  refine ⟨[.node r us], .rule hus, by simpa [textsOf, tokensAll, Tree.tokens] using htexts, fun k hk => ?_, ?_⟩
  · exact hclear k (by simpa [tokensAll, Tree.tokens] using hk)
  · have hline : firstLine us = 0 := hus.bare ▸ firstLine_bare us
    rw [meaningAll, Tree.meaning, hline]
    cases meaningAll us with
    | error fault => rfl
    | ok parts =>
      show (Meaning.ofParts r 0 parts >>= fun m => meaningAll [] >>= fun ms => pure (m :: ms)) =
        (Meaning.ofParts r 0 parts).map ([·])
      cases Meaning.ofParts r 0 parts <;> rfl

theorem construct (h : Reads r.body ws (.ok parts)) (hm : Meaning.ofParts r 0 parts = .ok m) :
    Reads (.rule r.index) ws (.ok [m]) := by
  have hrule := h.rule
  rwa [show (Except.ok parts >>= fun parts => (Meaning.ofParts r 0 parts).map ([·])) =
    (Meaning.ofParts r 0 parts).map ([·]) from rfl, hm] at hrule

/-- Items one after the other, at least one. -/
theorem someOf {α : Type} {f : α → List String} {g : α → List Meaning} {x : α} (xs : List α)
    (h : ∀ y ∈ x :: xs, Reads e (f y) (.ok (g y))) :
    Reads (.some e) ((x :: xs).flatMap f) (.ok ((x :: xs).flatMap g)) := by
  induction xs using List.reverseRecOn with
  | nil =>
    obtain ⟨us, hus, h⟩ := h x List.mem_cons_self
    exact ⟨us, hus.one, by simpa using h⟩
  | append_singleton xs y ih =>
    obtain ⟨ts, hts, htexts, hclear, hmeaning⟩ := ih fun z hz => h z (by simp at hz ⊢; tauto)
    obtain ⟨us, hus, htexts', hclear', hmeaning'⟩ := h y (by simp)
    refine ⟨ts ++ us, hts.more hus, ?_, fun k hk => ?_, ?_⟩
    · rw [textsOf_append, htexts, htexts']
      simp
    · rw [tokensAll_append] at hk
      exact (List.mem_append.mp hk).elim (hclear k) (hclear' k)
    · rw [meaningAll_append, hmeaning, hmeaning']
      simp [bind, Except.bind, pure, Except.pure]

/-- Items one after the other. -/
theorem manyOf {α : Type} {f : α → List String} {g : α → List Meaning} : ∀ {xs : List α},
    (∀ x ∈ xs, Reads e (f x) (.ok (g x))) → Reads (.many e) (xs.flatMap f) (.ok (xs.flatMap g))
  | [], _ => ⟨[], .nothing, rfl, nofun, rfl⟩
  | x :: xs, h => by
    obtain ⟨us, hus, h⟩ := someOf xs h
    exact ⟨us, hus.many, h⟩

/-- Items with one meaning each. -/
theorem items {α : Type} {f : α → List String} {g : α → Meaning} {xs : List α}
    (h : ∀ x ∈ xs, Reads e (f x) (.ok [g x])) : Reads (.many e) (xs.flatMap f) (.ok (xs.map g)) := by
  rw [← List.flatMap_singleton' (xs.map g), List.flatMap_map]
  exact manyOf h

theorem manyOne (h : Reads e ws result) : Reads (.many e) ws result := by
  obtain ⟨us, hus, h⟩ := h
  exact ⟨us, hus.one.many, h⟩

end Reads

/-! ## Whole texts -/

/-- The words of a file, with single blanks between them, declare what they are read as. -/
theorem parse_of_reads (h : Reads Rule.file.body ws result) :
    (parse (Text.join " " ws)).map (·.1.map Decl.bare) =
      (result.map (·.filterMap Meaning.decl?)).mapError ParseFault.literal := by
  obtain ⟨us, hus, rfl, hclear, hmeaning⟩ := h
  obtain ⟨forest, comments, htree, hbare⟩ := parseTree_of_forms hus (upcoming_spaced hclear)
  rw [parse_eq, show Text.join " " (textsOf us) = Text.join " " ((tokensAll us).map (·.text)) from rfl, htree,
    ← declarations_bare forest comments comments, hbare, declarations_ok, meaningAll, Tree.meaning, hmeaning]
  cases result with
  | error fault => rfl
  | ok parts =>
    show Except.ok ([Meaning.file (parts.filterMap Meaning.decl?)].flatMap Meaning.decls) = _
    rw [List.flatMap_singleton]
    rfl

end ProtoBind.Source
