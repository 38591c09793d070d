/-
The tags in parsed files.

An integer stands alone behind the equals sign of a field, and its text has no
sign (`intLength_unsigned`). So no tag that a file declares is negative, however
deep its field stands (`parse_tags`).
-/
import ProtoBind.Proofs.Source.Names

namespace ProtoBind.Source

/-! ## Integers without a sign -/

theorem Terminal.intLength_unsigned {s : List Char} {n : Nat} (h : intLength s = some n) :
    (s.take n).head? ≠ some '-' := by
  cases s with
  | nil => simp
  | cons c rest =>
    intro hc
    cases n with
    | zero => simp at hc
    | succ n =>
      obtain rfl : c = '-' := by simpa using hc
      have hnone : intLength ('-' :: rest) = none := by
        simp [intLength, spanLength, positive]
      rw [hnone] at h
      cases h

theorem intLiteral?_nonneg {text : List Char} {k : Int} (h : intLiteral? text = some k)
    (hsign : text.head? ≠ some '-') : 0 ≤ k := by
  obtain ⟨n, hn, rfl⟩ := Option.map_eq_some_iff.mp h
  obtain ⟨magnitude, -, hmagnitude⟩ := Option.bind_eq_some_iff.mp hn
  rw [if_neg (by simpa using hsign), ← Option.some.inj hmagnitude]
  exact Int.natCast_nonneg magnitude

/-! ## Tags of declarations -/

mutual

/-- The tags in a declaration, at any depth. -/
def Decl.tags : Decl → List Int
  | .field f => [f.tag]
  | .map m => [m.tag]
  | .oneof o => o.fields.map (·.tag)
  | .message _ items _ => tagsAll items
  | .extend e => e.fields.map (·.tag)
  | .dialect _ | .edition _ | .package _ | .imports _ | .option _ _ | .enum _ | .service _ => []

def tagsAll : List Decl → List Int
  | [] => []
  | d :: rest => d.tags ++ tagsAll rest

end

theorem mem_tagsAll {k : Int} : ∀ {ds : List Decl}, k ∈ tagsAll ds ↔ ∃ d ∈ ds, k ∈ d.tags
  | [] => by simp [tagsAll]
  | d :: ds => by simp [tagsAll, @mem_tagsAll k ds]

namespace Meaning

/-- The tags in a meaning. -/
def tags : Meaning → List Int
  | member f => [f.tag]
  | decl d => d.tags
  | file ds => tagsAll ds
  | _ => []

/-- No tag in the meaning is negative, and a token is as it was matched. -/
def Unsigned : Meaning → Prop
  | token t => t.Matched
  | m => ∀ k ∈ m.tags, 0 ≤ k

variable {parts : List Meaning}

theorem Unsigned.nonneg {m : Meaning} {k : Int} (h : m.Unsigned) (hk : k ∈ m.tags) : 0 ≤ k := by
  cases m with
  | token t => cases hk
  | _ => exact h k hk

/-- The tag of a field is the number of a matched integer. -/
theorem tagOf_nonneg {rule : Rule} {k : Int} (h : ∀ m ∈ parts, m.Unsigned) (hk : tagOf rule parts = .ok k) : 0 ≤ k := by
  unfold tagOf at hk
  split at hk
  next n hn =>
    obtain rfl := Except.ok.inj hk
    refine intLiteral?_nonneg hn ?_
    rw [firstText]
    cases hfirst : parts.findSome? (text? .int) with
    | none => simp
    | some text =>
      obtain ⟨m, hm, htext⟩ := List.exists_of_findSome?_eq_some hfirst
      cases m with
      | token t =>
        simp only [text?, Option.ite_none_right_eq_some, Option.some.injEq] at htext
        obtain ⟨hint, rfl⟩ := htext
        obtain ⟨s, n, hn, ht⟩ := (show t.Matched from h _ hm) (by rw [hint]; rfl)
        rw [hint] at hn
        rw [Option.getD_some, ht, String.toList_ofList]
        exact Terminal.intLength_unsigned hn
      | _ => cases htext
  next => cases hk

theorem tagsAll_decl?_nonneg (h : ∀ m ∈ parts, m.Unsigned) : ∀ k ∈ tagsAll (parts.filterMap decl?), 0 ≤ k := by
  intro k hk
  obtain ⟨d, hd, hk⟩ := mem_tagsAll.mp hk
  obtain ⟨m, hm, hd⟩ := List.mem_filterMap.mp hd
  cases m with
  | decl d' =>
    obtain rfl : d' = d := by simpa [decl?] using hd
    exact (h _ hm).nonneg hk
  | _ => simp [decl?] at hd

theorem tags_member?_nonneg (h : ∀ m ∈ parts, m.Unsigned) : ∀ k ∈ (parts.filterMap member?).map (·.tag), 0 ≤ k := by
  intro k hk
  obtain ⟨f, hf, rfl⟩ := List.mem_map.mp hk
  obtain ⟨m, hm, hf⟩ := List.mem_filterMap.mp hf
  cases m with
  | member f' =>
    obtain rfl : f' = f := by simpa [member?] using hf
    exact (h _ hm).nonneg List.mem_cons_self
  | _ => simp [member?] at hf

theorem tags_fieldDecl?_nonneg (h : ∀ m ∈ parts, m.Unsigned) :
    ∀ k ∈ (parts.filterMap fieldDecl?).map (·.tag), 0 ≤ k := by
  intro k hk
  obtain ⟨f, hf, rfl⟩ := List.mem_map.mp hk
  obtain ⟨m, hm, hf⟩ := List.mem_filterMap.mp hf
  unfold fieldDecl? at hf
  split at hf
  next f' =>
    obtain rfl : f' = f := Option.some.inj hf
    refine (h _ hm).nonneg (k := f'.tag) ?_
    simp [tags, Decl.tags]
  next => simp at hf

theorem inner_unsigned (h : ∀ m ∈ parts, m.Unsigned) : (inner parts).Unsigned := by
  unfold inner
  cases hf : parts.find? _ with
  | none => exact nofun
  | some m => exact h m (List.mem_of_find?_eq_some hf)

/-- A construct has the tags of its parts and at most one tag more, that of a field. -/
theorem ofParts_unsigned [CharacterNames] : Inherits Unsigned := by
  intro rule line parts m h hm
  cases rule
  case file =>
    cases hm
    exact tagsAll_decl?_nonneg h
  case message =>
    cases hm
    exact tagsAll_decl?_nonneg h
  case field | oneofField | mapField =>
    obtain ⟨tag, htag, rfl⟩ := map_ok_iff.mp hm
    intro k hk
    obtain rfl : k = tag := by simpa [tags, Decl.tags] using hk
    exact tagOf_nonneg h htag
  case oneof =>
    cases hm
    exact tags_member?_nonneg h
  case extend =>
    cases hm
    exact tags_fieldDecl?_nonneg h
  case statement | messageItem | oneofItem | enumItem | serviceItem | extendItem | aggregateValue =>
    cases hm
    exact inner_unsigned h
  case constant =>
    have hi := inner_unsigned h
    simp only [ofParts] at hm
    split at hm <;> cases hm
    · exact List.forall_mem_nil _
    · exact hi
  case syntaxDecl | editionDecl | importDecl | strings =>
    obtain ⟨text, -, rfl⟩ := map_ok_iff.mp hm
    exact List.forall_mem_nil _
  case optionPart | aggregateKey | number | label | typeRef | enumNumber =>
    simp only [ofParts] at hm
    split at hm <;> cases hm <;> exact List.forall_mem_nil _
  all_goals
    cases hm
    exact List.forall_mem_nil _

end Meaning

/-- **No declared tag is negative.** -/
theorem parse_tags [CharacterNames] {text : String} {decls : List Decl} {comments : List Comment}
    (h : parse text = .ok (decls, comments)) : ∀ d ∈ decls, ∀ k ∈ d.tags, 0 ≤ k := by
  intro d hd k hk
  obtain ⟨ds, hmem, hunsigned⟩ := declarations_induct (fun _ ht => ht) Meaning.ofParts_unsigned
    (fun _ _ ht => parseTree_matched ht) h d hd
  exact hunsigned k (mem_tagsAll.mpr ⟨d, hmem, hk⟩)

end ProtoBind.Source
