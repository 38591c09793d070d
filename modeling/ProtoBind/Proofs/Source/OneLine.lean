/-
Declarations on one line.

A text without line feeds is one line, and one without slashes has no comments.
So declarations that are printed to such a text are read back with their lines
(`parse_oneLine`): a declaration is known by its lines and what it is without them
(`Decl.eq_of_bare`), and its lines are those of tokens of the text.
-/
import ProtoBind.Proofs.Source.Constructs
import ProtoBind.Proofs.Source.Printed

namespace ProtoBind.Source

/-! ## Declarations with one line -/

section Lines

variable {line : Nat}

theorem eq_of_map_eq {α β : Type} {f : α → β} {P : α → Prop} (hinj : ∀ {x y}, f x = f y → P x → P y → x = y) :
    ∀ {xs ys : List α}, xs.map f = ys.map f → (∀ x ∈ xs, P x) → (∀ y ∈ ys, P y) → xs = ys
  | [], [], _, _, _ => rfl
  | x :: xs, y :: ys, h, hxs, hys => by
    obtain ⟨hx, hxs⟩ := List.forall_mem_cons.mp hxs
    obtain ⟨hy, hys⟩ := List.forall_mem_cons.mp hys
    obtain ⟨hhead, htail⟩ := List.cons.inj h
    rw [hinj hhead hx hy, eq_of_map_eq hinj htail hxs hys]

theorem FieldDecl.eq_of_bare {f g : FieldDecl} (h : f.bare = g.bare) (hf : f.line = line) (hg : g.line = line) : f = g := by
  cases f
  cases g
  simp_all [FieldDecl.bare]

theorem EnumValueDecl.eq_of_bare {v w : EnumValueDecl} (h : v.bare = w.bare) (hv : v.line = line) (hw : w.line = line) :
    v = w := by
  cases v
  cases w
  simp_all [EnumValueDecl.bare]

theorem RpcDecl.eq_of_bare {r s : RpcDecl} (h : r.bare = s.bare) (hr : r.line = line) (hs : s.line = line) : r = s := by
  cases r
  cases s
  simp_all [RpcDecl.bare]

mutual

/-- Declarations that are the same but for their lines are the same if all lines are one. -/
theorem Decl.eq_of_bare : ∀ {d e : Decl}, d.bare = e.bare → (∀ l ∈ d.lines, l.2 = line) → (∀ l ∈ e.lines, l.2 = line) → d = e
  | .dialect _, e, h, _, _ | .edition _, e, h, _, _ | .package _, e, h, _, _ | .imports _, e, h, _, _
  | .option _ _, e, h, _, _ => by
    cases e <;> first | exact h | cases h
  | .field f, e, h, hd, he => by
    cases e <;> first | cases h | skip
    next g =>
      have hf := hd _ (List.mem_singleton_self _)
      have hg := he _ (List.mem_singleton_self _)
      rw [FieldDecl.eq_of_bare (Decl.field.inj h) hf hg]
  | .map f, e, h, hd, he => by
    cases e <;> first | cases h | skip
    next g =>
      have hf := hd _ (List.mem_singleton_self _)
      have hg := he _ (List.mem_singleton_self _)
      cases f
      cases g
      simp_all [Decl.bare, MapDecl.bare]
  | .oneof o, e, h, hd, he => by
    cases e <;> first | cases h | skip
    next p =>
      simp only [Decl.lines, List.forall_mem_cons, List.forall_mem_map] at hd he
      simp only [Decl.bare, OneofDecl.bare, Decl.oneof.injEq, OneofDecl.mk.injEq] at h
      have hfields := eq_of_map_eq FieldDecl.eq_of_bare h.2.1 hd.2 he.2
      cases o
      cases p
      simp_all
  | .message name items l, e, h, hd, he => by
    cases e <;> first | cases h | skip
    next name' items' l' =>
      simp only [Decl.lines, List.forall_mem_cons] at hd he
      simp only [Decl.bare, Decl.message.injEq] at h
      rw [h.1, eq_of_bareDecls h.2.1 hd.2 he.2, show l = l' from hd.1.trans he.1.symm]
  | .enum o, e, h, hd, he => by
    cases e <;> first | cases h | skip
    next p =>
      simp only [Decl.lines, List.forall_mem_cons, List.forall_mem_map] at hd he
      simp only [Decl.bare, EnumDecl.bare, Decl.enum.injEq, EnumDecl.mk.injEq] at h
      have hvalues := eq_of_map_eq EnumValueDecl.eq_of_bare h.2.1 hd.2 he.2
      cases o
      cases p
      simp_all
  | .service o, e, h, hd, he => by
    cases e <;> first | cases h | skip
    next p =>
      simp only [Decl.lines, List.forall_mem_cons, List.forall_mem_map] at hd he
      simp only [Decl.bare, ServiceDecl.bare, Decl.service.injEq, ServiceDecl.mk.injEq] at h
      have hrpcs := eq_of_map_eq RpcDecl.eq_of_bare h.2.1 hd.2 he.2
      cases o
      cases p
      simp_all
  | .extend o, e, h, hd, he => by
    cases e <;> first | cases h | skip
    next p =>
      simp only [Decl.lines, List.forall_mem_cons, List.forall_mem_map] at hd he
      simp only [Decl.bare, ExtendDecl.bare, Decl.extend.injEq, ExtendDecl.mk.injEq] at h
      have hfields := eq_of_map_eq FieldDecl.eq_of_bare h.2.1 hd.2 he.2
      cases o
      cases p
      simp_all

theorem eq_of_bareDecls : ∀ {ds es : List Decl}, bareDecls ds = bareDecls es → (∀ l ∈ linesAll ds, l.2 = line) →
    (∀ l ∈ linesAll es, l.2 = line) → ds = es
  | [], [], _, _, _ => rfl
  | [], _ :: _, h, _, _ => nomatch h
  | _ :: _, [], h, _, _ => nomatch h
  | d :: ds, e :: es, h, hds, hes => by
    simp only [linesAll, List.forall_mem_append] at hds hes
    obtain ⟨hhead, htail⟩ := List.cons.inj h
    rw [Decl.eq_of_bare hhead hds.1 hes.1, eq_of_bareDecls htail hds.2 hes.2]

end

end Lines

/-! ## Texts of one line -/

variable {text : String} {decls : List Decl} {comments : List Comment} {ds : List Decl}

mutual

theorem Tree.mem_tokens_of_declaring : ∀ {t : Tree} {x : Rule × List Token}, x ∈ t.declaring → ∀ k ∈ x.2, k ∈ t.tokens
  | .leaf _, _, hx, _, _ => nomatch hx
  | .node rule children, x, hx, k, hk => by
    rw [Tree.declaring] at hx
    split at hx
    · rcases List.mem_cons.mp hx with rfl | hx
      · exact hk
      · exact mem_tokens_of_declaringAll hx k hk
    · exact mem_tokens_of_declaringAll hx k hk

theorem mem_tokens_of_declaringAll : ∀ {ts : List Tree} {x : Rule × List Token}, x ∈ declaringAll ts → ∀ k ∈ x.2,
    k ∈ tokensAll ts
  | [], _, hx, _, _ => nomatch hx
  | t :: ts, x, hx, k, hk => by
    rw [tokensAll, List.mem_append]
    exact (List.mem_append.mp hx).imp (fun hx => Tree.mem_tokens_of_declaring hx k hk)
      fun hx => mem_tokens_of_declaringAll hx k hk

end

/-- Without line feeds all declarations are on the first line. -/
theorem lines_of_parse [CharacterNames] (h : parse text = .ok (decls, comments)) (hline : '\n' ∉ text.toList) :
    ∀ l ∈ linesAll decls, l.2 = 1 := by
  intro l hl
  obtain ⟨forest, htree, hbegins⟩ := parse_begins h
  obtain ⟨htext, hplaced, htokens, -⟩ := parseTree_tiled htree
  obtain ⟨x, hx, -, k, rest, hfirst, hk⟩ := forall₂_mem hbegins hl
  have htoken : k ∈ tokensAll forest := mem_tokens_of_declaringAll hx k (by rw [hfirst]; exact List.mem_cons_self)
  obtain ⟨p, hp, hpk⟩ := List.mem_filterMap.mp (htokens ▸ htoken)
  obtain rfl : p = .token k := by cases p <;> cases hpk; rfl
  obtain ⟨before, after, hpieces⟩ := List.append_of_mem hp
  obtain ⟨hk', -⟩ : (Piece.token k).Placed ([] ++ textOfPieces before) := hplaced before _ after hpieces
  have hnone : (textOfPieces before).count '\n' = 0 := by
    refine List.count_eq_zero.mpr fun hmem => hline ?_
    rw [← htext, hpieces, textOfPieces_append]
    exact List.mem_append_left _ hmem
  rw [hk, hk', List.nil_append, hnone]

/-- A comment begins with a slash. -/
theorem Cursor.slash_of_comment {expected : Nat} {c : Comment} (k : Cursor) (h : .comment c ∈ k.pieces expected) :
    '/' ∈ c.text.toList := by
  cases hscan : scan expected k.rest with
  | none =>
    rw [pieces_stray hscan] at h
    cases h
  | some found =>
    obtain ⟨t, n⟩ := found
    have hless := advance_less hscan
    rw [pieces_scan hscan] at h
    split at h
    next => exact slash_of_comment (k.advance n) (by simpa using h)
    split at h
    next hcomment =>
      rcases List.mem_cons.mp h with hc | h
      · obtain rfl := Piece.comment.inj hc
        obtain ⟨hpos, hrest⟩ := scan_pos hscan
        obtain ⟨first, rest, hk⟩ := List.exists_cons_of_length_pos hrest
        have hmatch : Terminal.comment.matchLength k.rest = some n := matchLength_of_scan (hcomment ▸ hscan) rfl
        rw [hk] at hmatch
        obtain ⟨m, rfl⟩ := Nat.exists_eq_succ_of_ne_zero (Nat.ne_of_gt hpos)
        rw [String.toList_ofList, hk, Terminal.commentLength_first hmatch, List.take_succ_cons]
        exact List.mem_cons_self
      · exact slash_of_comment (k.advance n) h
    next => simp at h
termination_by k.rest.length
decreasing_by all_goals exact hless

/-- The pieces of a run are cut off at places of the cursor. -/
theorem Machine.mem_pieces {tables : Tables} {p : Piece} : ∀ {fuel : Nat} {m : Machine}, p ∈ Machine.pieces tables fuel m →
    ∃ (k : Cursor) (expected : Nat), p ∈ k.pieces expected
  | 0, _, h => nomatch h
  | fuel + 1, m, h => by
    rw [Machine.pieces] at h
    split at h
    next m' _ =>
      rcases List.mem_append.mp h with h | h
      · unfold Machine.found at h
        split at h
        next state _ _ => exact ⟨_, state.expected, h⟩
        next => cases h
      · exact mem_pieces h
    next => cases h

/-- Without slashes there are no comments. -/
theorem comments_of_parse [CharacterNames] (h : parse text = .ok (decls, comments)) (hslash : '/' ∉ text.toList) :
    comments = [] := by
  obtain ⟨forest, htree, -⟩ := parse_begins h
  obtain ⟨htext, -, -, hcomments⟩ := parseTree_tiled htree
  refine List.eq_nil_iff_forall_not_mem.mpr fun c hc => hslash ?_
  obtain ⟨p, hp, hpc⟩ := List.mem_filterMap.mp (hcomments ▸ hc)
  obtain rfl : p = .comment c := by cases p <;> cases hpc; rfl
  obtain ⟨k, expected, hpiece⟩ := Machine.mem_pieces hp
  rw [← htext]
  exact List.mem_flatMap.mpr ⟨_, hp, k.slash_of_comment hpiece⟩

/-! ## Printed declarations -/

/-- What stands in no word, and is no blank, does not stand between the words either. -/
theorem notMem_spaced {c : Char} (hc : c ≠ ' ') : ∀ {words : List String}, (∀ w ∈ words, c ∉ w.toList) →
    c ∉ (Text.join " " words).toList
  | [], _ => by simp [Text.join]
  | [w], h => by simpa [Text.join] using h w List.mem_cons_self
  | w :: w' :: words, h => by
    have hrest := notMem_spaced hc fun x (hx : x ∈ w' :: words) => h x (List.mem_cons_of_mem w hx)
    rw [Text.join] at hrest ⊢
    rw [String.intercalate_cons_of_ne_nil (List.cons_ne_nil w' words), String.toList_append, String.toList_append]
    simp only [List.mem_append, not_or]
    exact ⟨⟨h w List.mem_cons_self, by simpa using hc⟩, hrest⟩

/-- Declarations that are printed on one line, all of them at line 1. -/
def isOneLine (ds : List Decl) : Bool :=
  ds.all (·.isPrintable isShort false) && (linesAll ds).all (·.2 == 1) &&
    (ds.flatMap Decl.words).all fun w => w.toList.all fun c => c != '\n' && c != '/'

/-- **Declarations on one line are read back as they are.** -/
theorem parse_oneLine [CharacterNames] (h : isOneLine ds = true) : parse (printed ds) = .ok (ds, []) := by
  simp only [isOneLine, Bool.and_eq_true, List.all_eq_true, beq_iff_eq, bne_iff_ne] at h
  obtain ⟨⟨hprintable, hlines⟩, hplain⟩ := h
  have hline : '\n' ∉ (printed ds).toList := notMem_spaced (by decide) fun w hw hmem => (hplain w hw _ hmem).1 rfl
  have hslash : '/' ∉ (printed ds).toList := notMem_spaced (by decide) fun w hw hmem => (hplain w hw _ hmem).2 rfl
  have hread : (parse (printed ds)).map (·.1.map Decl.bare) = .ok (ds.map Decl.bare) := by
    rw [printed, parse_of_reads (reads_file hprintable)]
    exact congrArg Except.ok (filterMap_items fun _ => rfl)
  obtain ⟨⟨decls, comments⟩, hparse, hbare⟩ := mapped_ok_iff.mp hread
  have hdecls : decls = ds := by
    rw [← bareDecls_eq, ← bareDecls_eq] at hbare
    exact eq_of_bareDecls hbare (lines_of_parse hparse hline) hlines
  rw [hparse, hdecls, comments_of_parse hparse hslash]

end ProtoBind.Source
