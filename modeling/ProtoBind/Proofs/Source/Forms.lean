/-
What rule expressions stand for.

The trees of an expression follow its shape (`Forms`). Lowering turns
expressions into productions: an option into two alternatives, a repetition
into a helper (`ofRules_lowered`). Whatever trees an expression has, one of
its alternatives derives them (`Forms.derives`), so the trees of a whole file
are those of a parsed text (`parseTree_of_forms`).
-/
import ProtoBind.Proofs.Source.Derivations

namespace ProtoBind

/-! ## Lowering -/

namespace Grammar

namespace Expr

/-- The alternatives of an expression when all its repetitions are among the helpers. -/
def alternatives (base : Nat) (helpers : List Expr) : Expr → List (List Symbol)
  | empty => [[]]
  | terminal t => [[.terminal t]]
  | rule n => [[.nonterminal n]]
  | seq a b => (a.alternatives base helpers).flatMap fun l => (b.alternatives base helpers).map (l ++ ·)
  | alt a b => a.alternatives base helpers ++ b.alternatives base helpers
  | opt a => a.alternatives base helpers ++ [[]]
  | many a => [[.nonterminal (base + helpers.idxOf a)], []]
  | some a => [[.nonterminal (base + helpers.idxOf a)]]

/-- All repetitions in an expression are among the helpers. -/
def Helped (helpers : List Expr) : Expr → Prop
  | empty | terminal _ | rule _ => True
  | seq a b | alt a b => a.Helped helpers ∧ b.Helped helpers
  | opt a => a.Helped helpers
  | many a | some a => a.Helped helpers ∧ a ∈ helpers

variable {base : Nat} {helpers known more : List Expr} {a e : Expr}

theorem Helped.append (h : e.Helped helpers) (more : List Expr) : e.Helped (helpers ++ more) := by
  induction e with
  | empty | terminal | rule => trivial
  | seq a b iha ihb | alt a b iha ihb => exact ⟨iha h.1, ihb h.2⟩
  | opt a ih => exact ih h
  | many a ih | some a ih => exact ⟨ih h.1, List.mem_append_left more h.2⟩

/-- Helpers that are entered later change nothing. -/
theorem alternatives_append (h : e.Helped helpers) (more : List Expr) :
    e.alternatives base (helpers ++ more) = e.alternatives base helpers := by
  induction e with
  | empty | terminal | rule => rfl
  | seq a b iha ihb | alt a b iha ihb => rw [alternatives, alternatives, iha h.1, ihb h.2]
  | opt a ih => rw [alternatives, alternatives, ih h]
  | many a ih | some a ih => rw [alternatives, alternatives, List.idxOf_append_of_mem h.2]

/-- The repetitions of helpers are helpers. -/
def Closed (helpers : List Expr) : Prop := ∀ e ∈ helpers, e.Helped helpers

/-- The helpers known now come from those known before. -/
structure Enters (known known' : List Expr) : Prop where
  grows : ∃ more, known' = known ++ more
  closed : Closed known → Closed known'

namespace Enters

variable {known₁ known₂ : List Expr}

theorem refl (known : List Expr) : Enters known known := ⟨⟨[], (List.append_nil known).symm⟩, id⟩

theorem trans (h : Enters known known₁) (h' : Enters known₁ known₂) : Enters known known₂ := by
  obtain ⟨more, rfl⟩ := h.grows
  obtain ⟨more', rfl⟩ := h'.grows
  exact ⟨⟨more ++ more', List.append_assoc known more more'⟩, h'.closed ∘ h.closed⟩

theorem helped (h : Enters known known₁) (he : e.Helped known) : e.Helped known₁ := by
  obtain ⟨more, rfl⟩ := h.grows
  exact he.append more

theorem alternatives (h : Enters known known₁) (he : e.Helped known) :
    e.alternatives base known₁ = e.alternatives base known := by
  obtain ⟨more, rfl⟩ := h.grows
  exact alternatives_append he more

end Enters

theorem helper_known (ha : a ∈ known) : helper a known = (known.idxOf a, known) := by
  unfold helper
  cases hfind : known.findIdx? (· == a) with
  | none =>
    have hne := List.findIdx?_eq_none_iff.mp hfind a ha
    simp at hne
  | some i =>
    rw [List.idxOf_eq_getD_idxOf?, List.idxOf?, hfind]
    rfl

theorem helper_new (ha : a ∉ known) : helper a known = (known.length, known ++ [a]) := by
  have hnone : known.findIdx? (· == a) = none := by
    refine List.findIdx?_eq_none_iff.mpr fun x hx => beq_false_of_ne ?_
    rintro rfl
    exact ha hx
  rw [helper, hnone]

/-- The helper of an expression has its place among the helpers. -/
theorem helper_spec (ha : a.Helped known) : ∃ known', helper a known = (known'.idxOf a, known') ∧
    Enters known known' ∧ a ∈ known' := by
  by_cases hmem : a ∈ known
  · exact ⟨known, helper_known hmem, .refl known, hmem⟩
  · refine ⟨known ++ [a], ?_, ⟨⟨[a], rfl⟩, fun hclosed e he => ?_⟩, List.mem_append_right _ (List.mem_singleton_self a)⟩
    · rw [helper_new hmem, List.idxOf_append_of_notMem hmem, List.idxOf_cons_self, Nat.add_zero]
    · rcases List.mem_append.mp he with he | he
      · exact (hclosed e he).append [a]
      · obtain rfl := List.mem_singleton.mp he
        exact ha.append [e]

/-- What lowering an expression gives: its alternatives, with its repetitions among the helpers. -/
theorem lower_spec (base : Nat) (e : Expr) (known : List Expr) : ∃ known',
    e.lower base known = (e.alternatives base known', known') ∧ e.Helped known' ∧ Enters known known' := by
  induction e generalizing known with
  | empty | terminal | rule => exact ⟨known, rfl, trivial, .refl known⟩
  | seq a b iha ihb | alt a b iha ihb =>
    obtain ⟨known₁, ha, hhelped, henters⟩ := iha known
    obtain ⟨known₂, hb, hhelped', henters'⟩ := ihb known₁
    refine ⟨known₂, ?_, ⟨henters'.helped hhelped, hhelped'⟩, henters.trans henters'⟩
    rw [alternatives, henters'.alternatives hhelped]
    simp only [lower, bind, StateT.bind, ha, hb]
    rfl
  | opt a ih =>
    obtain ⟨known₁, ha, hhelped, henters⟩ := ih known
    refine ⟨known₁, ?_, hhelped, henters⟩
    simp only [lower, bind, StateT.bind, ha, alternatives]
    rfl
  | many a ih | some a ih =>
    obtain ⟨known₁, ha, hhelped, henters⟩ := ih known
    obtain ⟨known₂, hhelper, henters', hmem⟩ := helper_spec hhelped
    refine ⟨known₂, ?_, ⟨henters'.helped hhelped, hmem⟩, henters.trans henters'⟩
    simp only [lower, bind, StateT.bind, ha, hhelper, alternatives]
    rfl

/-- Where all repetitions are among the helpers, no helper is entered. -/
theorem lower_helped (base : Nat) (h : e.Helped helpers) :
    e.lower base helpers = (e.alternatives base helpers, helpers) := by
  induction e with
  | empty | terminal | rule => rfl
  | seq a b iha ihb | alt a b iha ihb =>
    simp only [lower, bind, StateT.bind, iha h.1, ihb h.2, alternatives]
    rfl
  | opt a ih =>
    simp only [lower, bind, StateT.bind, ih h, alternatives]
    rfl
  | many a ih | some a ih =>
    simp only [lower, bind, StateT.bind, ih h.1, helper_known h.2, alternatives]
    rfl

end Expr

/-- A grammar has the productions of all rules and of all helpers. -/
structure Lowered (g : Grammar) (rules helpers : List Expr) : Prop where
  ruled : ∀ {n : Nat} {e : Expr}, rules[n]? = some e → e.Helped helpers ∧
    ∀ ss ∈ e.alternatives rules.length helpers, ⟨n, ss⟩ ∈ g.productions
  helped : ∀ e ∈ helpers, e.Helped helpers ∧ ∀ ss ∈ e.alternatives rules.length helpers,
    ⟨rules.length + helpers.idxOf e, ss⟩ ∈ g.productions ∧
    ⟨rules.length + helpers.idxOf e, .nonterminal (rules.length + helpers.idxOf e) :: ss⟩ ∈ g.productions

theorem lowerRules_spec (base : Nat) : ∀ (rules : List (Nat × Expr)) (known : List Expr), ∃ productions known',
    lowerRules base rules known = (productions, known') ∧ Expr.Enters known known' ∧
    ∀ r ∈ rules, r.2.Helped known' ∧ ∀ ss ∈ r.2.alternatives base known', ⟨r.1, ss⟩ ∈ productions
  | [], known => ⟨[], known, rfl, .refl known, fun r hr => by cases hr⟩
  | (n, e) :: rest, known => by
    obtain ⟨known₁, he, hhelped, henters⟩ := e.lower_spec base known
    obtain ⟨productions, known₂, hrest, henters', hall⟩ := lowerRules_spec base rest known₁
    refine ⟨(e.alternatives base known₁).map (⟨n, ·⟩) ++ productions, known₂, ?_, henters.trans henters', fun r hr => ?_⟩
    · simp only [lowerRules, bind, StateT.bind, he, hrest]
      rfl
    · rcases List.mem_cons.mp hr with rfl | hr
      · refine ⟨henters'.helped hhelped, fun ss hss => List.mem_append_left _ ?_⟩
        rw [henters'.alternatives hhelped] at hss
        exact List.mem_map_of_mem hss
      · exact ⟨(hall r hr).1, fun ss hss => List.mem_append_right _ ((hall r hr).2 ss hss)⟩

theorem ofRules_terminals (terminals start : Nat) (rules : List Expr) :
    (ofRules terminals start rules).terminals = terminals := rfl

theorem ofRules_start (terminals start : Nat) (rules : List Expr) : (ofRules terminals start rules).start = start := rfl

/-- The grammar of rules has all their productions, and those of its helpers. -/
theorem ofRules_lowered (terminals start : Nat) (rules : List Expr) :
    ∃ helpers, (ofRules terminals start rules).Lowered rules helpers := by
  obtain ⟨productions, helpers, hlower, henters, hall⟩ :=
    lowerRules_spec rules.length (rules.zipIdx.map fun x => (x.2, x.1)) []
  have hclosed : Expr.Closed helpers := henters.closed fun e he => by cases he
  have hproductions : (ofRules terminals start rules).productions = productions ++
      helpers.zipIdx.flatMap fun x => helperProductions rules.length helpers x.2 x.1 := by
    show (lowerRules rules.length (rules.zipIdx.map fun x => (x.2, x.1)) []).1 ++
      (lowerRules rules.length (rules.zipIdx.map fun x => (x.2, x.1)) []).2.zipIdx.flatMap _ = _
    rw [hlower]
  refine ⟨helpers, fun {n e} hn => ?_, fun e he => ⟨hclosed e he, fun ss hss => ?_⟩⟩
  · have hmem : (n, e) ∈ rules.zipIdx.map fun x => (x.2, x.1) :=
      List.mem_map.mpr ⟨(e, n), List.mk_mem_zipIdx_iff_getElem?.mpr hn, rfl⟩
    obtain ⟨hhelped, hin⟩ := hall _ hmem
    exact ⟨hhelped, fun ss hss => hproductions ▸ List.mem_append_left _ (hin ss hss)⟩
  · have hmem : (e, helpers.idxOf e) ∈ helpers.zipIdx := by
      rw [List.mk_mem_zipIdx_iff_getElem?, List.getElem?_eq_getElem (List.idxOf_lt_length_of_mem he), List.getElem_idxOf]
    have hin {p : Production} (hp : p ∈ helperProductions rules.length helpers (helpers.idxOf e) e) :
        p ∈ (ofRules terminals start rules).productions :=
      hproductions ▸ List.mem_append_right _ (List.mem_flatMap.mpr ⟨_, hmem, hp⟩)
    rw [helperProductions, Expr.lower_helped _ (hclosed e he)] at hin
    exact ⟨hin (List.mem_append_left _ (List.mem_map_of_mem hss)), hin (List.mem_append_right _ (List.mem_map_of_mem hss))⟩

end Grammar

/-! ## Trees of expressions -/

namespace Source

open Grammar (Expr Lowered)

/-- The trees that an expression over the rules stands for. -/
inductive Forms : Expr → List Tree → Prop
  | empty : Forms .empty []
  | terminal (t : Terminal) (text : String) : Forms (.terminal t.index) [.leaf (.of t text)]
  | rule {r : Rule} {us : List Tree} (parts : Forms r.body us) : Forms (.rule r.index) [.node r us]
  | seq {a b : Expr} {ts us : List Tree} (left : Forms a ts) (right : Forms b us) : Forms (.seq a b) (ts ++ us)
  | left {a b : Expr} {ts : List Tree} (h : Forms a ts) : Forms (.alt a b) ts
  | right {a b : Expr} {ts : List Tree} (h : Forms b ts) : Forms (.alt a b) ts
  | absent {a : Expr} : Forms (.opt a) []
  | present {a : Expr} {ts : List Tree} (h : Forms a ts) : Forms (.opt a) ts
  | nothing {a : Expr} : Forms (.many a) []
  | many {a : Expr} {ts : List Tree} (h : Forms (.some a) ts) : Forms (.many a) ts
  | one {a : Expr} {ts : List Tree} (h : Forms a ts) : Forms (.some a) ts
  | more {a : Expr} {ts us : List Tree} (before : Forms (.some a) ts) (last : Forms a us) : Forms (.some a) (ts ++ us)

section

variable {g : Grammar} {tables : Tables} {helpers : List Expr} {e : Expr} {ss ss' : List Grammar.Symbol}
  {ts us : List Tree}

theorem Derives.append (h : Derives g tables ss ts) (h' : Derives g tables ss' us) :
    Derives g tables (ss ++ ss') (ts ++ us) := by
  induction h with
  | nil => exact h'
  | terminal t text rest ih => exact .terminal t text ih
  | nonterminal hp parts rest ihparts ih =>
    rw [List.append_assoc]
    exact .nonterminal hp parts ih

/-- The numbers of the rules are their places among all rules. -/
theorem Rule.all_index (r : Rule) : Rule.all[r.index]? = some r := by
  cases r <;> rfl

theorem Rule.index_of_all {n : Nat} {rule : Rule} (h : Rule.all[n]? = some rule) : rule.index = n := by
  have hnodup : Rule.all.Nodup := by decide
  obtain ⟨hn, rfl⟩ := List.getElem?_eq_some_iff.mp h
  exact hnodup.idxOf_getElem n hn

/-- A construct derives its node when one of its alternatives derives the parts. -/
theorem Derives.rule (hrules : tables.rules = Rule.all.toArray) {r : Rule} (hp : ⟨r.index, ss⟩ ∈ g.productions)
    (h : Derives g tables ss us) : Derives g tables [.nonterminal r.index] [.node r us] := by
  have hnode : Machine.reduced tables r.index us = [.node r us] := by
    rw [Machine.reduced, hrules, List.getElem?_toArray, r.all_index]
  have hderives := Derives.nonterminal hp h .nil
  rwa [hnode] at hderives

/-- A helper passes its parts on. -/
theorem Derives.helper (hrules : tables.rules = Rule.all.toArray) {n : Nat} (hn : Rule.all.length ≤ n)
    (hp : ⟨n, ss⟩ ∈ g.productions) (h : Derives g tables ss us) : Derives g tables [.nonterminal n] us := by
  have hnone : Machine.reduced tables n us = us := by
    rw [Machine.reduced, hrules, List.getElem?_toArray, List.getElem?_eq_none hn]
  have hderives := Derives.nonterminal hp h .nil
  rwa [hnone, List.append_nil] at hderives

/-- **Whatever trees an expression has, one of its alternatives derives them.** -/
theorem Forms.derives (hl : g.Lowered (Rule.all.map Rule.body) helpers) (hrules : tables.rules = Rule.all.toArray)
    (h : Forms e ts) : e.Helped helpers →
    ∃ ss ∈ e.alternatives (Rule.all.map Rule.body).length helpers, Derives g tables ss ts := by
  have hlength : Rule.all.length = (Rule.all.map Rule.body).length := (List.length_map _).symm
  induction h with
  | empty => exact fun _ => ⟨[], List.mem_singleton_self _, .nil⟩
  | terminal t text => exact fun _ => ⟨_, List.mem_singleton_self _, .terminal t text .nil⟩
  | @rule r us parts ih =>
    intro _
    obtain ⟨hhelped, hproductions⟩ := hl.ruled (n := r.index) (e := r.body) (by rw [List.getElem?_map, r.all_index]; rfl)
    obtain ⟨ss, hss, hderives⟩ := ih hhelped
    exact ⟨_, List.mem_singleton_self _, hderives.rule hrules (hproductions ss hss)⟩
  | seq left right ihl ihr =>
    intro hhelped
    obtain ⟨ss, hss, hderives⟩ := ihl hhelped.1
    obtain ⟨ss', hss', hderives'⟩ := ihr hhelped.2
    exact ⟨ss ++ ss', List.mem_flatMap.mpr ⟨ss, hss, List.mem_map_of_mem hss'⟩, hderives.append hderives'⟩
  | left h ih =>
    intro hhelped
    obtain ⟨ss, hss, hderives⟩ := ih hhelped.1
    exact ⟨ss, List.mem_append_left _ hss, hderives⟩
  | right h ih =>
    intro hhelped
    obtain ⟨ss, hss, hderives⟩ := ih hhelped.2
    exact ⟨ss, List.mem_append_right _ hss, hderives⟩
  | absent => exact fun _ => ⟨[], List.mem_append_right _ (List.mem_singleton_self _), .nil⟩
  | present h ih =>
    intro hhelped
    obtain ⟨ss, hss, hderives⟩ := ih hhelped
    exact ⟨ss, List.mem_append_left _ hss, hderives⟩
  | nothing => exact fun _ => ⟨[], List.mem_cons_of_mem _ (List.mem_singleton_self _), .nil⟩
  | many h ih =>
    intro hhelped
    obtain ⟨ss, hss, hderives⟩ := ih hhelped
    exact ⟨ss, List.mem_singleton.mp hss ▸ List.mem_cons_self, hderives⟩
  | one h ih =>
    intro hhelped
    obtain ⟨ss, hss, hderives⟩ := ih hhelped.1
    have hproduction := ((hl.helped _ hhelped.2).2 ss hss).1
    exact ⟨_, List.mem_singleton_self _, hderives.helper hrules (hlength ▸ Nat.le_add_right _ _) hproduction⟩
  | more before last ihb ihl =>
    intro hhelped
    obtain ⟨ss', hss', hbefore⟩ := ihb hhelped
    rw [List.mem_singleton.mp hss'] at hbefore
    obtain ⟨ss, hss, hlast⟩ := ihl hhelped.1
    have hproduction := ((hl.helped _ hhelped.2).2 ss hss).2
    exact ⟨_, List.mem_singleton_self _,
      (hbefore.append hlast).helper hrules (hlength ▸ Nat.le_add_right _ _) hproduction⟩

end

/-! ## Whole files -/

theorem tables_completeFor : tables.CompleteFor grammar where
  complete := by
    rw [tables]
    exact tables_complete
  productions := by
    rw [tables]
    exact productions.eq_1
  terminals := by
    rw [grammar]
    exact Grammar.ofRules_terminals _ _ _

theorem tables_rules : tables.rules = Rule.all.toArray := by
  rw [tables]

/-- **The trees of a file are parsed** from a text with their tokens. -/
theorem parseTree_of_forms {us : List Tree} (h : Forms Rule.file.body us) {text : List Char}
    (hup : Upcoming text (tokensAll us)) :
    ∃ forest comments, parseTree text = .ok (forest, comments) ∧ bareTrees forest = [.node .file us] := by
  obtain ⟨helpers, hl⟩ : ∃ helpers, grammar.Lowered (Rule.all.map Rule.body) helpers := by
    rw [grammar]
    exact Grammar.ofRules_lowered _ _ _
  obtain ⟨hhelped, hproductions⟩ := hl.ruled (n := Rule.file.index) (e := Rule.file.body) rfl
  obtain ⟨ss, hss, hderives⟩ := h.derives hl tables_rules hhelped
  have hstart : Rule.file.index = grammar.start := by
    rw [grammar]
    exact (Grammar.ofRules_start _ _ _).symm
  obtain ⟨fuel, forest, comments, hrun, hbare⟩ :=
    hderives.accepted (p := ⟨Rule.file.index, ss⟩) tables_completeFor (hproductions ss hss) hstart hup
  rw [Machine.reduced, tables_rules, List.getElem?_toArray, Rule.all_index] at hbare
  exact ⟨forest, comments, parseTree_of_run hrun, hbare⟩

end Source

end ProtoBind
