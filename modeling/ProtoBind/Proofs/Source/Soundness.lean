/-
What is parsed is derived by the grammar.

The trail of a state tells which symbols the topmost trees on the stack stand
for (`Machine.Trailed`). So the trees that a reduction takes are the parts of
its production, every move keeps the trees on the stack derived
(`step_trailed`), and the trees of a parsed text are those of a whole file
(`parseTree_derives`).
-/
import Mathlib.Data.List.Induction
import ProtoBind.Proofs.Source.Forms

namespace ProtoBind.Source

open Grammar (Production Symbol)

section Trails

variable {g : Grammar} {tables : Tables} {stack : List Frame} {x : Symbol}

/-! ## Stacks under trails -/

theorem digit_inj {x y : Symbol} (h : digit x = digit y) : x = y := by
  cases x <;> cases y <;> simp only [digit] at h <;> first | omega | (congr 1; omega)

/-- The topmost trees are derived from the symbols of a trail. -/
inductive Follows (g : Grammar) (tables : Tables) : List Frame → Nat → Prop
  | nothing (stack : List Frame) : Follows g tables stack 0
  | bottom : Follows g tables [] 1
  | frame {f : Frame} {below : List Frame} {x : Symbol} {trail : Nat} (hx : digit x < 256)
      (derives : Derives g tables [x] (bareTrees f.forest)) (rest : Follows g tables below trail) :
      Follows g tables (f :: below) (digitOn trail x)

namespace Follows

/-- What lies on the stack follows the last digits of its trail. -/
theorem last {trail : Nat} (h : Follows g tables stack trail) : ∀ n : Nat, Follows g tables stack (lastDigits trail n) := by
  induction h with
  | nothing stack =>
    intro n
    rw [lastDigits, Nat.zero_mod]
    exact .nothing stack
  | bottom =>
    intro n
    cases n with
    | zero => exact .nothing []
    | succ n =>
      rw [lastDigits, Nat.mod_eq_of_lt (Nat.one_lt_pow n.succ_ne_zero (by decide))]
      exact .bottom
  | @frame f below x trail hx derives rest ih =>
    intro n
    cases n with
    | zero =>
      rw [lastDigits, Nat.pow_zero, Nat.mod_one]
      exact .nothing _
    | succ n =>
      have hdigits : lastDigits (digitOn trail x) (n + 1) = digitOn (lastDigits trail n) x := by
        have hlow : (digit x + 256 * trail) % 256 = digit x := by omega
        have hhigh : (digit x + 256 * trail) / 256 = trail := by omega
        rw [lastDigits, lastDigits, digitOn, digitOn, Nat.pow_succ', Nat.mod_mul, hlow, hhigh]
      rw [hdigits]
      exact .frame hx derives (ih n)

/-- The tree on top stands for the last symbol. -/
theorem pop {trail : Nat} (hx : digit x < 256) (h : Follows g tables stack (digitOn trail x)) :
    ∃ f below, stack = f :: below ∧ Derives g tables [x] (bareTrees f.forest) ∧ Follows g tables below trail := by
  have hpositive : 2 ≤ digit x := by cases x <;> simp only [digit] <;> omega
  generalize htrail : digitOn trail x = t at h
  rw [digitOn] at htrail
  cases h with
  | nothing => omega
  | bottom => omega
  | @frame f below y rest hy derives hrest =>
    rw [digitOn] at htrail
    obtain rfl : x = y := digit_inj (by omega)
    obtain rfl : trail = rest := by omega
    exact ⟨f, below, rfl, derives, hrest⟩

theorem trailOf_concat (ss : List Symbol) (x : Symbol) : trailOf (ss ++ [x]) = digitOn (trailOf ss) x := by
  rw [trailOf, List.foldl_append]
  rfl

/-- The parts of a production are on the stack. -/
theorem parts : ∀ {ss : List Symbol} {stack : List Frame}, (∀ x ∈ ss, digit x < 256) → Follows g tables stack (trailOf ss) →
    Derives g tables ss (bareTrees ((stack.take ss.length).reverse.flatMap Frame.forest)) := by
  intro ss
  induction ss using List.reverseRecOn with
  | nil => exact fun _ _ => .nil
  | append_singleton ss x ih =>
    intro stack hss h
    rw [trailOf_concat] at h
    obtain ⟨f, below, rfl, hderives, hbelow⟩ := h.pop (hss x (by simp))
    have hall := (ih (fun y hy => hss y (List.mem_append_left _ hy)) hbelow).append hderives
    rw [List.length_append, List.length_singleton, List.take_succ_cons, List.reverse_cons, List.flatMap_append]
    simpa only [bareTrees_eq, List.map_append, List.flatMap_singleton] using hall

end Follows

/-! ## Machines under trails -/

/-- Tables made from a grammar, with trails that are right for them. -/
structure Tables.SoundFor (tables : Tables) (g : Grammar) (trail : Nat → Nat) : Prop where
  trails : fitsTrails tables g.start trail = true
  productions : tables.productions = g.productions.toArray
  terminals : ∀ (s : Nat) (state : Grammar.State), tables.states[s]? = some state →
    ∀ shift ∈ state.shifts, shift.1 < Terminal.count

variable {trail : Nat → Nat} {s : Nat} {state : Grammar.State} {p : Production}

/-- A text is accepted only where the start symbol was. -/
theorem action_accept {t : Nat} (h : state.action t = .accept) : Grammar.isEmpty state.accepting = false := by
  rw [action_eq] at h
  split at h
  · cases h
  · split at h
    · cases h
    · split at h
      next hbit =>
        refine Bool.eq_false_iff.mpr fun hempty => ?_
        rw [Nat.eq_of_beq_eq_true hempty, Grammar.hasBit, Nat.zero_testBit] at hbit
        cases hbit
      next => cases h

namespace Tables.SoundFor

variable (h : tables.SoundFor g trail)
include h

theorem bottom : trail 0 = 1 := by
  have hfits := h.trails
  rw [fitsTrails, Bool.and_eq_true, beq_iff_eq] at hfits
  exact hfits.1

/-- What the trails say of a state of the tables. -/
theorem fits (hs : tables.states[s]? = some state) :
    (∀ step ∈ symbolSteps state, digit step.1 < 256 ∧
      ∃ n, trail step.2 = lastDigits (digitOn (trail s) step.1) n) ∧
    (∀ reduction ∈ state.reductions, ∀ p, tables.productions[reduction.1]? = some p →
      (∀ x ∈ p.rhs, digit x < 256) ∧ trailOf p.rhs = lastDigits (trail s) p.rhs.length) ∧
    (Grammar.isEmpty state.accepting = false → trail s = digitOn 1 (.nonterminal g.start)) := by
  have hfits := h.trails
  have hmem : (s, state) ∈ tables.states.toList := Std.TreeMap.mem_toList_iff_getElem?_eq_some.mpr hs
  rw [fitsTrails, Bool.and_eq_true] at hfits
  have hstate := List.all_eq_true.mp hfits.2 _ hmem
  simp only [Bool.and_eq_true, Bool.or_eq_true, List.all_eq_true, decide_eq_true_eq, beq_iff_eq] at hstate
  obtain ⟨⟨hsteps, hreductions⟩, haccepting⟩ := hstate
  refine ⟨fun step hstep => ⟨(hsteps step hstep).1, _, (hsteps step hstep).2⟩, fun reduction hr p hp => ?_, fun hempty => ?_⟩
  · have hparts := hreductions reduction hr
    rw [hp, Option.all_some, Bool.and_eq_true, beq_iff_eq, List.all_eq_true] at hparts
    exact ⟨fun x hx => of_decide_eq_true (hparts.1 x hx), hparts.2⟩
  · exact haccepting.resolve_left (by rw [hempty]; decide)

end Tables.SoundFor

namespace Machine

variable {m m' : Machine} {fuel : Nat} {forest : List Tree} {comments : List Comment}

/-- Every state on the stack is on what its trail says. -/
def Trailed (g : Grammar) (tables : Tables) (trail : Nat → Nat) : List Frame → Prop
  | [] => True
  | f :: below => Follows g tables (f :: below) (trail f.state) ∧ Trailed g tables trail below

namespace Trailed

theorem follows (h : tables.SoundFor g trail) (ht : Trailed g tables trail stack) :
    Follows g tables stack (trail (topState stack)) := by
  cases stack with
  | nil =>
    rw [topState, h.bottom]
    exact .bottom
  | cons f below => exact ht.1

theorem drop : ∀ {stack : List Frame}, Trailed g tables trail stack → ∀ n : Nat, Trailed g tables trail (stack.drop n)
  | _, ht, 0 => ht
  | [], _, _ + 1 => trivial
  | _ :: _, ht, n + 1 => ht.2.drop n

/-- A state is entered with a tree that stands for the symbol before it. -/
theorem push (h : tables.SoundFor g trail) (ht : Trailed g tables trail stack)
    (hs : tables.states[topState stack]? = some state) {target : Nat} (hstep : (x, target) ∈ symbolSteps state)
    (hforest : Derives g tables [x] (bareTrees forest)) : Trailed g tables trail (⟨target, forest⟩ :: stack) := by
  obtain ⟨hx, n, htrail⟩ := (h.fits hs).1 _ hstep
  refine ⟨?_, ht⟩
  dsimp only at hx htrail ⊢
  rw [htrail]
  exact (Follows.frame (f := ⟨target, forest⟩) hx hforest (ht.follows h)).last n

/-- What is reduced was derived from its parts. -/
theorem reduces (h : tables.SoundFor g trail) (ht : Trailed g tables trail stack)
    (hs : tables.states[topState stack]? = some state) {i mask : Nat} (hreduction : (i, mask) ∈ state.reductions)
    (hp : tables.productions[i]? = some p) :
    Derives g tables [.nonterminal p.lhs]
      (bareTrees (reduced tables p.lhs ((stack.take p.rhs.length).reverse.flatMap Frame.forest))) := by
  obtain ⟨hdigits, hparts⟩ := (h.fits hs).2.1 _ hreduction p hp
  have hderives := Follows.parts hdigits (hparts ▸ (ht.follows h).last p.rhs.length)
  have hmem : p ∈ g.productions := by
    rw [h.productions, List.getElem?_toArray] at hp
    exact List.mem_of_getElem? hp
  have hnode := Derives.nonterminal hmem hderives .nil
  rwa [List.append_nil, ← bareTrees_reduced] at hnode

/-- Where a text is accepted there is one tree on the stack, that of the start symbol. -/
theorem accepted (h : tables.SoundFor g trail) (ht : Trailed g tables trail stack)
    (hs : tables.states[topState stack]? = some state) (haccepting : Grammar.isEmpty state.accepting = false)
    (hstart : digit (.nonterminal g.start) < 256) :
    Derives g tables [.nonterminal g.start] (bareTrees (stack.reverse.flatMap Frame.forest)) := by
  have hfollows := ht.follows h
  rw [(h.fits hs).2.2 haccepting] at hfollows
  obtain ⟨f, below, rfl, hderives, hbelow⟩ := hfollows.pop hstart
  generalize hbottom : (1 : Nat) = t at hbelow
  cases hbelow with
  | nothing => cases hbottom
  | bottom => simpa using hderives
  | @frame f below y rest hy derives hrest =>
    rw [digitOn] at hbottom
    cases y <;> simp only [digit] at hbottom <;> omega

end Trailed

/-- **Every move keeps the trees on the stack derived.** -/
theorem step_trailed (h : tables.SoundFor g trail) (ht : Trailed g tables trail m.stack) (hstep : step tables m = .next m') :
    Trailed g tables trail m'.stack := by
  obtain ⟨state, hs, ⟨hheld, hfind⟩ | ⟨i, hi, hact⟩⟩ := step_next hstep
  · rcases find_next hfind with ⟨t, after, comments, -, rfl⟩ | ⟨comments, -, rfl⟩
    · exact ht
    · exact ht
  · rcases act_cases tables state m i with ⟨target, haction, hshift⟩ | ⟨p, production, goto, haction, hp, hgoto, hreduce⟩ |
      ⟨-, haccept⟩ | hfail
    · cases hact.symm.trans hshift
      have hmem := action_shift haction
      refine ht.push h hs (x := .terminal i) (List.mem_append_left _ (List.mem_map.mpr ⟨_, hmem, rfl⟩)) ?_
      have hterminal := h.terminals _ state hs _ hmem
      cases hm : m.held with
      | nothing => rw [hm] at hi; cases hi
      | finish =>
        rw [hm] at hi
        cases hi
        exact absurd hterminal (Nat.lt_irrefl _)
      | token t =>
        rw [hm] at hi
        cases hi
        exact .terminal t.terminal t.text .nil
    · cases hact.symm.trans hreduce
      obtain ⟨mask, hmask⟩ := action_reduce haction
      obtain ⟨below, hbelow, hgoto⟩ := Option.bind_eq_some_iff.mp hgoto
      refine (ht.drop _).push h hbelow (x := .nonterminal production.lhs)
        (List.mem_append_right _ (List.mem_map.mpr ⟨_, Entries.mem_of_lookup hgoto, rfl⟩)) (ht.reduces h hs hmask hp)
    · cases hact.symm.trans haccept
    · cases hact.symm.trans hfail

/-- The trees of a finished parse are derived from the start symbol. -/
theorem run_derives (h : tables.SoundFor g trail) (hstart : digit (.nonterminal g.start) < 256) :
    ∀ {fuel : Nat} {m : Machine}, Trailed g tables trail m.stack → run tables fuel m = .ok (forest, comments) →
      Derives g tables [.nonterminal g.start] (bareTrees forest)
  | 0, _, _, hrun => by cases hrun
  | fuel + 1, m, ht, hrun => by
    rw [run] at hrun
    cases hstep : step tables m with
    | next m' =>
      rw [hstep] at hrun
      exact run_derives h hstart (step_trailed h ht hstep) hrun
    | done forest' comments' =>
      rw [hstep] at hrun
      cases hrun
      obtain ⟨state, i, hs, -, haction, rfl, -⟩ := step_done hstep
      exact ht.accepted h hs (action_accept haction) hstart
    | failed fault =>
      rw [hstep] at hrun
      cases hrun

end Machine

end Trails

/-! ## Whole files -/

theorem tables_soundFor : tables.SoundFor grammar trails.get where
  trails := trails_fit
  productions := tables_completeFor.productions
  terminals _ _ hs shift hshift := ((gauge.fits_state gauge_fits hs).1 shift hshift).1

/-- **The trees of a parsed text are those of a file**, derived by the grammar. -/
theorem parseTree_derives {text : List Char} {forest : List Tree} {comments : List Comment}
    (h : parseTree text = .ok (forest, comments)) :
    Derives grammar tables [.nonterminal Rule.file.index] (bareTrees forest) := by
  have hstart : Rule.file.index = grammar.start := by
    rw [grammar]
    exact (Grammar.ofRules_start _ _ _).symm
  have hderives := Machine.run_derives tables_soundFor (by rw [← hstart]; decide) (m := Machine.start text) trivial h
  rwa [← hstart] at hderives

end ProtoBind.Source
