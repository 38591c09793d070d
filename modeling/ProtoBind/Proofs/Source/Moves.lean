/-
How many moves a parse takes.

A shift takes a token from the text, and a reduction makes the stack shorter or
goes up a chain of constructs that consist of one symbol each. The chains are
short, so a machine has a potential that every move makes smaller
(`step_potential`), and more moves than the potential change nothing
(`run_enough`). That what is reduced is there on the stack, and how long the
chains are, is known from the gauge of the tables.
-/
import ProtoBind.Proofs.Source.Lexemes
import ProtoBind.Proofs.Source.Steps
import ProtoBind.Proofs.Source.Tables

namespace ProtoBind.Source

namespace Gauge

variable {g : Gauge} {tables : Tables} {s : Nat} {state : Grammar.State} {stack : List Frame}

/-- What the gauge says of a state of the tables. -/
theorem fits_state (hg : g.fits tables = true) (hs : tables.states[s]? = some state) :
    (∀ shift ∈ state.shifts, shift.1 < Terminal.count ∧ g.allows s shift.2 = true) ∧
    (∀ goto ∈ state.gotos, g.allows s goto.2.target = true ∧ g.rank goto.2.target ≤ g.chain goto.1) ∧
    ∀ reduction ∈ state.reductions, ∀ p, tables.productions[reduction.1]? = some p → g.settles s p = true := by
  have hmem : (s, state) ∈ tables.states.toList := Std.TreeMap.mem_toList_iff_getElem?_eq_some.mpr hs
  rw [fits, Bool.and_eq_true] at hg
  have hstate := List.all_eq_true.mp hg.2 _ hmem
  simp only [Bool.and_eq_true, List.all_eq_true, decide_eq_true_eq] at hstate
  obtain ⟨⟨hshifts, hgotos⟩, hreductions⟩ := hstate
  refine ⟨hshifts, hgotos, fun reduction hr p hp => ?_⟩
  have hsettles := hreductions reduction hr
  rwa [hp, Option.all_some] at hsettles

/-- Frames on one another, each as deep as its state at least. -/
def Deep (g : Gauge) : List Frame → Prop
  | [] => True
  | f :: below => g.depth f.state ≤ below.length + 1 ∧ g.Deep below

theorem Deep.depth_le (hg : g.fits tables = true) (h : g.Deep stack) : g.depth (Machine.topState stack) ≤ stack.length := by
  cases stack with
  | nil =>
    rw [fits, Bool.and_eq_true, beq_iff_eq] at hg
    exact Nat.le_of_eq hg.1
  | cons f below => exact h.1

theorem Deep.drop : ∀ {stack : List Frame}, g.Deep stack → ∀ n : Nat, g.Deep (stack.drop n)
  | _, h, 0 => h
  | [], _, _ + 1 => trivial
  | _ :: _, h, n + 1 => h.2.drop n

theorem Deep.push (hg : g.fits tables = true) (h : g.Deep stack) {target : Nat} (forest : List Tree)
    (ha : g.allows (Machine.topState stack) target = true) : g.Deep (⟨target, forest⟩ :: stack) := by
  rw [allows, Bool.and_eq_true, decide_eq_true_eq] at ha
  exact ⟨Nat.le_trans ha.1 (Nat.add_le_add_right (h.depth_le hg) 1), h⟩

end Gauge

namespace Machine

variable {g : Gauge} {tables : Tables} {state : Grammar.State} {m m' : Machine} {stack : List Frame} {fuel fuel' : Nat}

/-- What a held token may still cause. -/
def heldWeight (g : Gauge) : Held → Nat
  | .nothing => 1
  | .token _ => 2 * g.top + 3
  | .finish => 0

/-- A bound for the moves of a machine. -/
def potential (g : Gauge) (m : Machine) : Nat :=
  4 * (g.top + 1) * m.cursor.rest.length + g.weight m.stack + heldWeight g m.held

theorem find_potential (h : find state m = .next m') (hheld : m.held = .nothing) :
    potential g m' < potential g m ∧ m'.stack = m.stack := by
  have hlexeme := next_lexeme state.expected m.cursor m.comments
  rcases find_next h with ⟨t, after, comments, hnext, rfl⟩ | ⟨comments, hnext, rfl⟩
  · rw [hnext] at hlexeme
    have hshorter : after.rest.length < m.cursor.rest.length := lexeme_shorter hlexeme.symm
    have hmul := Nat.mul_le_mul_left (4 * (g.top + 1)) (Nat.succ_le_of_lt hshorter)
    rw [Nat.mul_succ] at hmul
    refine ⟨?_, rfl⟩
    simp only [potential, took, heldWeight, hheld]
    omega
  · refine ⟨?_, rfl⟩
    simp only [potential, ended, heldWeight, hheld]
    omega

theorem act_potential {i : Nat} (hg : g.fits tables = true) (hs : tables.states[topState m.stack]? = some state)
    (hd : g.Deep m.stack) (hheld : m.held.index? = some i) (h : act tables state m i m.held.leaves = .next m') :
    potential g m' < potential g m ∧ g.Deep m'.stack := by
  obtain ⟨hshifts, -, hreductions⟩ := g.fits_state hg hs
  rcases act_cases tables state m i with ⟨target, haction, hact⟩ | ⟨p, production, goto, haction, hp, hgoto, hact⟩ |
    ⟨-, hact⟩ | hact
  · cases h.symm.trans hact
    obtain ⟨hterminal, hallows⟩ := hshifts _ (action_shift haction)
    refine ⟨?_, hd.push hg _ hallows⟩
    rw [Gauge.allows, Bool.and_eq_true, decide_eq_true_eq, decide_eq_true_eq] at hallows
    have hrank : g.rank target ≤ g.top := hallows.2
    have hweight : heldWeight g m.held = 2 * g.top + 3 := by
      cases hm : m.held with
      | token t => rfl
      | nothing => rw [hm] at hheld; cases hheld
      | finish =>
        rw [hm] at hheld
        cases hheld
        exact absurd hterminal (Nat.lt_irrefl _)
    have hpushed : g.weight (m.shift target).stack = (g.top + 1) * m.stack.length + (g.top + 1) + g.rank target := rfl
    have hnothing : heldWeight g (m.shift target).held = 1 := rfl
    have hrest : (m.shift target).cursor.rest = m.cursor.rest := rfl
    rw [potential, potential, hpushed, hnothing, hrest, hweight, Gauge.weight]
    omega
  · cases h.symm.trans hact
    obtain ⟨below, hbelow, hgoto⟩ := Option.bind_eq_some_iff.mp hgoto
    obtain ⟨hallows, hchain⟩ := (g.fits_state hg hbelow).2.1 _ (Entries.mem_of_lookup hgoto)
    obtain ⟨mask, hmask⟩ := action_reduce haction
    have hsettles := hreductions _ hmask production hp
    rw [Gauge.settles, Bool.and_eq_true, decide_eq_true_eq, decide_eq_true_eq] at hsettles
    obtain ⟨hlength, hsettles⟩ := hsettles
    refine ⟨?_, (hd.drop _).push hg _ hallows⟩
    -- The parts are on the stack, so it gets shorter by as many frames.
    have hstack : production.rhs.length + (m.stack.drop production.rhs.length).length = m.stack.length := by
      have := hd.depth_le hg
      rw [List.length_drop]
      omega
    have hmul := congrArg ((g.top + 1) * ·) hstack
    dsimp only at hmul hchain
    rw [Nat.mul_add] at hmul
    have hpushed : g.weight (m.reduce tables production goto.target).stack =
        (g.top + 1) * (m.stack.drop production.rhs.length).length + (g.top + 1) + g.rank goto.target := rfl
    have hsame : heldWeight g (m.reduce tables production goto.target).held = heldWeight g m.held := rfl
    have hrest : (m.reduce tables production goto.target).cursor.rest = m.cursor.rest := rfl
    rw [potential, potential, hpushed, hsame, hrest, Gauge.weight]
    omega
  · cases h.symm.trans hact
  · cases h.symm.trans hact

/-- **Every move makes the potential smaller.** -/
theorem step_potential (hg : g.fits tables = true) (hd : g.Deep m.stack) (h : step tables m = .next m') :
    potential g m' < potential g m ∧ g.Deep m'.stack := by
  obtain ⟨state, hs, ⟨hheld, hfind⟩ | ⟨i, hi, hact⟩⟩ := step_next h
  · obtain ⟨hless, hstack⟩ := find_potential (g := g) hfind hheld
    exact ⟨hless, hstack ▸ hd⟩
  · exact act_potential hg hs hd hi hact

/-- More moves than the potential make no difference. -/
theorem run_enough (hg : g.fits tables = true) (hd : g.Deep m.stack) (hfuel : potential g m < fuel)
    (hfuel' : potential g m < fuel') : run tables fuel m = run tables fuel' m := by
  induction fuel generalizing fuel' m with
  | zero => exact absurd hfuel (Nat.not_lt_zero _)
  | succ fuel ih =>
    obtain ⟨fuel', rfl⟩ := Nat.exists_eq_add_one_of_ne_zero (Nat.ne_of_gt (Nat.zero_lt_of_lt hfuel'))
    rw [run, run]
    cases hstep : step tables m with
    | next m' =>
      obtain ⟨hless, hd'⟩ := step_potential hg hd hstep
      exact ih hd' (Nat.lt_of_lt_of_le hless (Nat.le_of_lt_succ hfuel))
        (Nat.lt_of_lt_of_le hless (Nat.le_of_lt_succ hfuel'))
    | done forest comments => rfl
    | failed fault => rfl

/-- A parse that comes to its end comes to it with more moves allowed. -/
theorem run_mono {result : List Tree × List Comment} (h : run tables fuel m = .ok result) (hle : fuel ≤ fuel') :
    run tables fuel' m = .ok result := by
  induction fuel generalizing fuel' m with
  | zero => cases h
  | succ fuel ih =>
    obtain ⟨fuel', rfl⟩ := Nat.exists_eq_add_one_of_ne_zero (Nat.ne_of_gt (Nat.lt_of_lt_of_le fuel.succ_pos hle))
    rw [run] at h ⊢
    cases hstep : step tables m with
    | next m' =>
      rw [hstep] at h
      exact ih h (Nat.le_of_succ_le_succ hle)
    | done forest comments =>
      rw [hstep] at h
      exact h
    | failed fault =>
      rw [hstep] at h
      exact h

end Machine

/-- **The moves allowed are enough**: what any number of moves parses is parsed. -/
theorem parseTree_of_run {text : List Char} {fuel : Nat} {forest : List Tree} {comments : List Comment}
    (h : Machine.run tables fuel (Machine.start text) = .ok (forest, comments)) :
    parseTree text = .ok (forest, comments) := by
  have hsmall := gauge_isSmall
  rw [Gauge.isSmall, Bool.and_eq_true, decide_eq_true_eq, decide_eq_true_eq] at hsmall
  have hpotential : Machine.potential gauge (Machine.start text) < enoughMoves text := by
    have hmul := Nat.mul_le_mul_right text.length (by omega : 4 * (gauge.top + 1) ≤ 256)
    show 4 * (gauge.top + 1) * text.length + ((gauge.top + 1) * 0 + gauge.rank 0) + 1 < 256 * (text.length + 1)
    omega
  have hdeep : gauge.Deep (Machine.start text).stack := trivial
  rw [parseTree, Machine.run_enough gauge_fits hdeep hpotential (Nat.lt_succ_of_le (Nat.le_max_right fuel _))]
  exact Machine.run_mono h (Nat.le_succ_of_le (Nat.le_max_left fuel _))

end ProtoBind.Source
