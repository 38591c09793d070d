/-
The aliases of a generated module.

The aliases that a module can get are the candidate and the candidate with a
number behind it, and it gets the first of them that is free
(`freeAlias?_eq`): the search for it is bounded by the aliases in use, which
cannot take all of more names than they are. From what one call does
(`Call.perform_of_known`, `Call.perform_of_new`) it follows what holds after
any calls on an empty table, failed ones among them (`Kept.after`), and so
that the table is an injective mapping in the order of first use
(`calls_answer`).
-/
import Mathlib.Data.List.Find
import Mathlib.Data.List.Induction
import Mathlib.Data.List.Nodup
import Mathlib.Data.List.Perm.Subperm
import ProtoBind.Codegen.Imports
import ProtoBind.Proofs.Results

namespace ProtoBind.Codegen.ImportTable

/-! ## Free aliases -/

/-- The aliases for a module in the order in which they are tried: the candidate, and the candidate with each number
from 2 to the highest. -/
def aliases (maxSuffix : Int) (candidate : String) : List String :=
  candidate :: (List.range (maxSuffix - 1).toNat).map fun i => candidate ++ intText (i + 2 : Nat)

variable {taken : List String} {maxSuffix : Int} {c : String}

theorem decimalDigits_inj {m n : Nat} (h : decimalDigits m = decimalDigits n) : m = n := by
  have hread := congrArg (fun digits => Nat.ofDigitChars 10 digits 0) h
  simpa only [decimalDigits, Nat.ofDigitChars_ten_toDigits] using hread

/-- Other numbers give other aliases. -/
theorem numbered_inj {m n : Nat} (h : c ++ intText m = c ++ intText n) : m = n := by
  have hdigits := congrArg String.toList h
  rw [String.toList_append, String.toList_append, List.append_cancel_left_eq] at hdigits
  have hnat (k : Nat) : (intText k).toList = decimalDigits k := by
    rw [intText, if_neg (by omega), String.toList_ofList, Int.natAbs_natCast]
  rw [hnat, hnat] at hdigits
  exact decimalDigits_inj hdigits

theorem numbered_ne {n : Nat} : c ++ intText n ≠ c := by
  intro h
  have hdigits := congrArg String.toList h
  rw [String.toList_append, List.append_right_eq_self, intText, if_neg (by omega), String.toList_ofList] at hdigits
  exact Nat.toDigits_ne_nil hdigits

/-- Of one alias more than are in use, one is free. -/
theorem exists_free (hc : c ∈ taken) : ∃ i < taken.length, c ++ intText (i + 2 : Nat) ∉ taken := by
  by_contra hall
  push Not at hall
  have hnodup : (c :: (List.range taken.length).map fun i => c ++ intText (i + 2 : Nat)).Nodup := by
    rw [List.nodup_cons]
    refine ⟨fun hmem => ?_, List.nodup_range.map fun i j h => Nat.add_right_cancel (numbered_inj h)⟩
    obtain ⟨i, -, hi⟩ := List.mem_map.mp hmem
    exact numbered_ne hi
  have hsub : (c :: (List.range taken.length).map fun i => c ++ intText (i + 2 : Nat)) ⊆ taken := by
    refine List.cons_subset.mpr ⟨hc, fun a ha => ?_⟩
    obtain ⟨i, hi, rfl⟩ := List.mem_map.mp ha
    exact hall i (List.mem_range.mp hi)
  have hlength := (hnodup.subperm hsub).length_le
  rw [List.length_cons, List.length_map, List.length_range] at hlength
  omega

/-- A search that is bounded above finds what it finds in the smaller range, if that holds a free number. -/
theorem find?_range {p : Nat → Bool} {m n : Nat} (hm : ∃ i < m, p i = true) :
    (List.range m).find? (fun i => decide (i < n) && p i) = (List.range n).find? p := by
  have hbelow {k : Nat} (hk : k ≤ n) : (List.range k).find? (fun i => decide (i < n) && p i) = (List.range k).find? p := by
    refine List.find?_congr fun i hi => ?_
    rw [decide_eq_true (Nat.lt_of_lt_of_le (List.mem_range.mp hi) hk), Bool.true_and]
  rcases Nat.le_total m n with hle | hle
  · obtain ⟨i, hi, hp⟩ := hm
    obtain ⟨k, rfl⟩ := Nat.exists_eq_add_of_le hle
    have hfound : ((List.range m).find? p).isSome := List.find?_isSome.mpr ⟨i, List.mem_range.mpr hi, hp⟩
    rw [hbelow hle, List.range_add, List.find?_append, Option.or_of_isSome hfound]
  · obtain ⟨k, rfl⟩ := Nat.exists_eq_add_of_le hle
    have hnone : ((List.range k).map (n + ·)).find? (fun i => decide (i < n) && p i) = none := by
      rw [List.find?_eq_none]
      intro i hi
      obtain ⟨j, -, rfl⟩ := List.mem_map.mp hi
      rw [decide_eq_false (by omega), Bool.false_and]
      exact Bool.false_ne_true
    rw [List.range_add, List.find?_append, hnone, Option.or_none, hbelow (Nat.le_refl _)]

/-- **The alias is the first one that is free.** -/
theorem freeAlias?_eq : freeAlias? taken maxSuffix c = (aliases maxSuffix c).find? fun a => !taken.contains a := by
  unfold freeAlias? aliases
  split
  next hc =>
    have hmem : c ∈ taken := List.contains_iff_mem.mp hc
    have hfree : ∃ i < taken.length, (!taken.contains (c ++ intText (i + 2 : Nat))) = true := by
      obtain ⟨i, hi, hnot⟩ := exists_free hmem
      exact ⟨i, hi, by simpa using hnot⟩
    have hbound (i : Nat) : decide (((i + 2 : Nat) : Int) ≤ maxSuffix) = decide (i < (maxSuffix - 1).toNat) := by
      rw [decide_eq_decide]
      omega
    rw [List.find?_cons_of_neg (by simpa using hmem)]
    simp only [List.find?_map, Option.map_map, Function.comp_def, hbound]
    rw [find?_range hfree]
  next hc => rw [List.find?_cons_of_pos (by simpa using hc)]

/-! ## Calls -/

/-- A request for an alias: for the module of a schema file, or for any other module, with a name in place of its base
name unless that is empty. -/
inductive Call
  | file (name : String)
  | module (name short : String)

namespace Call

def target : Call → ImportTarget
  | file name => .file name
  | module name _ => .module name

end Call

/-- The name of an imported module; `moduleOf` gives the modules of the schema files. -/
def moduleName (moduleOf : String → String) : ImportTarget → String
  | .file name => moduleOf name
  | .module name => name

namespace Call

variable (moduleOf : String → String) (t : ImportTable)

/-- The name that the alias is made from. -/
def base : Call → String
  | file name => baseName (moduleOf name)
  | module name short => if short.isEmpty then baseName name else short

/-- The aliases that the call tries. -/
def tried (c : Call) : List String := aliases t.maxSuffix (candidate (c.base moduleOf))

/-- The import that the call asks for, under an alias. -/
def entry (c : Call) (name : String) : Import := ⟨c.target, moduleName moduleOf c.target, name⟩

def perform : Call → Except AliasCollision (String × ImportTable)
  | file name => t.useFile name (moduleOf name)
  | module name short => t.useModule name short

/-- The table after a call, the same if the call failed. -/
def after (c : Call) : ImportTable :=
  match c.perform moduleOf t with
  | .ok (_, t') => t'
  | .error _ => t

/-- The import that a call was answered with, if it succeeded. -/
def granted? (c : Call) : Option Import :=
  match c.perform moduleOf t with
  | .ok (name, _) => some (c.entry moduleOf name)
  | .error _ => none

end Call

variable {moduleOf : String → String} {t : ImportTable}

/-- The table after some calls. -/
def afterAll (moduleOf : String → String) (t : ImportTable) (calls : List Call) : ImportTable :=
  calls.foldl (Call.after moduleOf) t

/-- The imports that the successful ones of some calls were answered with. -/
def grantedAll (moduleOf : String → String) : ImportTable → List Call → List Import
  | _, [] => []
  | t, c :: rest => (c.granted? moduleOf t).toList ++ grantedAll moduleOf (c.after moduleOf t) rest

theorem afterAll_concat (moduleOf : String → String) (t : ImportTable) (calls : List Call) (c : Call) :
    afterAll moduleOf t (calls ++ [c]) = c.after moduleOf (afterAll moduleOf t calls) := by
  rw [afterAll, List.foldl_append]
  rfl

theorem grantedAll_concat (c : Call) : ∀ (calls : List Call) (t : ImportTable), grantedAll moduleOf t (calls ++ [c]) =
    grantedAll moduleOf t calls ++ (c.granted? moduleOf (afterAll moduleOf t calls)).toList
  | [], t => List.append_nil _
  | d :: calls, t => by
    rw [List.cons_append, grantedAll, grantedAll_concat c calls, grantedAll, List.append_assoc]
    rfl

/-! ## One call -/

theorem perform_eq (c : Call) : c.perform moduleOf t =
    t.use c.target (moduleName moduleOf c.target) (c.base moduleOf) := by
  cases c <;> rfl

/-- What holds of a table: no target is entered twice and no alias is given twice. -/
structure Kept (moduleOf : String → String) (t : ImportTable) : Prop where
  targets : (t.entries.map (·.target)).Nodup
  names : t.names.Nodup
  modules : ∀ i ∈ t.entries, i.module = moduleName moduleOf i.target

/-- An entry is found by its target. -/
theorem Kept.nameOf?_eq (h : t.Kept moduleOf) {i : Import} (hi : i ∈ t.entries) : t.nameOf? i.target = some i.name := by
  rw [nameOf?, find?_of_nodup h.targets hi, Option.map_some]

theorem nameOf?_eq_none {target : ImportTarget} (h : target ∉ t.entries.map (·.target)) : t.nameOf? target = none := by
  rw [nameOf?, Option.map_eq_none_iff, List.find?_eq_none]
  intro i hi hsame
  exact h (List.mem_map.mpr ⟨i, hi, beq_iff_eq.mp hsame⟩)

/-- A target that is entered keeps its alias, and the table stays as it is. -/
theorem perform_of_known (h : t.Kept moduleOf) {c : Call} {i : Import} (hi : i ∈ t.entries) (hc : i.target = c.target) :
    c.perform moduleOf t = .ok (i.name, t) := by
  rw [perform_eq, use, ← hc, h.nameOf?_eq hi]

/-- A new target gets the first alias that is free. -/
theorem perform_of_new (moduleOf : String → String) {c : Call} (hc : c.target ∉ t.entries.map (·.target)) :
    c.perform moduleOf t = match (c.tried moduleOf t).find? fun a => !t.names.contains a with
    | some name => .ok (name, { t with entries := t.entries ++ [c.entry moduleOf name] })
    | none => .error ⟨candidate (c.base moduleOf), moduleName moduleOf c.target, t.maxSuffix⟩ := by
  rw [perform_eq, use, nameOf?_eq_none hc, freeAlias?_eq]
  rfl

theorem nodup_append_singleton {α : Type} {l : List α} {a : α} (h : l.Nodup) (ha : a ∉ l) : (l ++ [a]).Nodup :=
  List.concat_eq_append ▸ h.concat ha

/-- What one call leaves: a table like the one before, with the import of the call if that is new. -/
theorem Kept.after (h : t.Kept moduleOf) (c : Call) : (c.after moduleOf t).Kept moduleOf ∧
    (c.after moduleOf t).maxSuffix = t.maxSuffix ∧
    ((c.granted? moduleOf t = none ∧ c.after moduleOf t = t) ∨
      ∃ i, c.granted? moduleOf t = some i ∧
        (c.after moduleOf t).entries = if i ∈ t.entries then t.entries else t.entries ++ [i]) := by
  by_cases hc : c.target ∈ t.entries.map (·.target)
  · obtain ⟨i, hi, htarget⟩ := List.mem_map.mp hc
    have hperform := perform_of_known h hi htarget
    have hafter : c.after moduleOf t = t := by rw [Call.after, hperform]
    have hentry : c.entry moduleOf i.name = i := by rw [Call.entry, ← htarget, ← h.modules i hi]
    rw [hafter]
    refine ⟨h, rfl, .inr ⟨i, ?_, (if_pos hi).symm⟩⟩
    rw [Call.granted?, hperform]
    exact congrArg some hentry
  · have hperform := perform_of_new moduleOf hc
    cases hfree : (c.tried moduleOf t).find? fun a => !t.names.contains a with
    | none =>
      rw [hfree] at hperform
      have hafter : c.after moduleOf t = t := by rw [Call.after, hperform]
      rw [hafter]
      exact ⟨h, rfl, .inl ⟨by rw [Call.granted?, hperform], rfl⟩⟩
    | some name =>
      rw [hfree] at hperform
      have hafter : c.after moduleOf t = { t with entries := t.entries ++ [c.entry moduleOf name] } := by
        rw [Call.after, hperform]
      have hname : name ∉ t.names := by simpa using List.find?_some hfree
      have hnew : c.entry moduleOf name ∉ t.entries := fun hi => hc (List.mem_map_of_mem hi)
      rw [hafter]
      refine ⟨⟨?_, ?_, ?_⟩, rfl, .inr ⟨_, by rw [Call.granted?, hperform], (if_neg hnew).symm⟩⟩
      · rw [List.map_append]
        exact nodup_append_singleton h.targets hc
      · rw [ImportTable.names, List.map_append]
        exact nodup_append_singleton h.names hname
      · intro i hi
        rcases List.mem_append.mp hi with hi | hi
        · exact h.modules i hi
        · rw [List.mem_singleton.mp hi]
          rfl

/-! ## Any calls -/

theorem eraseDups_concat {α : Type} [DecidableEq α] (l : List α) (a : α) :
    (l ++ [a]).eraseDups = if a ∈ l then l.eraseDups else l.eraseDups ++ [a] := by
  rw [List.eraseDups_append]
  split
  next ha => simp [List.removeAll, ha]
  next ha => simp [List.removeAll, ha, List.eraseDups_cons]

theorem kept_empty (maxSuffix : Int) : (empty maxSuffix).Kept moduleOf := ⟨List.nodup_nil, List.nodup_nil, nofun⟩

/-- What any calls leave: the imports that were given, in the order in which they were first given. -/
theorem afterAll_kept (moduleOf : String → String) (maxSuffix : Int) (calls : List Call) :
    (afterAll moduleOf (.empty maxSuffix) calls).Kept moduleOf ∧
    (afterAll moduleOf (.empty maxSuffix) calls).maxSuffix = maxSuffix ∧
    (afterAll moduleOf (.empty maxSuffix) calls).entries = (grantedAll moduleOf (.empty maxSuffix) calls).eraseDups := by
  induction calls using List.reverseRecOn with
  | nil => exact ⟨kept_empty maxSuffix, rfl, rfl⟩
  | append_singleton calls c ih =>
    obtain ⟨hkept, hmax, hentries⟩ := ih
    obtain ⟨hnext, hnextMax, hcase⟩ := hkept.after c
    rw [afterAll_concat, grantedAll_concat]
    refine ⟨hnext, hnextMax.trans hmax, ?_⟩
    rcases hcase with ⟨hnone, hsame⟩ | ⟨i, hsome, hgrown⟩
    · rw [hnone, hsame, hentries, Option.toList_none, List.append_nil]
    · rw [hgrown, hsome, Option.toList_some, eraseDups_concat, hentries]
      simp only [List.mem_eraseDups]

/-- What holds of the table after some calls, and what it answers to one more. -/
structure Answers (moduleOf : String → String) (maxSuffix : Int) (calls : List Call) (t : ImportTable) : Prop where
  distinct : ∀ i ∈ t.entries, ∀ j ∈ t.entries, i.target ≠ j.target → i.name ≠ j.name
  once : (t.entries.map (·.target)).Nodup
  /-- There is one statement for each import that was given, in the order in which they were first given. -/
  statements : t.statements = (grantedAll moduleOf (.empty maxSuffix) calls).eraseDups.map Import.statement
  known : ∀ c : Call, ∀ i ∈ t.entries, i.target = c.target → c.perform moduleOf t = .ok (i.name, t)
  /-- A new target gets its first alias that is free, and is entered at the end. -/
  new : ∀ (c : Call) name, c.target ∉ t.entries.map (·.target) →
    (aliases maxSuffix (candidate (c.base moduleOf))).find? (fun a => !t.names.contains a) = some name →
    c.perform moduleOf t = .ok (name, { t with entries := t.entries ++ [c.entry moduleOf name] })
  /-- A call fails exactly for a new target of which all aliases are taken. -/
  failed : ∀ (c : Call) e, c.perform moduleOf t = .error e ↔ c.target ∉ t.entries.map (·.target) ∧
    (∀ a ∈ aliases maxSuffix (candidate (c.base moduleOf)), a ∈ t.names) ∧
    e = ⟨candidate (c.base moduleOf), moduleName moduleOf c.target, maxSuffix⟩
  unchanged : ∀ (c : Call) e, c.perform moduleOf t = .error e →
    afterAll moduleOf (.empty maxSuffix) (calls ++ [c]) = t

/-- **The aliases of a module, whatever was asked for before.** After any calls on an empty table, failed ones among
them, different targets have different aliases, and there is one statement for each target in the order of first use. A
further call for a target in the table gives its alias and leaves the table as it is. One for a new target gives the
first of its aliases that is free; it fails exactly when all of them are taken, and then the table is what it was. -/
theorem calls_answer (moduleOf : String → String) (maxSuffix : Int) (calls : List Call) :
    Answers moduleOf maxSuffix calls (afterAll moduleOf (.empty maxSuffix) calls) := by
  obtain ⟨hkept, hmax, hentries⟩ := afterAll_kept moduleOf maxSuffix calls
  have hafter := afterAll_concat moduleOf (.empty maxSuffix) calls
  generalize afterAll moduleOf (.empty maxSuffix) calls = t at hkept hmax hentries hafter ⊢
  refine ⟨fun i hi j hj hne hname => hne ?_, hkept.targets, by rw [statements, hentries], ?_, ?_, ?_, ?_⟩
  · exact congrArg _ (List.inj_on_of_nodup_map hkept.names hi hj hname)
  · exact fun c i hi htarget => perform_of_known hkept hi htarget
  · intro c name hc hfree
    rw [perform_of_new moduleOf hc, Call.tried, hmax, hfree]
  · intro c e
    by_cases hc : c.target ∈ t.entries.map (·.target)
    · obtain ⟨i, hi, htarget⟩ := List.mem_map.mp hc
      rw [perform_of_known hkept hi htarget]
      exact ⟨nofun, fun h => absurd hc h.1⟩
    · rw [perform_of_new moduleOf hc, Call.tried, hmax]
      cases hfree : (aliases maxSuffix (candidate (c.base moduleOf))).find? fun a => !t.names.contains a with
      | some name =>
        have hnot : name ∉ t.names := by simpa using List.find?_some hfree
        exact ⟨nofun, fun h => absurd (h.2.1 name (List.mem_of_find?_eq_some hfree)) hnot⟩
      | none =>
        have hall : ∀ a ∈ aliases maxSuffix (candidate (c.base moduleOf)), a ∈ t.names := by
          simpa using List.find?_eq_none.mp hfree
        exact ⟨fun h => ⟨hc, hall, (Except.error.inj h).symm⟩, fun h => congrArg _ h.2.2.symm⟩
  · intro c e hfail
    rw [hafter c, Call.after, hfail]

/-- A numbered alias can be the candidate of another module, which then gets the next one. -/
example : (afterAll id (.empty 99) [.file "a.x", .file "b.x", .module "x2" "", .file "a.x"]).names =
    ["_x", "_x2", "_x22"] := by
  decide

end ProtoBind.Codegen.ImportTable
