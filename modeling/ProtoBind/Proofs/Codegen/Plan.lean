/-
Where the modules of a plan go.

A path is put together from parts without slashes (`component_isPart`), so
modules with different names have different files (`modulePath_inj`). A plan
is given only when the files of its modules are distinct and none is that of
the reflection module (`plan_eq_ok`, `pathCollision?_eq_none`).
-/
import Mathlib.Data.List.Basic
import Mathlib.Tactic.ByContra
import ProtoBind.Codegen.Plan

namespace ProtoBind.Codegen

open Schema (Graph Node)

/-! ## Parts of paths -/

/-- A part of a path is not empty and has no slash. -/
structure IsPart (s : String) : Prop where
  ne_empty : s ≠ ""
  no_slash : '/' ∉ s.toList

theorem isUpper_iff {c : Char} : c.isUpper = true ↔ c.val ≥ 'A'.val ∧ c.val ≤ 'Z'.val := decide_eq_true_iff

theorem isLower_iff {c : Char} : c.isLower = true ↔ c.val ≥ 'a'.val ∧ c.val ≤ 'z'.val := by
  show (decide (c.val ≥ 'a'.val) && decide (c.val ≤ 'z'.val)) = true ↔ _
  rw [Bool.and_eq_true, decide_eq_true_iff, decide_eq_true_iff]

theorem toLower_of_isUpper {c : Char} (h : c.isUpper = true) : c.toLower.isLower = true ∧ c.toLower.isUpper = false := by
  have hrange := isUpper_iff.mp h
  have hle := UInt32.le_iff_toNat_le.mp hrange.1
  have hge := UInt32.le_iff_toNat_le.mp hrange.2
  rw [isLower_iff, Bool.eq_false_iff, ne_eq, isUpper_iff, show c.toLower = _ from dif_pos hrange]
  simp [UInt32.le_iff_toNat_le] at hle hge ⊢
  omega

theorem toLower_of_not_isUpper {c : Char} (h : c.isUpper = false) : c.toLower = c :=
  dif_neg fun hrange => Bool.false_ne_true (h.symm.trans (isUpper_iff.mpr hrange))

theorem isAlphanum_toLower (c : Char) : c.toLower.isAlphanum = c.isAlphanum := by
  have heq (d : Char) : d.isAlphanum = (d.isUpper || d.isLower || d.isDigit) := rfl
  cases h : c.isUpper with
  | true => rw [heq, heq, h, (toLower_of_isUpper h).1, Bool.or_true, Bool.true_or, Bool.true_or, Bool.true_or]
  | false => rw [toLower_of_not_isUpper h]

theorem isWord_toLower {c : Char} (h : isWord c = true) : isWord c.toLower = true := by
  cases hupper : c.isUpper with
  | true =>
    have halphanum : c.isAlphanum = true := by
      show (c.isUpper || c.isLower || c.isDigit) = true
      rw [hupper, Bool.true_or, Bool.true_or]
    rw [isWord, isAlphanum_toLower, halphanum, Bool.true_or]
  | false => rwa [toLower_of_not_isUpper hupper]

theorem chars_isWord (conv : Convention) (s : List Char) : ∀ c ∈ conv.chars s, isWord c = true := by
  have hwords : ∀ s : List Char, ∀ c ∈ replaceOthers s, isWord c = true := by
    intro s c hc
    obtain ⟨b, -, rfl⟩ := List.mem_map.mp hc
    split
    next hb => exact hb
    next => rfl
  have hlower : ∀ s : List Char, ∀ c ∈ (replaceOthers s).map Char.toLower, isWord c = true := by
    intro s c hc
    obtain ⟨b, hb, rfl⟩ := List.mem_map.mp hc
    exact isWord_toLower (hwords s b hb)
  cases conv with
  | snakeCase => exact hlower _
  | lower => exact hlower _
  | preserve => exact hwords _

/-- A component has only letters, digits and underscores. -/
theorem component_isWord (conv : Convention) (part : String) :
    ∀ c ∈ (conv.component part).toList, isWord c = true := by
  have hchars := chars_isWord conv part.toList
  have hleading : ∀ c ∈ Convention.leading (conv.chars part.toList), isWord c = true := by
    unfold Convention.leading
    split
    next => simp [isWord]
    next c rest hcs =>
      rw [hcs] at hchars
      split
      · exact List.forall_mem_cons.mpr ⟨rfl, hchars⟩
      · exact hchars
  unfold Convention.component Naming.identifier Naming.guard
  split
  · rw [String.toList_append, String.toList_ofList]
    exact List.forall_mem_append.mpr ⟨hleading, List.all_eq_true.mp (by decide)⟩
  · rwa [String.toList_ofList]

theorem component_ne_empty (conv : Convention) (part : String) : conv.component part ≠ "" := by
  have hleading : ∀ s, String.ofList (Convention.leading s) ≠ "" := by
    intro s
    unfold Convention.leading
    split
    · decide
    · split <;> simp
  unfold Convention.component Naming.identifier Naming.guard
  split
  · intro he
    exact absurd (congrArg String.toList he) (by simp)
  · exact hleading _

theorem component_isPart (conv : Convention) (part : String) : IsPart (conv.component part) :=
  ⟨component_ne_empty conv part, fun h => absurd (component_isWord conv part _ h) (by decide)⟩

/-- The file of the module with the given parts. -/
def modulePath (parts : List String) : String := Text.join "/" parts ++ ".py"

theorem toList_join (parts : List String) :
    (Text.join "/" parts).toList = ['/'].intercalate (parts.map String.toList) := by
  rw [Text.join, String.toList_intercalate]
  rfl

theorem splitOn_join {parts : List String} (h : ∀ c ∈ parts, IsPart c) (hne : parts ≠ []) :
    (Text.join "/" parts).toList.splitOn '/' = parts.map String.toList := by
  rw [toList_join]
  refine List.splitOn_intercalate '/' (fun l hl => ?_) (by simpa using hne)
  obtain ⟨c, hc, rfl⟩ := List.mem_map.mp hl
  exact (h c hc).no_slash

theorem join_ne_empty {parts : List String} (h : ∀ c ∈ parts, IsPart c) (hne : parts ≠ []) :
    Text.join "/" parts ≠ "" := by
  intro he
  have hsplit := splitOn_join h hne
  rw [he] at hsplit
  obtain ⟨c, rest, rfl⟩ := List.exists_cons_of_ne_nil hne
  have hc : [] = c.toList := (List.cons.inj hsplit).1
  exact (h c List.mem_cons_self).ne_empty (String.toList_inj.mp hc.symm)

/-- Different modules have different files. -/
theorem modulePath_inj {cs ds : List String} (hcs : ∀ c ∈ cs, IsPart c) (hds : ∀ d ∈ ds, IsPart d)
    (h : modulePath cs = modulePath ds) : cs = ds := by
  have hjoin : Text.join "/" cs = Text.join "/" ds := by
    have hlists := congrArg String.toList h
    rw [modulePath, modulePath, String.toList_append, String.toList_append] at hlists
    exact String.toList_inj.mp (List.append_cancel_right hlists)
  by_cases hc : cs = []
  · by_contra hne
    subst hc
    exact join_ne_empty hds (Ne.symm hne) hjoin.symm
  · by_cases hd : ds = []
    · subst hd
      exact absurd hjoin (join_ne_empty hcs hc)
    · have hsplit := splitOn_join hcs hc
      rw [hjoin, splitOn_join hds hd] at hsplit
      exact (List.map_inj_right fun _ _ => String.toList_inj.mp).mp hsplit.symm

theorem fileComponents_isPart (o : Options) (file : String) : ∀ c ∈ o.fileComponents file, IsPart c := by
  intro c hc
  obtain ⟨part, -, rfl⟩ := List.mem_map.mp hc
  exact component_isPart o.naming part

/-- The parts of the index of a package. -/
def indexParts (o : Options) (package : Node) : List String := o.packageComponents package ++ ["__init__"]

theorem indexParts_isPart (o : Options) (package : Node) : ∀ c ∈ indexParts o package, IsPart c := by
  intro c hc
  rcases List.mem_append.mp hc with hc | hc
  · unfold Options.packageComponents at hc
    split at hc
    next => cases hc
    next =>
      obtain ⟨part, -, rfl⟩ := List.mem_map.mp hc
      exact component_isPart o.naming part
  · rw [List.mem_singleton.mp hc]
    exact ⟨by decide, by decide⟩

theorem join_concat_append (last suffix : String) : ∀ parts : List String,
    Text.join "/" (parts ++ [last ++ suffix]) = Text.join "/" (parts ++ [last]) ++ suffix
  | [] => rfl
  | c :: rest => by
    have ih := join_concat_append last suffix rest
    rw [Text.join] at ih
    simp only [Text.join, List.cons_append]
    rw [String.intercalate_cons_of_ne_nil (by simp), String.intercalate_cons_of_ne_nil (by simp), ih]
    simp [Text.join, String.append_assoc]

theorem pathForPackage_eq (o : Options) (package : Node) :
    o.pathForPackage package = modulePath (indexParts o package) :=
  join_concat_append "__init__" ".py" _

theorem reflectionFile_eq : Options.reflectionFile = modulePath ["_reflection"] := by decide

theorem modulePath_ne_documentFile (parts : List String) : modulePath parts ≠ Options.documentFile := by
  intro h
  have hlast := congrArg (fun s : String => s.toList.getLast?) h
  simp [modulePath, Options.documentFile] at hlast

theorem pathForPackage_ne_reflectionFile (o : Options) (package : Node) :
    o.pathForPackage package ≠ Options.reflectionFile := by
  intro h
  rw [pathForPackage_eq, reflectionFile_eq] at h
  have hreflection : ∀ c ∈ ["_reflection"], IsPart c := by
    intro c hc
    rw [List.mem_singleton.mp hc]
    exact ⟨by decide, by decide⟩
  have hparts := congrArg List.getLast? (modulePath_inj (indexParts_isPart o package) hreflection h)
  simp [indexParts] at hparts

/-! ## Planned paths -/

/-- What the search for collisions leaves: distinct paths, none of them that of the reflection module. -/
theorem pathCollision?_eq_none : ∀ {seen : List (String × String)} {groups : List FileGroup},
    pathCollision? seen groups = none → (groups.map (·.path)).Nodup ∧
      ∀ group ∈ groups, group.path ≠ Options.reflectionFile ∧ group.path ∉ seen.map Prod.fst
  | _, [], _ => ⟨List.nodup_nil, nofun⟩
  | seen, group :: rest, h => by
    unfold pathCollision? at h
    split at h
    next => cases h
    next hreflection =>
      split at h
      next => cases h
      next hseen =>
        obtain ⟨hnodup, hrest⟩ := pathCollision?_eq_none h
        have hnew : group.path ∉ rest.map (·.path) := by
          intro hmem
          obtain ⟨other, hother, hpath⟩ := List.mem_map.mp hmem
          exact (hrest other hother).2 (by rw [hpath]; simp)
        refine ⟨List.nodup_cons.mpr ⟨hnew, hnodup⟩, fun other hother => ?_⟩
        rcases List.mem_cons.mp hother with rfl | hother
        · refine ⟨by simpa using hreflection, fun hmem => ?_⟩
          obtain ⟨entry, hentry, he⟩ := List.mem_map.mp hmem
          have := List.lookup_eq_none_iff.mp hseen entry hentry
          simp [he] at this
        · obtain ⟨hne, hseen⟩ := hrest other hother
          exact ⟨hne, fun hmem => hseen (by rw [List.map_append]; exact List.mem_append_left _ hmem)⟩

/-- What holds when there is a plan. -/
structure Planned (g : Graph) (o : Options) (groups : List FileGroup) : Prop where
  groups_eq : groups = Codegen.groups g o
  kinds : ∀ n ∈ declarations g, n.kind ∈ kindOrder
  paths : (groups.map (·.path)).Nodup
  path_ne : ∀ group ∈ groups, group.path ≠ Options.reflectionFile

variable {g : Graph} {o : Options} {groups : List FileGroup}

theorem plan_eq_ok (h : plan g o = .ok groups) : Planned g o groups := by
  unfold plan at h
  split at h
  next => cases h
  next hnone =>
    dsimp only at h
    split at h
    next => cases h
    next hpaths =>
      split at h
      next => cases h
      next =>
        obtain rfl := Except.ok.inj h
        obtain ⟨hnodup, hne⟩ := pathCollision?_eq_none hpaths
        refine ⟨rfl, fun n hn => ?_, hnodup, fun group hgroup => (hne group hgroup).1⟩
        have hfault := List.findSome?_eq_none_iff.mp hnone n hn
        unfold declarationFault? at hfault
        split at hfault
        next => cases hfault
        next hk => simpa using hk

/-- A group holds the outermost declarations of its file. -/
theorem mem_groups {group : FileGroup} (h : group ∈ Codegen.groups g o) :
    group.path = o.pathForFile group.file ∧ group.nodes = (declarations g).filter (·.file == some group.file) := by
  obtain ⟨file, -, rfl⟩ := List.mem_map.mp (List.mem_of_mem_filter h)
  exact ⟨rfl, rfl⟩

end ProtoBind.Codegen
