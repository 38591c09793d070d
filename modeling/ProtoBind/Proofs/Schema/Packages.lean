/-
Opening packages.

A package is looked for part by part, and what is missing is created on the
way. Since the full names of a graph are closed under dotted prefixes, nothing
is declared behind a prefix that is missing: once a part is created, nothing is
in the way of the parts behind it. So a package either is opened, and then
exactly its missing prefixes are new, or the graph is left as it was
(`package_opens`).
-/
import ProtoBind.Proofs.Schema.Files
import ProtoBind.Proofs.Source.Printing

namespace ProtoBind.Schema

open Schema.Graph Load

/-- A node without its children. -/
def Node.childless (n : Node) : Node := { n with children := [] }

/-- The number of a node, if it stands directly under the index. -/
def childUnder (i : Nat) (c : Node) : Option Nat := if c.parent = some i then some c.index else none

/-- A node with those of the new nodes among its children that name it as their parent. -/
def Node.adopting (news : List Node) (n : Node) : Node :=
  { n with children := n.children ++ news.filterMap (childUnder n.index) }

namespace Graph

variable {g g' : Graph} {n pn : Node} {name part s t : String} {parts rest : List String} {current i p : Nat}
  {entry : Entry}

/-! ## Histories -/

/-- What the operation adds has a name without dots. -/
def Operation.Plain : Operation → Prop
  | .add entry _ => Source.Plain entry.name
  | .addFile _ | .package _ => True

theorem Named.empty : Graph.empty.Named := ⟨Arena.empty, empty_formed.plain⟩

theorem Named.addFile (h : g.Named) (file : String) : (g.addFile file).Named := by
  refine ⟨arena_addFile h.toArena file, ?_⟩
  unfold Graph.addFile
  split <;> exact h.plain

theorem Named.adopt (h : g.Named) (hp : g.node? p = some pn) (hf : g.find? (childName pn.fullName entry.name) = none)
    (hname : Source.Plain entry.name) : (g.adopt entry p pn).Named where
  toArena := h.toArena.adopt hp hf
  plain n' hn' := by
    rcases mem_adopt hn' with ⟨n, hn, he, -⟩ | rfl
    · exact (congrArg (·.name) he) ▸ h.plain n hn
    · exact hname

theorem packageUnder_named : ∀ {parts : List String} {g : Graph} {current : Nat}, g.Named →
    (∀ part ∈ parts, Source.Plain part) → (g.packageUnder current parts).1.Named
  | [], g, current, h, _ => h
  | part :: rest, g, current, h, hparts => by
    have hrest : ∀ q ∈ rest, Source.Plain q := fun q hq => hparts q (List.mem_cons_of_mem _ hq)
    unfold packageUnder
    dsimp only
    split
    next =>
      split
      next index g₁ hadd =>
        obtain ⟨pn, hp, hf, -, rfl⟩ := add_eq_ok hadd
        exact packageUnder_named (h.adopt hp hf (hparts part List.mem_cons_self)) hrest
      next => exact h
    next index _ =>
      split
      next n _ =>
        split
        next => exact packageUnder_named h hrest
        next => exact h
      next => exact h

theorem package_named (h : g.Named) (name : String) : (g.package name).1.Named := by
  rw [package_eq]
  exact packageUnder_named h (packageParts_plain name)

theorem history_named {ops : List Operation} (hops : ∀ op ∈ ops, op.Plain) : (history ops).Named := by
  refine history_keeps Named.empty fun op hop g h => ?_
  cases op with
  | addFile file => exact h.addFile file
  | package name =>
    rw [Operation.apply_package]
    exact package_named h name
  | add entry parent =>
    simp only [Operation.apply]
    split
    next i g' hadd =>
      obtain ⟨pn, hp, hf, -, rfl⟩ := add_eq_ok hadd
      exact h.adopt hp hf (hops _ hop)
    next => exact h

/-! ## The packages on the way -/

theorem foldl_childName_of_ne : ∀ {parts : List String} {s : String}, s ≠ "" →
    parts.foldl childName s = Text.join "." (s :: parts)
  | [], s, _ => (String.toList_inj.mp (by simp [Text.join])).symm
  | part :: rest, s, hs => by
    rw [List.foldl_cons, foldl_childName_of_ne (childName_ne_of_ne hs part), childName_of_ne hs]
    apply String.toList_inj.mp
    cases rest <;> simp [Text.join, String.toList_intercalate]

/-- A package name is what its parts make up. -/
theorem foldl_packageParts (hname : ∀ part ∈ packageParts name, part ≠ "") :
    (packageParts name).foldl childName "" = name := by
  unfold packageParts at hname ⊢
  split at hname
  next he => rw [if_pos he, List.foldl_nil, String.isEmpty_iff.mp he]
  next he =>
    rw [if_neg he]
    have hjoin := Source.join_splitOnChar name
    cases hparts : Text.splitOnChar '.' name with
    | nil => exact absurd (List.map_eq_nil_iff.mp hparts) (Source.splitAtChar_ne_nil '.' name.toList)
    | cons part rest =>
      rw [hparts] at hname hjoin
      rw [List.foldl_cons, childName_empty, foldl_childName_of_ne (hname part List.mem_cons_self), hjoin]

theorem packageEntries_concat (s part : String) : ∀ parts : List String, packageEntries s (parts ++ [part]) =
    packageEntries s parts ++ [(packageEntry part).under (parts.foldl childName s)] := by
  intro parts
  induction parts generalizing s with
  | nil => rfl
  | cons a rest ih => rw [List.cons_append, packageEntries, packageEntries, ih, List.foldl_cons]; rfl

/-- The packages on the way have the dotted prefixes for names. -/
theorem mem_packageEntries (parts : List String) : (∀ part ∈ parts, Source.Plain part ∧ part ≠ "") →
    ∀ q, q ∈ (packageEntries "" parts).map (·.1) ↔ DottedPrefix q (parts.foldl childName "") ∧ q ≠ "" := by
  induction parts using List.reverseRecOn with
  | nil =>
    intro _ q
    simp only [packageEntries, List.map_nil, List.not_mem_nil, List.foldl_nil, false_iff, not_and, not_not]
    rintro (h | ⟨rest, h⟩)
    · exact h
    · exact absurd (congrArg String.toList h) (by simp)
  | append_singleton parts part ih =>
    intro hparts q
    obtain ⟨hplain, hne⟩ := hparts part (by simp)
    have ih := ih (fun a ha => hparts a (List.mem_append_left _ ha)) q
    have hfull : childName (parts.foldl childName "") part ≠ "" := childName_ne _ hne
    rw [packageEntries_concat, List.map_append, List.mem_append, ih, List.foldl_concat]
    simp only [List.map_cons, List.map_nil, List.mem_singleton]
    constructor
    · rintro (⟨hq, hne⟩ | rfl)
      · exact ⟨hq.child hne part, hne⟩
      · exact ⟨.inl rfl, hfull⟩
    · rintro ⟨hq, hne⟩
      exact (hq.of_childName hplain).symm.imp_left fun hq => ⟨hq, hne⟩

/-- The packages behind a part have longer names. -/
theorem packageEntries_below : ∀ {parts : List String} {s : String}, s ≠ "" → ∀ x ∈ packageEntries s parts,
    ∃ rest, x.1 = s ++ "." ++ rest
  | [], s, _, x, hx => by cases hx
  | part :: parts, s, hs, x, hx => by
    have hchild := childName_of_ne hs part
    rcases List.mem_cons.mp hx with rfl | hx
    · exact ⟨part, hchild⟩
    · obtain ⟨rest, hrest⟩ := packageEntries_below (childName_ne_of_ne hs part) x hx
      exact ⟨part ++ "." ++ rest, by rw [hrest, hchild]; simp only [String.append_assoc]⟩

/-- The first of the packages on the way is around all of them. -/
theorem dottedPrefix_packageEntries (hpart : part ≠ "") : ∀ x ∈ packageEntries s (part :: rest),
    DottedPrefix (childName s part) x.1 := by
  intro x hx
  rcases List.mem_cons.mp hx with rfl | hx
  · exact .inl rfl
  · exact .inr (packageEntries_below (childName_ne s hpart) x hx)

/-! ## Creating what is missing -/

/-- The packages of a list are new behind the nodes of a graph, and nothing else has changed, but that the new nodes are
children. -/
structure Creates (g : Graph) (entries : List Listed) (g' : Graph) : Prop where
  nodes : ∃ more : List Node, g'.nodes.map Node.childless = g.nodes.map Node.childless ++ more ∧
    more.map (fun n => (n.fullName, n.toEntry)) = entries
  files : g'.files = g.files
  finalized : g'.finalized = g.finalized

theorem Creates.refl (g : Graph) : Creates g [] g := ⟨⟨[], by simp, rfl⟩, rfl, rfl⟩

theorem childless_adopt : (g.adopt entry p pn).nodes.map Node.childless =
    g.nodes.map Node.childless ++ [(g.adopted entry p pn).childless] := by
  have hnodes := @filterMap_adopt g entry p _ pn (fun n => some n.childless) fun _ _ => rfl
  simpa only [List.filterMap_eq_map', Option.toList_some] using hnodes

theorem Creates.cons {entries : List Listed} (h : Creates (g.adopt entry p pn) entries g') :
    Creates g (entry.under pn.fullName :: entries) g' where
  nodes := by
    obtain ⟨more, hmore, hentries⟩ := h.nodes
    refine ⟨(g.adopted entry p pn).childless :: more, ?_, ?_⟩
    · rw [hmore, childless_adopt, List.append_assoc, List.singleton_append]
    · rw [List.map_cons, hentries]
      rfl
  files := h.files
  finalized := h.finalized

/-- The node is a package of the full name. -/
structure PackageAt (g : Graph) (i : Nat) (name : String) : Prop where
  node : ∃ n, g.node? i = some n ∧ n.kind = .package ∧ n.fullName = name

/-- Packages of which none is there are created one under the other. -/
theorem packageUnder_missing : ∀ {parts : List String} {g : Graph} {current : Nat} {s : String}, g.Arena →
    PackageAt g current s → (∀ part ∈ parts, part ≠ "") → (∀ x ∈ packageEntries s parts, g.find? x.1 = none) →
    ∃ g' i, g.packageUnder current parts = (g', .ok i) ∧ Creates g (packageEntries s parts) g' ∧
      PackageAt g' i (parts.foldl childName s)
  | [], g, current, s, _, hat, _, _ => ⟨g, current, rfl, .refl g, hat⟩
  | part :: rest, g, current, s, h, hat, hparts, hmissing => by
    obtain ⟨n, hn, -, rfl⟩ := hat.node
    have hfind : g.find? (childName n.fullName part) = none := hmissing _ List.mem_cons_self
    have hne : childName n.fullName part ≠ "" := childName_ne _ (hparts part List.mem_cons_self)
    have harena : (g.adopt (packageEntry part) current n).Arena := h.adopt hn hfind
    -- The names behind the new one are longer, so they are still missing.
    have hrest : ∀ x ∈ packageEntries (childName n.fullName part) rest,
        (g.adopt (packageEntry part) current n).find? x.1 = none := by
      intro x hx
      obtain ⟨tail, htail⟩ := packageEntries_below hne x hx
      rw [harena.find?_eq_none, fullNames_adopt, List.mem_append, not_or, ← h.find?_eq_none]
      refine ⟨hmissing x (List.mem_cons_of_mem _ hx), fun he => ?_⟩
      have hlist := congrArg String.toList (htail.symm.trans (List.mem_singleton.mp he))
      simp [packageEntry] at hlist
    obtain ⟨g', i, hrun, hcreates, hat'⟩ := packageUnder_missing harena ⟨_, node?_adopt_self, rfl, rfl⟩
      (fun q hq => hparts q (List.mem_cons_of_mem _ hq)) hrest
    refine ⟨g', i, ?_, hcreates.cons, hat'⟩
    rw [packageUnder_cons h hn, hfind]
    exact hrun

/-- What looking for a package under another one comes to. -/
structure Outcome (g : Graph) (s : String) (parts : List String) (r : Graph × Except AddFault Nat) : Prop where
  ok : ∀ {i}, r.2 = .ok i → (∀ m ∈ g.nodes, m.fullName ∈ (packageEntries s parts).map (·.1) → m.kind = .package) ∧
    Creates g ((packageEntries s parts).filter fun x => (g.find? x.1).isNone) r.1 ∧
    PackageAt r.1 i (parts.foldl childName s)
  error : ∀ {e}, r.2 = .error e → r.1 = g ∧ (∃ d, e = .duplicate d) ∧
    ∃ m ∈ g.nodes, m.kind ≠ .package ∧ m.fullName ∈ (packageEntries s parts).map (·.1)

/-- **A package is opened, or something else has the name of a package on the way and nothing is changed.** -/
theorem packageUnder_outcome : ∀ {parts : List String} {g : Graph} {current : Nat} {s : String}, g.Named →
    PackageAt g current s → (∀ part ∈ parts, part ≠ "") → Outcome g s parts (g.packageUnder current parts)
  | [], g, current, s, _, hat, _ => by
    refine ⟨fun hr => ?_, fun hr => by cases hr⟩
    cases hr
    exact ⟨by simp [packageEntries], .refl g, hat⟩
  | part :: rest, g, current, s, h, hat, hparts => by
    obtain ⟨n, hn, hk, rfl⟩ := hat.node
    cases hfind : g.find? (childName n.fullName part) with
    | none =>
      have hmissing : ∀ x ∈ packageEntries n.fullName (part :: rest), g.find? x.1 = none := by
        intro x hx
        by_contra hdeclared
        obtain ⟨i, hi⟩ := Option.ne_none_iff_exists'.mp hdeclared
        obtain ⟨m, hm, hname⟩ := h.names.mp hi
        have hdotted := dottedPrefix_packageEntries (hparts part List.mem_cons_self) x hx
        obtain ⟨k, hk, hkname⟩ := h.declared i hm (hname ▸ hdotted)
        rw [← hkname, h.find?_fullName hk] at hfind
        cases hfind
      obtain ⟨g', i, hrun, hcreates, hat'⟩ := packageUnder_missing h.toArena ⟨n, hn, hk, rfl⟩ hparts hmissing
      rw [hrun]
      refine ⟨fun hr => ?_, fun hr => by cases hr⟩
      cases hr
      refine ⟨fun m hm hname => ?_, ?_, hat'⟩
      · obtain ⟨x, hx, he⟩ := List.mem_map.mp hname
        have hnone := hmissing x hx
        rw [he, h.find?_fullName hm] at hnone
        cases hnone
      · rwa [List.filter_eq_self.mpr fun x hx => by rw [hmissing x hx]; rfl]
    | some j =>
      obtain ⟨m, hm, hname⟩ := h.names.mp hfind
      rw [packageUnder_cons h.toArena hn, hfind]
      simp only [hm]
      by_cases hkm : m.kind = .package
      · rw [if_pos hkm]
        have hout := packageUnder_outcome h ⟨m, hm, hkm, hname⟩ fun q hq => hparts q (List.mem_cons_of_mem _ hq)
        refine ⟨fun hr => ?_, fun hr => ?_⟩
        · obtain ⟨hpackages, hcreates, hat'⟩ := hout.ok hr
          refine ⟨fun k hk hkname => ?_, ?_, hat'⟩
          · rcases List.mem_cons.mp hkname with he | hin
            · obtain rfl := h.unique hk (List.mem_of_getElem? hm) (he.trans hname.symm)
              exact hkm
            · exact hpackages k hk hin
          · have hfound : ((g.find? ((packageEntry part).under n.fullName).1).isNone) = false := by
              rw [show ((packageEntry part).under n.fullName).1 = childName n.fullName part from rfl, hfind]
              rfl
            rw [packageEntries, List.filter_cons_of_neg (by simp [show ({ name := part, body := .package } : Entry) =
              packageEntry part from rfl, hfound])]
            exact hcreates
        · obtain ⟨hsame, hdup, k, hk, hkk, hkname⟩ := hout.error hr
          exact ⟨hsame, hdup, k, hk, hkk, List.mem_cons_of_mem _ hkname⟩
      · rw [if_neg hkm]
        refine ⟨fun hr => (by cases hr), fun hr => ?_⟩
        cases hr
        exact ⟨rfl, ⟨_, rfl⟩, m, List.mem_of_getElem? hm, hkm, List.mem_cons.mpr (.inl hname)⟩

/-! ## Opening a package -/

/-- A graph with some nodes more: what has got children are the parents that the new nodes name. -/
theorem Arena.nodes_eq (h : g.Arena) (h' : g'.Arena) {more : List Node}
    (hnodes : g'.nodes.map Node.childless = g.nodes.map Node.childless ++ more) :
    ∃ news, more = news.map Node.childless ∧ g'.nodes = g.nodes.map (Node.adopting news) ++ news := by
  obtain ⟨olds, news, hsplit, holds, rfl⟩ := List.map_eq_append_iff.mp hnodes
  refine ⟨news, rfl, ?_⟩
  have hchildren (k : Nat) (l : List Node) :
      (l.map Node.childless).filterMap (childUnder k) = l.filterMap (childUnder k) := by
    rw [List.filterMap_map]
    rfl
  have hfilled : olds = (olds.map Node.childless).map fun n =>
      { n with children := g'.nodes.filterMap (childUnder n.index) } := by
    rw [List.map_map]
    refine (List.map_id olds).symm.trans (List.map_congr_left fun n hn => ?_)
    have hn' : n ∈ g'.nodes := hsplit ▸ List.mem_append_left _ hn
    show n = { n.childless with children := g'.nodes.filterMap (childUnder n.index) }
    rw [← show n.children = g'.nodes.filterMap (childUnder n.index) from h'.children n hn']
    rfl
  rw [hsplit, hfilled, holds, List.map_map]
  refine congrArg (· ++ news) (List.map_congr_left fun n hn => ?_)
  have hold : g'.nodes.filterMap (childUnder n.index) = n.children ++ news.filterMap (childUnder n.index) := by
    rw [hsplit, List.filterMap_append, ← hchildren, holds, hchildren,
      show n.children = g.nodes.filterMap (childUnder n.index) from h.children n hn]
  simp only [Function.comp_apply, Node.adopting]
  rw [show n.childless.index = n.index from rfl, hold]
  rfl

/-- A package was opened: it is there, the prefixes of its name that were missing are new packages, and nothing else has
changed. Opening it again finds it. -/
structure Opened (g : Graph) (name : String) (g' : Graph) (i : Nat) (news : List Node) : Prop where
  package : PackageAt g' i name
  nodes : g'.nodes = g.nodes.map (Node.adopting news) ++ news
  entries : ∀ m ∈ news, m.toEntry = packageEntry m.name
  names : ∀ q, q ∈ news.map (·.fullName) ↔ DottedPrefix q name ∧ q ∉ g.nodes.map (·.fullName)
  files : g'.files = g.files
  finalized : g'.finalized = g.finalized
  consistent : g'.Consistent
  again : g'.package name = (g', .ok i)

/-- What creates nothing changes nothing. -/
theorem Creates.eq (h : Creates g [] g') (hg : g.Recorded) (hg' : g'.Recorded) : g' = g := by
  obtain ⟨more, hnodes, hmore⟩ := h.nodes
  obtain ⟨news, rfl, hgrown⟩ := hg.nodes_eq hg'.toArena hnodes
  obtain rfl : news = [] := by simpa using hmore
  have hsame : g'.nodes = g.nodes := by
    rw [hgrown, List.append_nil]
    exact (List.map_congr_left fun n _ => by simp [Node.adopting]).trans (List.map_id _)
  have hnames : g'.byName = g.byName := by rw [hg'.entries, hg.entries, hsame]
  obtain ⟨nodes, files, byName, finalized⟩ := g
  obtain ⟨nodes', files', byName', finalized'⟩ := g'
  exact congr (congr (congr (congrArg Graph.mk hsame) h.files) hnames) h.finalized

theorem Arena.packageAt_root (h : g.Arena) : PackageAt g 0 "" := by
  obtain ⟨root, hroot, hk, -, hempty⟩ := h.root
  exact ⟨root, hroot, hk, hempty⟩

theorem PackageAt.unique {j : Nat} (h : PackageAt g i name) (h' : PackageAt g j name) (hg : g.Arena) : i = j := by
  obtain ⟨n, hn, -, hname⟩ := h.node
  obtain ⟨m, hm, -, hname'⟩ := h'.node
  have hsame := hg.unique (List.mem_of_getElem? hn) (List.mem_of_getElem? hm) (hname.trans hname'.symm)
  rw [← hg.index hn, ← hg.index hm, hsame]

theorem package_outcome (h : g.Named) (hname : ∀ part ∈ packageParts name, part ≠ "") :
    Outcome g "" (packageParts name) (g.package name) := by
  rw [package_eq]
  exact packageUnder_outcome h h.packageAt_root hname

/-- The packages on the way to a package have the dotted prefixes of its name for names. -/
theorem mem_packageParts (hname : ∀ part ∈ packageParts name, part ≠ "") (q : String) :
    q ∈ (packageEntries "" (packageParts name)).map (·.1) ↔ DottedPrefix q name ∧ q ≠ "" := by
  have hiff := mem_packageEntries (packageParts name)
    (fun part hpart => ⟨packageParts_plain name part hpart, hname part hpart⟩) q
  rwa [foldl_packageParts hname] at hiff

/-- A declaration other than a package is in the way exactly when its full name is a dotted prefix. -/
theorem Arena.inTheWay_iff (h : g.Arena) (hname : ∀ part ∈ packageParts name, part ≠ "") (hn : n ∈ g.nodes)
    (hk : n.kind ≠ .package) :
    n.fullName ∈ (packageEntries "" (packageParts name)).map (·.1) ↔ DottedPrefix n.fullName name := by
  rw [mem_packageParts hname, and_iff_left_iff_imp]
  intro _ hempty
  obtain ⟨root, hroot, hpackage, -, hrootName⟩ := h.root
  exact hk (h.unique hn (List.mem_of_getElem? hroot) (hempty.trans hrootName.symm) ▸ hpackage)

/-- The packages on the way to a package that are missing. -/
def missingPackages (g : Graph) (name : String) : List Listed :=
  (packageEntries "" (packageParts name)).filter fun x => (g.find? x.1).isNone

theorem mem_missingPackages (h : g.Arena) (hname : ∀ part ∈ packageParts name, part ≠ "") (q : String) :
    q ∈ (g.missingPackages name).map (·.1) ↔ DottedPrefix q name ∧ q ∉ g.nodes.map (·.fullName) := by
  rw [← fullNames_eq, ← h.find?_eq_none]
  constructor
  · intro hq
    obtain ⟨x, hx, rfl⟩ := List.mem_map.mp hq
    obtain ⟨hx, hfree⟩ := List.mem_filter.mp hx
    exact ⟨((mem_packageParts hname x.1).mp (List.mem_map_of_mem hx)).1, Option.isNone_iff_eq_none.mp hfree⟩
  · rintro ⟨hdotted, hfree⟩
    obtain ⟨root, hroot, -, -, hempty⟩ := h.root
    have hne : q ≠ "" := by
      rintro rfl
      rw [h.names.mpr ⟨root, hroot, hempty⟩] at hfree
      cases hfree
    obtain ⟨x, hx, rfl⟩ := List.mem_map.mp ((mem_packageParts hname q).mpr ⟨hdotted, hne⟩)
    exact List.mem_map_of_mem (List.mem_filter.mpr ⟨hx, by rw [hfree]; rfl⟩)

theorem Creates.exists_news {entries : List Listed} (h : Creates g entries g') (hg : g.Arena) (hg' : g'.Arena) :
    ∃ news, g'.nodes = g.nodes.map (Node.adopting news) ++ news ∧
      news.map (fun n => (n.fullName, n.toEntry)) = entries := by
  obtain ⟨more, hnodes, hmore⟩ := h.nodes
  obtain ⟨news, rfl, hgrown⟩ := hg.nodes_eq hg' hnodes
  rw [List.map_map] at hmore
  exact ⟨news, hgrown, hmore⟩

/-- A package that is there is found, and nothing changes. -/
theorem package_again (h : g.Named) (hr : g.Recorded) (hname : ∀ part ∈ packageParts name, part ≠ "")
    (hpackages : ∀ n ∈ g.nodes, n.fullName ∈ (packageEntries "" (packageParts name)).map (·.1) → n.kind = .package)
    (hfound : ∀ q, DottedPrefix q name → q ∈ g.nodes.map (·.fullName)) (hat : PackageAt g i name) :
    g.package name = (g, .ok i) := by
  have hout := package_outcome h hname
  rcases hrun : g.package name with ⟨g', r⟩
  rw [hrun] at hout
  cases r with
  | error e =>
    obtain ⟨-, -, n, hn, hk, hin⟩ := hout.error rfl
    exact absurd (hpackages n hn hin) hk
  | ok j =>
    obtain ⟨-, hcreates, hat'⟩ := hout.ok rfl
    rw [foldl_packageParts hname] at hat'
    have hnone : g.missingPackages name = [] := by
      refine List.eq_nil_iff_forall_not_mem.mpr fun x hx => ?_
      obtain ⟨hdotted, hfree⟩ := (mem_missingPackages h.toArena hname x.1).mp (List.mem_map_of_mem hx)
      exact hfree (hfound x.1 hdotted)
    replace hcreates : Creates g (g.missingPackages name) g' := hcreates
    rw [hnone] at hcreates
    obtain rfl := hcreates.eq hr (by simpa [hrun] using package_recorded hr name)
    rw [hat.unique hat' h.toArena]

theorem package_opened (h : g.Named) (hr : g.Recorded) (hname : ∀ part ∈ packageParts name, part ≠ "")
    (hrun : g.package name = (g', .ok i)) : ∃ news, Opened g name g' i news := by
  have h' : g'.Named := by simpa [hrun] using package_named h name
  have hr' : g'.Recorded := by simpa [hrun] using package_recorded hr name
  obtain ⟨hpackages, hcreates, hat⟩ := (hrun ▸ package_outcome h hname : Outcome g "" _ (g', .ok i)).ok rfl
  rw [foldl_packageParts hname] at hat
  replace hcreates : Creates g (g.missingPackages name) g' := hcreates
  obtain ⟨news, hnodes, hnews⟩ := hcreates.exists_news h.toArena h'.toArena
  have hentries : ∀ m ∈ news, m.toEntry = packageEntry m.name := by
    intro m hm
    have hin : (m.fullName, m.toEntry) ∈ g.missingPackages name :=
      hnews ▸ List.mem_map_of_mem (f := fun n : Node => (n.fullName, n.toEntry)) hm
    obtain ⟨parent, part, -, he⟩ := packageEntries_isPackage (packageParts_plain name) _ (List.mem_of_mem_filter hin)
    have hentry : m.toEntry = packageEntry part := congrArg Prod.snd he
    rw [show m.name = part from congrArg Entry.name hentry, hentry]
  have hnames : ∀ q, q ∈ news.map (·.fullName) ↔ DottedPrefix q name ∧ q ∉ g.nodes.map (·.fullName) := by
    intro q
    rw [← mem_missingPackages h.toArena hname q, ← hnews, List.map_map]
    rfl
  have hfound : ∀ q, DottedPrefix q name → q ∈ g'.nodes.map (·.fullName) := by
    intro q hq
    rw [hnodes, List.map_append, List.map_map, List.mem_append]
    by_cases hold : q ∈ g.nodes.map (·.fullName)
    · exact .inl hold
    · exact .inr ((hnames q).mpr ⟨hq, hold⟩)
  refine ⟨news, hat, hnodes, hentries, hnames, hcreates.files, hcreates.finalized, hr'.consistent, ?_⟩
  refine package_again h' hr' hname (fun m hm hin => ?_) hfound hat
  rw [hnodes] at hm
  rcases List.mem_append.mp hm with hm | hm
  · obtain ⟨n, hn, rfl⟩ := List.mem_map.mp hm
    exact hpackages n hn hin
  · rw [Node.kind, hentries m hm]
    rfl

/-- **A package is found or created, or nothing happens.** After a history that adds names without dots, a package of
non-empty parts cannot be opened exactly when some declaration that is no package has a dotted prefix of its name, and
then the graph is as it was. Otherwise the package is opened: its missing prefixes are new packages, and nothing else
has changed. -/
theorem package_opens {ops : List Operation} (hops : ∀ op ∈ ops, op.Plain)
    (hname : ∀ part ∈ packageParts name, part ≠ "") :
    ((∃ d, ((history ops).package name).2 = .error (.duplicate d)) ↔
      ∃ n ∈ (history ops).nodes, n.kind ≠ .package ∧ DottedPrefix n.fullName name) ∧
    (∀ e, ((history ops).package name).2 = .error e →
      (∃ d, e = .duplicate d) ∧ ((history ops).package name).1 = history ops) ∧
    ∀ i, ((history ops).package name).2 = .ok i →
      ∃ news, Opened (history ops) name ((history ops).package name).1 i news := by
  have hg := history_named hops
  have hout := package_outcome hg hname
  refine ⟨⟨?_, ?_⟩, fun e he => ?_, fun i hi => ?_⟩
  · rintro ⟨d, hd⟩
    obtain ⟨-, -, n, hn, hk, hin⟩ := hout.error hd
    exact ⟨n, hn, hk, (hg.inTheWay_iff hname hn hk).mp hin⟩
  · rintro ⟨n, hn, hk, hdotted⟩
    cases hr : ((history ops).package name).2 with
    | ok i => exact absurd ((hout.ok hr).1 n hn ((hg.inTheWay_iff hname hn hk).mpr hdotted)) hk
    | error e =>
      obtain ⟨-, ⟨d, rfl⟩, -⟩ := hout.error hr
      exact ⟨d, rfl⟩
  · obtain ⟨hsame, hdup, -⟩ := hout.error he
    exact ⟨hdup, hsame⟩
  · exact package_opened hg (history_recorded ops) hname (Prod.ext rfl hi)

/-- A message in a package of two parts. -/
def nested : List Operation := [.package "a.b", .add { name := "M", body := .message "proto3" [] } 2]

/-- The message is in the way of packages below it, and of no others. -/
theorem package_opens_nested :
    (∃ d, ((history nested).package "a.b.M.c").2 = .error (.duplicate d)) ∧
    ((history nested).package "a.b.M.c").1 = history nested ∧
    ∃ news, Opened (history nested) "a.c.d" ((history nested).package "a.c.d").1 5 news := by
  have hops : ∀ op ∈ nested, op.Plain := by simp [nested, Operation.Plain, Source.Plain]
  obtain ⟨hiff, herror, -⟩ := @package_opens "a.b.M.c" nested hops (by decide)
  have hmessage : ((history nested).nodes.any fun n => n.fullName == "a.b.M" && n.kind == .message) = true := by
    decide
  rw [List.any_eq_true] at hmessage
  obtain ⟨n, hn, htest⟩ := hmessage
  rw [Bool.and_eq_true, beq_iff_eq, beq_iff_eq] at htest
  obtain ⟨d, hd⟩ := hiff.mpr ⟨n, hn, by rw [htest.2]; rintro ⟨⟩, .inr ⟨"c", by rw [htest.1]; rfl⟩⟩
  refine ⟨⟨d, hd⟩, (herror _ hd).2, ?_⟩
  exact (package_opens hops (by decide)).2.2 5 (by decide)

end Graph

end ProtoBind.Schema
