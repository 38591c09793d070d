/-
The tags in a loaded graph.

A field of a graph has a tag that its file declares (`declContents_tags`), and
files declare no negative ones. So the tags of all fields and extensions are
natural numbers (`loadSources_tag_nonneg`).
-/
import ProtoBind.Proofs.Schema.Declared
import ProtoBind.Proofs.Source.Tags

namespace ProtoBind.Schema

open Schema.Graph Load
open Source (Decl tagsAll)

namespace Load

variable {c : Context}

/-- The tag of an entry that is a field is among some tags. -/
def TagIn (tags : List Int) (x : Listed) : Prop := ∀ f, x.2.body = .field f → f.tag ∈ tags

theorem TagIn.mono {tags tags' : List Int} {x : Listed} (h : TagIn tags x) (hall : ∀ k ∈ tags, k ∈ tags') :
    TagIn tags' x :=
  fun f hb => hall _ (h f hb)

theorem tagIn_other {tags : List Int} {x : Listed} (h : x.2.body.kind ≠ .field) : TagIn tags x :=
  fun _ hb => absurd (congrArg Body.kind hb) h

theorem tagIn_field {space : String} {d : Source.FieldDecl} {oneof extendee : Option String} {tags : List Int}
    (h : d.tag ∈ tags) : TagIn tags ((fieldEntry c d oneof extendee).under space) := by
  intro f hb
  obtain rfl := Body.field.inj hb
  exact h

mutual

theorem messageContents_tags : ∀ {space : String} {d : Decl}, ∀ x ∈ messageContents c space d, TagIn d.tags x
  | space, .message name items line => by
    intro x hx
    rw [messageContents] at hx
    rw [Decl.tags]
    rcases List.mem_cons.mp hx with rfl | hx
    · exact tagIn_other (by rintro ⟨⟩)
    · exact itemsContents_tags x hx
  | _, .dialect _ | _, .edition _ | _, .package _ | _, .imports _ | _, .option _ _ | _, .field _ | _, .map _
  | _, .oneof _ | _, .enum _ | _, .service _ | _, .extend _ => by
    intro x hx
    simp [messageContents] at hx

theorem itemsContents_tags : ∀ {space : String} {items : List Decl}, ∀ x ∈ itemsContents c space items,
    TagIn (tagsAll items) x
  | space, [] => by
    intro x hx
    simp [itemsContents] at hx
  | space, .field d :: rest => by
    intro x hx
    rw [itemsContents] at hx
    rw [tagsAll]
    rcases List.mem_cons.mp hx with rfl | hx
    · exact tagIn_field (List.mem_append_left _ (by simp [Decl.tags]))
    · exact (itemsContents_tags x hx).mono fun k => List.mem_append_right _
  | space, .map d :: rest => by
    intro x hx
    rw [itemsContents] at hx
    rw [tagsAll]
    rcases List.mem_cons.mp hx with rfl | hx
    · intro f hb
      obtain rfl := Body.field.inj hb
      exact List.mem_append_left _ (by simp [Decl.tags])
    · exact (itemsContents_tags x hx).mono fun k => List.mem_append_right _
  | space, .oneof o :: rest => by
    intro x hx
    rw [itemsContents] at hx
    rw [tagsAll]
    rcases List.mem_append.mp hx with hx | hx
    · obtain ⟨d, hd, rfl⟩ := List.mem_map.mp hx
      exact tagIn_field (List.mem_append_left _ (by rw [Decl.tags]; exact List.mem_map_of_mem hd))
    · exact (itemsContents_tags x hx).mono fun k => List.mem_append_right _
  | space, .message name items line :: rest => by
    intro x hx
    rw [itemsContents] at hx
    rw [tagsAll]
    rcases List.mem_append.mp hx with hx | hx
    · exact (messageContents_tags x hx).mono fun k => List.mem_append_left _
    · exact (itemsContents_tags x hx).mono fun k => List.mem_append_right _
  | space, .enum e :: rest => by
    intro x hx
    rw [itemsContents] at hx
    rw [tagsAll]
    rcases List.mem_cons.mp hx with rfl | hx
    · exact tagIn_other (by rintro ⟨⟩)
    · exact (itemsContents_tags x hx).mono fun k => List.mem_append_right _
  | space, .dialect _ :: rest | space, .edition _ :: rest | space, .package _ :: rest | space, .imports _ :: rest
  | space, .option _ _ :: rest | space, .service _ :: rest | space, .extend _ :: rest => by
    simp only [itemsContents, tagsAll]
    exact fun x hx => (itemsContents_tags x hx).mono fun k => List.mem_append_right _

end

/-- The tags of what a declaration becomes are tags of the declaration. -/
theorem declContents_tags {space : String} {d : Decl} : ∀ x ∈ declContents c space d, TagIn d.tags x := by
  intro x hx
  cases d with
  | message name items line => exact messageContents_tags x hx
  | enum e =>
    obtain rfl := List.mem_singleton.mp hx
    exact tagIn_other (by rintro ⟨⟩)
  | service d =>
    rcases List.mem_cons.mp hx with rfl | hx
    · exact tagIn_other (by rintro ⟨⟩)
    · obtain ⟨rpc, -, rfl⟩ := List.mem_map.mp hx
      exact tagIn_other (by rintro ⟨⟩)
  | extend e =>
    obtain ⟨d, hd, rfl⟩ := List.mem_map.mp hx
    exact tagIn_field (by rw [Decl.tags]; exact List.mem_map_of_mem hd)
  | _ => cases hx

end Load

variable {find : String → Option String} {files : List SchemaFile} {f : SchemaFile} {s : Loader} {g : Graph} {n : Node}

theorem fileAt_tags [Source.CharacterNames] {file : String} (h : fileAt find file = some f) :
    ∀ d ∈ f.decls, ∀ k ∈ d.tags, 0 ≤ k := by
  obtain ⟨text, -, htext⟩ := Option.bind_eq_some_iff.mp h
  obtain ⟨parsed, hparsed, rfl⟩ := Option.map_eq_some_iff.mp htext
  exact Source.parse_tags (eq_ok_of_toOption hparsed)

/-- **No field of a loaded graph has a negative tag.** -/
theorem loadSources_tag_nonneg [Source.CharacterNames] {sources : Sources}
    (hload : loadSources sources .empty = .ok g s) (hn : n ∈ g.nodes)
    {field : Field} (hb : n.body = .field field) : 0 ≤ field.tag := by
  obtain ⟨s₁, heach, missing, hf⟩ := loadSources_eq_ok.mp ⟨s, hload⟩
  obtain ⟨files, hs, ho, -⟩ := loadEach_sound heach
  obtain ⟨n₀, hn₀, horigin⟩ := forall₂_mem (finalize_resolved hf).1.flip hn
  obtain ⟨field₀, v, hb₀, rfl, -⟩ := horigin.field hb
  have hk : n₀.body.kind = .field := congrArg Body.kind hb₀
  have hlisted : (n₀.fullName, n₀.toEntry) ∈ s₁.graph.listing := mem_listing.mpr ⟨n₀, hn₀, rfl, rfl⟩
  rcases hs.mem.mp hlisted with he | ⟨f, hfile, hx | hx⟩
  · exact absurd (hk.symm.trans (congrArg (·.2.body.kind) he)) (by decide)
  · exact absurd (hk.symm.trans (SchemaFile.packages_isPackage hx).kind) (by decide)
  · obtain ⟨d, hd, hx⟩ := List.mem_flatMap.mp hx
    exact fileAt_tags (ho.read f hfile).1 d hd _ (declContents_tags _ hx field₀ hb₀)

end ProtoBind.Schema
