/-
Mappings with texts for keys: what a key finds after a change, and when a
list of pairs is a mapping already.
-/
import Mathlib.Data.List.Forall2
import ProtoBind.Value

namespace ProtoBind.Entries

variable {β : Type}

theorem put_of_notMem {α : Type} [BEq α] [LawfulBEq α] {k : α} {v : β} :
    ∀ {entries : List (α × β)}, k ∉ entries.map (·.1) → put (· == ·) k v entries = entries ++ [(k, v)]
  | [], _ => rfl
  | (k', v') :: rest, h => by
    simp only [List.map_cons, List.mem_cons, not_or] at h
    rw [put, if_neg (by simpa using Ne.symm h.1), put_of_notMem h.2, List.cons_append]

theorem lookup_put {α : Type} [BEq α] [LawfulBEq α] [DecidableEq α] {k k' : α} {v : β} :
    ∀ {entries : List (α × β)},
      (put (· == ·) k v entries).lookup k' = if k' = k then some v else entries.lookup k'
  | [] => by
    simp only [put, List.lookup_cons, List.lookup_nil]
    by_cases h : k' = k
    · simp [h]
    · simp [h, beq_false_of_ne h]
  | (k₁, v₁) :: rest => by
    by_cases h₁ : k₁ = k
    · subst h₁
      by_cases h : k' = k₁
      · simp [put, h]
      · simp [put, h, List.lookup_cons, beq_false_of_ne h]
    · by_cases h : k' = k₁
      · simp [put, h, h₁]
      · simp [put, h₁, List.lookup_cons, beq_false_of_ne h, @lookup_put _ _ _ _ k k' v rest]

theorem lookup_erase {k k' : String} : ∀ {entries : List (String × β)},
    (erase (· == ·) k entries).lookup k' = if k' = k then none else entries.lookup k'
  | [] => by simp [erase]
  | (k₁, v₁) :: rest => by
    have ih := @lookup_erase k k' rest
    rw [erase] at ih ⊢
    by_cases h₁ : k₁ = k
    · subst h₁
      rw [List.filter_cons_of_neg (by simp), ih]
      by_cases h : k' = k₁
      · rw [if_pos h, if_pos h]
      · rw [if_neg h, if_neg h, List.lookup_cons, beq_false_of_ne h]
    · rw [List.filter_cons_of_pos (by simpa using h₁), List.lookup_cons, List.lookup_cons, ih]
      by_cases h : k' = k₁
      · subst h
        simp [h₁]
      · rw [beq_false_of_ne h]

theorem erase_of_notMem {α : Type} [BEq α] [LawfulBEq α] {k : α} {entries : List (α × β)}
    (h : k ∉ entries.map (·.1)) : erase (· == ·) k entries = entries := by
  refine List.filter_eq_self.mpr fun e he => ?_
  simpa using fun hk : e.1 = k => h (hk ▸ List.mem_map_of_mem he)

/-- An entry that was not there can be taken away again. -/
theorem erase_put_of_notMem {α : Type} [BEq α] [LawfulBEq α] {k : α} {v : β} {entries : List (α × β)}
    (h : k ∉ entries.map (·.1)) : erase (· == ·) k (put (· == ·) k v entries) = entries := by
  have hrest := erase_of_notMem h
  rw [erase] at hrest
  rw [put_of_notMem h, erase, List.filter_append, hrest]
  simp

theorem keys_erase_sublist {k : String} {entries : List (String × β)} :
    ((erase (· == ·) k entries).map (·.1)).Sublist (entries.map (·.1)) :=
  List.filter_sublist.map _

/-- A key that finds a value keeps it. -/
theorem put_self {k : String} {v : β} : ∀ {entries : List (String × β)}, entries.lookup k = some v →
    put (· == ·) k v entries = entries
  | (k₁, v₁) :: rest, h => by
    by_cases h₁ : k = k₁
    · subst h₁
      obtain rfl : v₁ = v := by simpa using h
      rw [put, if_pos (beq_self_eq_true k)]
    · rw [List.lookup_cons, beq_false_of_ne h₁] at h
      rw [put, if_neg (by simpa using Ne.symm h₁), put_self h]

/-- Only the last value of a key counts. -/
theorem put_put {α : Type} [BEq α] [LawfulBEq α] {k : α} {v w : β} : ∀ {entries : List (α × β)},
    put (· == ·) k w (put (· == ·) k v entries) = put (· == ·) k w entries
  | [] => by simp [put]
  | (k₁, v₁) :: rest => by
    by_cases h₁ : k₁ = k
    · subst h₁
      simp [put]
    · simp [put, h₁, @put_put _ _ _ k v w rest]

/-- Pairs with distinct keys are a mapping already. -/
theorem ofList_of_nodup {pairs : List (String × β)} (h : (pairs.map (·.1)).Nodup) :
    ofList (· == ·) pairs = pairs := by
  have hfold : ∀ (rest done : List (String × β)), ((done ++ rest).map (·.1)).Nodup →
      rest.foldl (fun acc p => put (· == ·) p.1 p.2 acc) done = done ++ rest := by
    intro rest
    induction rest with
    | nil => simp
    | cons p rest ih =>
      intro done hnodup
      have hp : p.1 ∉ done.map (·.1) := by
        rw [List.map_append, List.nodup_append] at hnodup
        exact fun hm => hnodup.2.2 _ hm _ (by simp) rfl
      rw [List.foldl_cons, put_of_notMem hp, ih _ (by simpa using hnodup)]
      simp
  exact hfold pairs [] h

theorem mem_put {k : String} {v : β} {e : String × β} : ∀ {entries : List (String × β)},
    e ∈ put (· == ·) k v entries → e = (k, v) ∨ e ∈ entries
  | [], h => .inl (List.mem_singleton.mp h)
  | (k₁, v₁) :: rest, h => by
    rw [put] at h
    split at h
    next hk =>
      rcases List.mem_cons.mp h with h | h
      · exact .inl (by rw [h, beq_iff_eq.mp hk])
      · exact .inr (List.mem_cons_of_mem _ h)
    next =>
      rcases List.mem_cons.mp h with h | h
      · exact .inr (h ▸ List.mem_cons_self)
      · exact (mem_put h).imp_right (List.mem_cons_of_mem _)

theorem keys_put_nodup {k : String} {v : β} : ∀ {entries : List (String × β)}, (entries.map (·.1)).Nodup →
    ((put (· == ·) k v entries).map (·.1)).Nodup
  | [], _ => by simp [put]
  | (k₁, v₁) :: rest, h => by
    rw [List.map_cons, List.nodup_cons] at h
    rw [put]
    split
    · rw [List.map_cons, List.nodup_cons]
      exact h
    next hk =>
      rw [List.map_cons, List.nodup_cons]
      refine ⟨fun hm => ?_, keys_put_nodup h.2⟩
      obtain ⟨e, he, hkey⟩ := List.mem_map.mp hm
      rcases mem_put he with rfl | he
      · exact hk (by simpa using hkey.symm)
      · exact h.1 (hkey ▸ List.mem_map_of_mem he)

/-- Every entry of a mapping was given. -/
theorem mem_ofList {e : String × β} {pairs : List (String × β)} (h : e ∈ ofList (· == ·) pairs) : e ∈ pairs := by
  have hfold : ∀ (rest done : List (String × β)),
      e ∈ rest.foldl (fun acc p => put (· == ·) p.1 p.2 acc) done → e ∈ rest ∨ e ∈ done := by
    intro rest
    induction rest with
    | nil => exact fun done h => .inr h
    | cons p rest ih =>
      intro done h
      rcases ih (put (· == ·) p.1 p.2 done) h with h | h
      · exact .inl (List.mem_cons_of_mem p h)
      · rcases mem_put h with h | h
        · exact .inl (h ▸ List.mem_cons_self)
        · exact .inr h
  rcases hfold pairs [] h with h | h
  · exact h
  · cases h

/-- A key that is given one value only, however often, finds it. -/
theorem lookup_ofList {k : String} {v : β} {pairs : List (String × β)} (h : ∀ w, (k, w) ∈ pairs → w = v) :
    (ofList (· == ·) pairs).lookup k = if k ∈ pairs.map (·.1) then some v else none := by
  have hfold : ∀ (rest done : List (String × β)), (∀ w, (k, w) ∈ rest → w = v) →
      (rest.foldl (fun acc p => put (· == ·) p.1 p.2 acc) done).lookup k =
        if k ∈ rest.map (·.1) then some v else done.lookup k := by
    intro rest
    induction rest with
    | nil => simp
    | cons p rest ih =>
      intro done hrest
      rw [List.foldl_cons, ih _ fun w hw => hrest w (List.mem_cons_of_mem p hw), lookup_put]
      by_cases hp : k = p.1
      · have hv := hrest p.2 (by rw [hp]; exact List.mem_cons_self)
        simp [hp, hv]
      · rw [if_neg hp]
        simp only [List.map_cons, List.mem_cons, hp, false_or]
  exact hfold pairs [] h

theorem lookup_of_mem {k : String} {v : β} : ∀ {pairs : List (String × β)}, (pairs.map (·.1)).Nodup →
    (k, v) ∈ pairs → pairs.lookup k = some v
  | (k', v') :: rest, hn, h => by
    rw [List.map_cons, List.nodup_cons] at hn
    rcases List.mem_cons.mp h with h | h
    · cases h
      simp
    · have hne : k ≠ k' := fun he => hn.1 (List.mem_map.mpr ⟨(k, v), h, he⟩)
      rw [List.lookup_cons, beq_false_of_ne hne]
      exact lookup_of_mem hn.2 h

theorem mem_of_lookup {α : Type} [BEq α] [LawfulBEq α] {k : α} {v : β} {pairs : List (α × β)}
    (h : pairs.lookup k = some v) : (k, v) ∈ pairs := by
  obtain ⟨before, after, rfl, -⟩ := List.lookup_eq_some_iff.mp h
  simp

theorem lookup_of_notMem {α : Type} [BEq α] [LawfulBEq α] {k : α} {pairs : List (α × β)} (h : k ∉ pairs.map (·.1)) :
    pairs.lookup k = none := by
  rw [List.lookup_eq_none_iff]
  intro p hp
  simpa using fun he : k = p.1 => h (he ▸ List.mem_map_of_mem hp)

theorem lookup_eq_none_iff {α : Type} [BEq α] [LawfulBEq α] {k : α} {pairs : List (α × β)} :
    pairs.lookup k = none ↔ k ∉ pairs.map (·.1) := by
  refine ⟨fun h hm => ?_, lookup_of_notMem⟩
  obtain ⟨e, he, rfl⟩ := List.mem_map.mp hm
  simpa using List.lookup_eq_none_iff.mp h e he

theorem keys_ofList_nodup (pairs : List (String × β)) : ((ofList (· == ·) pairs).map (·.1)).Nodup := by
  have hfold : ∀ (rest done : List (String × β)), (done.map (·.1)).Nodup →
      ((rest.foldl (fun acc p => put (· == ·) p.1 p.2 acc) done).map (·.1)).Nodup := by
    intro rest
    induction rest with
    | nil => exact fun done h => h
    | cons p rest ih => exact fun done h => ih _ (keys_put_nodup h)
  exact hfold pairs [] List.nodup_nil

/-- The order of its entries does not change what a mapping finds. -/
theorem lookup_perm {xs ys : List (String × β)} (h : xs.Perm ys) (hn : (xs.map (·.1)).Nodup) (k : String) :
    xs.lookup k = ys.lookup k := by
  have hn' : (ys.map (·.1)).Nodup := (h.map _).nodup_iff.mp hn
  cases hx : xs.lookup k with
  | some v => exact (lookup_of_mem hn' (h.mem_iff.mp (mem_of_lookup hx))).symm
  | none =>
    have hnot := lookup_eq_none_iff.mp hx
    rw [(h.map _).mem_iff] at hnot
    exact (lookup_of_notMem hnot).symm

theorem keys_filterMap_sublist {α : Type} (key : α → String) (value : α → Option β) : ∀ items : List α,
    ((items.filterMap fun y => (value y).map (key y, ·)).map (·.1)).Sublist (items.map key)
  | [] => List.Sublist.slnil
  | y :: rest => by
    have ih := keys_filterMap_sublist key value rest
    cases hv : value y with
    | some v =>
      rw [List.filterMap_cons_some (by rw [hv]; rfl)]
      exact ih.cons_cons _
    | none =>
      rw [List.filterMap_cons_none (by rw [hv]; rfl)]
      exact ih.cons _

/-- Items with distinct keys find what they enter. -/
theorem lookup_filterMap {α : Type} (key : α → String) (value : α → Option β) :
    ∀ {items : List α}, (items.map key).Nodup → ∀ x ∈ items,
      (items.filterMap fun y => (value y).map (key y, ·)).lookup (key x) = value x
  | y :: rest, hn, x, hx => by
    rw [List.map_cons, List.nodup_cons] at hn
    rcases List.mem_cons.mp hx with rfl | hx
    · cases hv : value x with
      | some v => simp [hv]
      | none =>
        rw [List.filterMap_cons_none (by rw [hv]; rfl)]
        refine lookup_of_notMem fun hm => hn.1 ?_
        obtain ⟨⟨k, v⟩, he, hk⟩ := List.mem_map.mp hm
        obtain ⟨z, hz, hzv⟩ := List.mem_filterMap.mp he
        obtain ⟨w, -, hw⟩ := Option.map_eq_some_iff.mp hzv
        cases hw
        exact List.mem_map.mpr ⟨z, hz, hk⟩
    · have hne : key x ≠ key y := fun he => hn.1 (List.mem_map.mpr ⟨x, hx, he⟩)
      have ih := lookup_filterMap key value hn.2 x hx
      cases hv : value y with
      | some v => rw [List.filterMap_cons_some (by rw [hv]; rfl), List.lookup_cons, beq_false_of_ne hne, ih]
      | none => rw [List.filterMap_cons_none (by rw [hv]; rfl), ih]

/-- What two mappings with the same keys have at a key. -/
theorem lookup_forall₂ {γ : Type} {R : β → γ → Prop} {xs : List (String × β)} {ys : List (String × γ)}
    (h : List.Forall₂ (fun x y => y.1 = x.1 ∧ R x.2 y.2) xs ys) (k : String) :
    (xs.lookup k = none ∧ ys.lookup k = none) ∨
      ∃ v w, xs.lookup k = some v ∧ ys.lookup k = some w ∧ R v w := by
  induction h with
  | nil => exact .inl ⟨rfl, rfl⟩
  | @cons x y xs ys hxy _ ih =>
    obtain ⟨hkey, hR⟩ := hxy
    rw [List.lookup_cons, List.lookup_cons, hkey]
    by_cases hk : k = x.1
    · exact .inr ⟨x.2, y.2, by simp [hk], by simp [hk], hR⟩
    · simpa only [beq_false_of_ne hk] using ih

end ProtoBind.Entries
