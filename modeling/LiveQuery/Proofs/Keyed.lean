import LiveQuery.Keyed
import Mathlib.Data.List.Nodup
import Mathlib.Data.List.Perm.Subperm

/-! # Laws of keyed lists

What `insert`, `erase`, `ofList` and `mapValues` do to `find?`, to membership and to the order of the
keys. The keys of the development are texts and byte strings; the laws need a strict total order.
-/
namespace LiveQuery.Keyed

variable {κ α β : Type}

/-! ## Lookup -/

section Lookup

variable [DecidableEq κ]

@[simp] theorem find?_mapValues (f : α → β) (m : List (κ × α)) (k : κ) :
    find? (mapValues f m) k = (find? m k).map f := by
  induction m with
  | nil => rfl
  | cons e m ih =>
    simp only [mapValues, List.map_cons, find?_cons] at ih ⊢
    by_cases h : e.1 = k
    · simp [h]
    · simpa [h] using ih

theorem find?_eq_none {m : List (κ × α)} {k : κ} : find? m k = none ↔ k ∉ keys m := by
  induction m with
  | nil => simp [keys]
  | cons e m ih =>
    rw [find?_cons]
    by_cases h : e.1 = k
    · simp [h, keys]
    · have h' : ¬k = e.1 := fun e => h e.symm
      simp only [h, if_false, ih, keys, List.map_cons, List.mem_cons, h', false_or]

theorem find?_of_mem_of_nodup {m : List (κ × α)} {k : κ} {v : α} (hn : (keys m).Nodup)
    (h : (k, v) ∈ m) : find? m k = some v := by
  induction m with
  | nil => cases h
  | cons e m ih =>
    rw [find?_cons]
    rcases List.mem_cons.mp h with rfl | h
    · simp
    · have hk : e.1 ≠ k := by
        rintro rfl
        exact (List.nodup_cons.mp hn).1 (List.mem_map.mpr ⟨_, h, rfl⟩)
      rw [if_neg hk]
      exact ih (List.nodup_cons.mp hn).2 h

theorem mem_of_mem_erase {m : List (κ × α)} {k : κ} {e : κ × α} (h : e ∈ erase m k) : e ∈ m := by
  induction m with
  | nil => cases h
  | cons d m ih =>
    simp only [erase] at h
    split at h
    next => exact List.mem_cons_of_mem _ h
    next =>
      rcases List.mem_cons.mp h with rfl | h
      · exact List.mem_cons_self
      · exact List.mem_cons_of_mem _ (ih h)

theorem erase_sublist (m : List (κ × α)) (k : κ) : (erase m k).Sublist m := by
  induction m with
  | nil => exact List.Sublist.refl _
  | cons d m ih =>
    simp only [erase]
    split
    next => exact List.sublist_cons_self _ _
    next => exact ih.cons_cons _

theorem perm_cons_erase {m : List (κ × α)} {k : κ} {v : α} (h : find? m k = some v) :
    m.Perm ((k, v) :: erase m k) := by
  induction m with
  | nil => cases h
  | cons e m ih =>
    rw [find?_cons] at h
    simp only [erase]
    split at h
    next he =>
      cases h
      rw [if_pos he, ← he]
    next he =>
      rw [if_neg he]
      exact ((ih h).cons e).trans (List.Perm.swap _ _ _)

theorem erase_of_find?_eq_none {m : List (κ × α)} {k : κ} (h : find? m k = none) : erase m k = m := by
  induction m with
  | nil => rfl
  | cons e m ih =>
    rw [find?_cons] at h
    split at h
    next => cases h
    next he => simp only [erase, if_neg he, ih h]

/-- What the entry of a key and the others give. -/
theorem flatMap_perm_erase (m : List (κ × α)) (k : κ) (f : κ × α → List β) :
    (m.flatMap f).Perm ((find? m k).elim [] (fun v => f (k, v)) ++ (erase m k).flatMap f) := by
  cases h : find? m k with
  | none => rw [erase_of_find?_eq_none h]; exact List.Perm.refl _
  | some v => exact (perm_cons_erase h).flatMap_right f

theorem find?_erase_of_ne (m : List (κ × α)) {k k' : κ} (h : k ≠ k') :
    find? (erase m k) k' = find? m k' := by
  induction m with
  | nil => rfl
  | cons e m ih =>
    simp only [erase]
    split
    next he => rw [find?_cons, if_neg (he ▸ h)]
    next he => rw [find?_cons, find?_cons, ih]

theorem find?_erase {m : List (κ × α)} (h : (keys m).Nodup) (k k' : κ) :
    find? (erase m k) k' = if k = k' then none else find? m k' := by
  split
  next heq =>
    subst heq
    induction m with
    | nil => rfl
    | cons e m ih =>
      obtain ⟨hfirst, hrest⟩ := List.nodup_cons.mp h
      simp only [erase]
      split
      next he => exact find?_eq_none.mpr (he ▸ hfirst)
      next he => rw [find?_cons, if_neg he, ih hrest]
  next hne => exact find?_erase_of_ne m hne

theorem find?_append (m n : List (κ × α)) (k : κ) : find? (m ++ n) k = (find? m k).or (find? n k) := by
  induction m with
  | nil => rfl
  | cons e m ih =>
    rw [List.cons_append, find?_cons, find?_cons]
    split
    next => rfl
    next => exact ih

end Lookup

/-! ## Insertion -/

section Insert

variable [DecidableEq κ] [LT κ] [DecidableLT κ]

theorem find?_insert (m : List (κ × α)) (k : κ) (v : α) (k' : κ) :
    find? (insert m k v) k' = if k = k' then some v else find? m k' := by
  induction m with
  | nil => rfl
  | cons e m ih =>
    simp only [insert]
    split
    next => rfl
    next =>
      split
      next he => simp only [find?_cons, ← he]; split <;> rfl
      next he =>
        rw [find?_cons, find?_cons, ih]
        by_cases hk : e.1 = k'
        · rw [if_pos hk, if_pos hk, if_neg (fun h => he (h.trans hk.symm))]
        · rw [if_neg hk, if_neg hk]

@[simp] theorem find?_insert_self (m : List (κ × α)) (k : κ) (v : α) :
    find? (insert m k v) k = some v := by
  rw [find?_insert, if_pos rfl]

theorem find?_insert_of_ne (m : List (κ × α)) {k k' : κ} (v : α) (h : k ≠ k') :
    find? (insert m k v) k' = find? m k' := by
  rw [find?_insert, if_neg h]

theorem mem_of_mem_insert {m : List (κ × α)} {k : κ} {v : α} {e : κ × α}
    (h : e ∈ insert m k v) : e = (k, v) ∨ e ∈ m := by
  induction m with
  | nil => exact .inl (List.mem_singleton.mp h)
  | cons d m ih =>
    simp only [insert] at h
    split at h
    next => exact List.mem_cons.mp h
    next =>
      split at h
      next =>
        rcases List.mem_cons.mp h with h | h
        · exact .inl h
        · exact .inr (List.mem_cons_of_mem _ h)
      next =>
        rcases List.mem_cons.mp h with h | h
        · exact .inr (h ▸ List.mem_cons_self)
        · exact (ih h).imp_right (List.mem_cons_of_mem _)

theorem mem_insert_of_mem {m : List (κ × α)} {k : κ} (v : α) (h : find? m k = none) {e : κ × α}
    (he : e ∈ m) : e ∈ insert m k v := by
  induction m with
  | nil => cases he
  | cons d m ih =>
    rw [find?_cons] at h
    split at h
    next => cases h
    next hne =>
      simp only [insert]
      split
      next => exact List.mem_cons_of_mem _ he
      next =>
        rw [if_neg (Ne.symm hne)]
        rcases List.mem_cons.mp he with rfl | he
        · exact List.mem_cons_self
        · exact List.mem_cons_of_mem _ (ih h he)

theorem mem_insert_self (m : List (κ × α)) (k : κ) (v : α) : (k, v) ∈ insert m k v :=
  mem_of_find? (find?_insert_self m k v)

/-- Maps that are related entry by entry stay so if related values are stored under one key. -/
theorem forall₂_insert {R : κ → α → β → Prop} {m : List (κ × α)} {n : List (κ × β)} {k : κ} {v : α} {w : β}
    (h : List.Forall₂ (fun a b => a.1 = b.1 ∧ R b.1 a.2 b.2) m n) (hvw : R k v w) :
    List.Forall₂ (fun a b => a.1 = b.1 ∧ R b.1 a.2 b.2) (insert m k v) (insert n k w) := by
  induction h with
  | nil => exact .cons ⟨rfl, hvw⟩ .nil
  | @cons a b m n hab hrest ih =>
    obtain ⟨l, v'⟩ := a
    obtain ⟨l', w'⟩ := b
    obtain rfl : l = l' := hab.1
    simp only [insert]
    split
    next => exact .cons ⟨rfl, hvw⟩ (.cons hab hrest)
    next =>
      split
      next => exact .cons ⟨rfl, hvw⟩ hrest
      next => exact .cons hab ih

theorem mapValues_insert (f : α → β) (m : List (κ × α)) (k : κ) (v : α) :
    mapValues f (insert m k v) = insert (mapValues f m) k (f v) := by
  induction m with
  | nil => rfl
  | cons e m ih =>
    simp only [insert, mapValues, List.map_cons] at ih ⊢
    split
    next => rfl
    next =>
      split
      next => rfl
      next => rw [List.map_cons, ih]

/-- Storing entries one after the other on top of a map. -/
theorem mapValues_foldl_insert (f : α → β) (entries m : List (κ × α)) :
    mapValues f (entries.foldl (fun m e => insert m e.1 e.2) m) =
      (mapValues f entries).foldl (fun m e => insert m e.1 e.2) (mapValues f m) := by
  induction entries generalizing m with
  | nil => rfl
  | cons e es ih =>
    rw [List.foldl_cons, ih, mapValues_insert]
    rfl

theorem mapValues_ofList (f : α → β) (entries : List (κ × α)) :
    mapValues f (ofList entries) = ofList (mapValues f entries) :=
  mapValues_foldl_insert f entries []

theorem mem_of_mem_foldl_insert {entries m : List (κ × α)} {e : κ × α}
    (h : e ∈ entries.foldl (fun m e => insert m e.1 e.2) m) : e ∈ entries ∨ e ∈ m := by
  induction entries generalizing m with
  | nil => exact .inr h
  | cons d es ih =>
    rcases ih h with h | h
    · exact .inl (List.mem_cons_of_mem _ h)
    · rcases mem_of_mem_insert h with rfl | h
      · exact .inl List.mem_cons_self
      · exact .inr h

theorem mem_of_mem_ofList {entries : List (κ × α)} {e : κ × α} (h : e ∈ ofList entries) :
    e ∈ entries :=
  (mem_of_mem_foldl_insert h).resolve_right (by simp)

theorem find?_foldl_insert_of_not_mem {entries m : List (κ × α)} {k : κ} (h : k ∉ keys entries) :
    find? (entries.foldl (fun m e => insert m e.1 e.2) m) k = find? m k := by
  induction entries generalizing m with
  | nil => rfl
  | cons d es ih =>
    simp only [keys, List.map_cons, List.mem_cons, not_or] at h
    rw [List.foldl_cons, ih h.2, find?_insert_of_ne _ _ (Ne.symm h.1)]

theorem find?_foldl_insert_of_mem {entries m : List (κ × α)} {k : κ} {v : α}
    (hn : (keys entries).Nodup) (h : (k, v) ∈ entries) :
    find? (entries.foldl (fun m e => insert m e.1 e.2) m) k = some v := by
  induction entries generalizing m with
  | nil => cases h
  | cons d es ih =>
    rw [List.foldl_cons]
    rcases List.mem_cons.mp h with rfl | h
    · rw [find?_foldl_insert_of_not_mem (List.nodup_cons.mp hn).1, find?_insert_self]
    · exact ih (List.nodup_cons.mp hn).2 h

/-- With distinct keys every entry can be found again. -/
theorem find?_ofList_of_mem {entries : List (κ × α)} {k : κ} {v : α} (hn : (keys entries).Nodup)
    (h : (k, v) ∈ entries) : find? (ofList entries) k = some v :=
  find?_foldl_insert_of_mem hn h

theorem find?_ofList_eq_none {entries : List (κ × α)} {k : κ} (h : k ∉ keys entries) :
    find? (ofList entries) k = none :=
  find?_foldl_insert_of_not_mem h

theorem find?_foldl_insert_ne_none {entries m : List (κ × α)} {k : κ}
    (h : k ∈ keys entries ∨ find? m k ≠ none) :
    find? (entries.foldl (fun m e => insert m e.1 e.2) m) k ≠ none := by
  induction entries generalizing m with
  | nil => exact h.resolve_left (by simp [keys])
  | cons d es ih =>
    refine ih ?_
    by_cases hk : d.1 = k
    · subst hk
      exact .inr (by simp)
    · rw [find?_insert_of_ne _ _ hk]
      refine h.imp_left fun hmem => ?_
      exact (List.mem_cons.mp hmem).resolve_left (Ne.symm hk)

/-- What cannot be found was not among the entries. -/
theorem not_mem_keys_of_find?_ofList {entries : List (κ × α)} {k : κ} (h : find? (ofList entries) k = none) :
    k ∉ keys entries :=
  fun hmem => find?_foldl_insert_ne_none (.inl hmem) h

end Insert

/-! ## Order -/

section Order

variable [LT κ]

theorem ordered_iff_keys {m : List (κ × α)} :
    Ordered m ↔ (keys m).Pairwise (fun a b => a < b) :=
  List.pairwise_map.symm

theorem Ordered.mapValues {m : List (κ × α)} (h : Ordered m) (f : α → β) :
    Ordered (mapValues f m) :=
  List.pairwise_map.mpr h

theorem ordered_erase [DecidableEq κ] {m : List (κ × α)} (h : Ordered m) (k : κ) : Ordered (erase m k) :=
  List.Pairwise.sublist (erase_sublist m k) h

variable [Std.Irrefl (fun a b : κ => a < b)]

theorem Ordered.nodup {m : List (κ × α)} (h : Ordered m) : (keys m).Nodup :=
  List.pairwise_map.mpr (h.imp ne_of_irrefl)

theorem Ordered.find?_iff [DecidableEq κ] {m : List (κ × α)} (h : Ordered m) {k : κ} {v : α} :
    find? m k = some v ↔ (k, v) ∈ m :=
  ⟨mem_of_find?, find?_of_mem_of_nodup h.nodup⟩

variable [Trans (fun a b : κ => a < b) (fun a b : κ => a < b) (fun a b : κ => a < b)]

/-- An ordered map is known by its entries. -/
theorem Ordered.eq_of_subset {m n : List (κ × α)} (hm : Ordered m) (hn : Ordered n) (h : m ⊆ n)
    (hl : n.length ≤ m.length) : m = n := by
  have hnodup : m.Nodup := List.Nodup.of_map Prod.fst hm.nodup
  have hperm : m.Perm n := (hnodup.subperm h).perm_of_length_le hl
  refine hperm.eq_of_pairwise (fun a b _ _ hab hba => ?_) hm hn
  have := Trans.trans (r := (· < ·)) (s := (· < ·)) hab hba
  exact absurd rfl (ne_of_irrefl this)

end Order

/-! ## Insertion into a map in order -/

section Total

variable [DecidableEq κ] [LT κ] [DecidableLT κ] [Std.Trichotomous (fun a b : κ => a < b)]
  [Trans (fun a b : κ => a < b) (fun a b : κ => a < b) (fun a b : κ => a < b)]

theorem Ordered.insert {m : List (κ × α)} (h : Ordered m) (k : κ) (v : α) :
    Ordered (insert m k v) := by
  induction m with
  | nil => exact List.pairwise_singleton _ _
  | cons e m ih =>
    obtain ⟨he, hm⟩ := List.pairwise_cons.mp h
    simp only [Keyed.insert]
    split
    next hk =>
      refine List.pairwise_cons.mpr ⟨fun d hd => ?_, h⟩
      rcases List.mem_cons.mp hd with rfl | hd
      · exact hk
      · exact Trans.trans (r := (· < ·)) (s := (· < ·)) hk (he d hd)
    next hk =>
      split
      next heq => exact List.pairwise_cons.mpr ⟨fun d hd => heq ▸ he d hd, hm⟩
      next hne =>
        refine List.pairwise_cons.mpr ⟨fun d hd => ?_, ih hm⟩
        rcases mem_of_mem_insert hd with rfl | hd
        · exact Decidable.byContradiction fun hlt =>
            hne ((inferInstance : Std.Trichotomous (fun a b : κ => a < b)).trichotomous k e.1 hk hlt)
        · exact he d hd

theorem ordered_foldl_insert {entries m : List (κ × α)} (h : Ordered m) :
    Ordered (entries.foldl (fun m e => Keyed.insert m e.1 e.2) m) := by
  induction entries generalizing m with
  | nil => exact h
  | cons d es ih => exact ih (h.insert d.1 d.2)

theorem ordered_ofList (entries : List (κ × α)) : Ordered (ofList entries) :=
  ordered_foldl_insert List.Pairwise.nil

end Total

section Strict

variable [DecidableEq κ] [LT κ] [DecidableLT κ] [Std.Irrefl (fun a b : κ => a < b)]
  [Trans (fun a b : κ => a < b) (fun a b : κ => a < b) (fun a b : κ => a < b)]

/-- What is stored under a key replaces what was there. -/
theorem Ordered.insert_perm {m : List (κ × α)} (h : Ordered m) (k : κ) (v : α) :
    (Keyed.insert m k v).Perm ((k, v) :: erase m k) := by
  induction m with
  | nil => exact List.Perm.refl _
  | cons e m ih =>
    obtain ⟨he, hm⟩ := List.pairwise_cons.mp h
    simp only [Keyed.insert, erase]
    split
    next hlt =>
      have hne : ¬ e.1 = k := (ne_of_irrefl hlt).symm
      have hnone : find? m k = none := find?_eq_none.mpr fun hk => by
        obtain ⟨d, hd, rfl⟩ := List.mem_map.mp hk
        exact ne_of_irrefl (Trans.trans (r := (· < ·)) (s := (· < ·)) hlt (he d hd)) rfl
      rw [if_neg hne, erase_of_find?_eq_none hnone]
    next =>
      split
      next heq => rw [if_pos heq.symm]
      next hne =>
        rw [if_neg (fun heq => hne heq.symm)]
        exact ((ih hm).cons e).trans (List.Perm.swap _ _ _)

/-- Storing what is there already changes nothing. -/
theorem Ordered.insert_of_find? {m : List (κ × α)} (h : Ordered m) {k : κ} {v : α}
    (hk : find? m k = some v) : Keyed.insert m k v = m := by
  induction m with
  | nil => cases hk
  | cons e m ih =>
    obtain ⟨he, hm⟩ := List.pairwise_cons.mp h
    rw [find?_cons] at hk
    simp only [Keyed.insert]
    split at hk
    next heq =>
      cases hk
      subst heq
      rw [if_neg (fun hlt => ne_of_irrefl hlt rfl), if_pos rfl]
    next hne =>
      have hlt : e.1 < k := he (k, v) (mem_of_find? hk)
      have hnlt : ¬ k < e.1 := fun hk => ne_of_irrefl (Trans.trans (r := (· < ·)) (s := (· < ·)) hlt hk) rfl
      rw [if_neg hnlt, if_neg (fun heq => hne heq.symm), ih hm hk]

theorem insert_of_forall_lt {m : List (κ × α)} {k : κ} (v : α) (h : ∀ e ∈ m, e.1 < k) :
    insert m k v = m ++ [(k, v)] := by
  induction m with
  | nil => rfl
  | cons e m ih =>
    have hlt : e.1 < k := h e List.mem_cons_self
    have hnlt : ¬ k < e.1 := fun hk => ne_of_irrefl (Trans.trans (r := (· < ·)) (s := (· < ·)) hlt hk) rfl
    simp only [Keyed.insert, if_neg hnlt, if_neg (ne_of_irrefl hlt).symm]
    rw [ih fun d hd => h d (List.mem_cons_of_mem _ hd), List.cons_append]

theorem foldl_insert_of_ordered {m entries : List (κ × α)} (h : Ordered (m ++ entries)) :
    entries.foldl (fun m e => Keyed.insert m e.1 e.2) m = m ++ entries := by
  induction entries generalizing m with
  | nil => exact (List.append_nil m).symm
  | cons e es ih =>
    have hlast : ∀ d ∈ m, d.1 < e.1 := fun d hd =>
      (List.pairwise_append.mp h).2.2 d hd e List.mem_cons_self
    rw [List.foldl_cons, insert_of_forall_lt e.2 hlast, ih (by rwa [List.append_assoc]),
      List.append_assoc, List.singleton_append]

/-- A map that is in order already is made of its own entries. -/
theorem ofList_of_ordered {m : List (κ × α)} (h : Ordered m) : ofList m = m :=
  foldl_insert_of_ordered h

end Strict

end LiveQuery.Keyed
