import Mathlib.Data.List.Nodup

/-!
# Entries that replace those of the same key

`put` adds an entry to a list in the place of those with its key, so that of a list of entries the
last one of each key is left (`latest`).
-/

namespace Latest

open List

variable {α κ : Type} [DecidableEq κ] (key : α → κ)

def put (l : List α) (a : α) : List α := l.filter (fun b => key b ≠ key a) ++ [a]

def latest (l : List α) : List α := l.foldl (put key) []

def isFree (l : List α) (a : α) : Bool := l.all fun b => key a ≠ key b

variable {key}

theorem foldl_put (l s : List α) :
    l.foldl (put key) s = s.filter (isFree key l) ++ latest key l := by
  induction l generalizing s with
  | nil =>
    have hs : s.filter (isFree key []) = s := filter_eq_self.2 fun _ _ => rfl
    rw [hs]
    exact (append_nil s).symm
  | cons a l ih =>
    have hs : isFree key (a :: l) = fun b => decide (key b ≠ key a) && isFree key l b := rfl
    rw [latest, foldl_cons, foldl_cons, ih, ih (put key [] a), put, put,
      filter_append, filter_filter, hs]
    simp only [Bool.and_comm, filter_nil, nil_append, append_assoc]

theorem latest_cons (a : α) (l : List α) :
    latest key (a :: l) = [a].filter (isFree key l) ++ latest key l := by
  rw [latest, foldl_cons, foldl_put]
  rfl

theorem latest_append (l l' : List α) :
    latest key (l ++ l') = (latest key l).filter (isFree key l') ++ latest key l' := by
  rw [latest, foldl_append, foldl_put]
  rfl

theorem latest_sublist (l : List α) : (latest key l).Sublist l := by
  induction l with
  | nil => exact List.Sublist.refl []
  | cons a l ih =>
    rw [latest_cons, ← singleton_append]
    exact (filter_sublist).append ih

theorem not_mem_of_isFree {l : List α} {a : α} (h : isFree key l a = true) : key a ∉ l.map key := by
  intro hmem
  obtain ⟨b, hb, hkey⟩ := mem_map.1 hmem
  simpa [hkey] using all_eq_true.1 h b hb

theorem isFree_iff {l : List α} {a : α} : isFree key l a = true ↔ key a ∉ l.map key := by
  refine ⟨not_mem_of_isFree, fun h => all_eq_true.2 fun b hb => ?_⟩
  rw [decide_eq_true_eq]
  exact fun hkey => h (mem_map.2 ⟨b, hb, hkey.symm⟩)

theorem nodup_latest (l : List α) : ((latest key l).map key).Nodup := by
  induction l with
  | nil => exact nodup_nil
  | cons a l ih =>
    rw [latest_cons]
    by_cases hfree : isFree key l a = true
    · rw [filter_cons_of_pos hfree, filter_nil, singleton_append, map_cons,
        nodup_cons]
      exact ⟨fun hmem => not_mem_of_isFree hfree
        (((latest_sublist l).map key).subset hmem), ih⟩
    · rw [filter_cons_of_neg hfree, filter_nil, nil_append]
      exact ih

theorem latest_of_nodup {l : List α} (h : (l.map key).Nodup) : latest key l = l := by
  induction l with
  | nil => rfl
  | cons a l ih =>
    obtain ⟨hmem, htail⟩ := nodup_cons.1 h
    rw [latest_cons, ih htail, filter_cons_of_pos (isFree_iff.2 hmem)]
    rfl

theorem filter_latest (p : κ → Bool) (l : List α) :
    (latest key l).filter (p ∘ key) = latest key (l.filter (p ∘ key)) := by
  induction l with
  | nil => rfl
  | cons a l ih =>
    have hfree : p (key a) = true → isFree key (l.filter (p ∘ key)) a = isFree key l a := by
      intro hp
      rw [Bool.eq_iff_iff, isFree_iff, isFree_iff, not_iff_not]
      simp only [mem_map, mem_filter, Function.comp_apply]
      constructor
      · rintro ⟨b, ⟨hb, -⟩, hkey⟩
        exact ⟨b, hb, hkey⟩
      · rintro ⟨b, hb, hkey⟩
        exact ⟨b, ⟨hb, hkey ▸ hp⟩, hkey⟩
    rw [latest_cons, filter_append, ih]
    by_cases hp : p (key a) = true
    · have hhead : (a :: l).filter (p ∘ key) = a :: l.filter (p ∘ key) :=
        filter_cons_of_pos hp
      rw [hhead, latest_cons, filter_filter]
      congr 1
      refine filter_congr fun b hb => ?_
      rw [mem_singleton.1 hb, hfree hp, Function.comp_apply, hp, Bool.true_and]
    · have hhead : (a :: l).filter (p ∘ key) = l.filter (p ∘ key) :=
        filter_cons_of_neg hp
      rw [hhead, filter_filter, filter_eq_nil_iff.2, nil_append]
      intro b hb
      rw [mem_singleton.1 hb]
      simp [hp]

/-- Entries that are to replace others of the same keys are those others only if no key occurs
twice. -/
theorem latest_eq_iff {l l' : List α} (hkeys : l'.map key = l.map key) :
    latest key l' = l ↔ l' = l ∧ (l.map key).Nodup := by
  constructor
  · intro h
    have hlength : (latest key l').length = l'.length := by
      have hmap := congrArg List.length hkeys
      rw [length_map, length_map] at hmap
      rw [h, hmap]
    have hself : latest key l' = l' := (latest_sublist l').eq_of_length hlength
    exact ⟨hself.symm.trans h, h ▸ nodup_latest l'⟩
  · rintro ⟨rfl, hnodup⟩
    exact latest_of_nodup hnodup

end Latest
