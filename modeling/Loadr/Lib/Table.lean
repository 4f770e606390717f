import Mathlib.Data.List.AList

/-!
# Tables

Hash maps as association lists with distinct keys, in the order in which they are iterated.  That
order is not specified, so a map may turn into any permutation of itself at any time; what is found
under a key does not depend on it.
-/

abbrev Table (κ α : Type*) := AList fun _ : κ => α

namespace Table

open List Option

variable {κ α β : Type*} [DecidableEq κ] {t t' : Table κ α} {k k' : κ}

def upsert (t : Table κ α) (k : κ) (fresh : α) (f : α → α) : Table κ α :=
  t.insert k (f ((t.lookup k).getD fresh))

def update (t : Table κ α) (k : κ) (f : α → α) : Table κ α :=
  match t.lookup k with
  | some a => t.insert k (f a)
  | none => t

def mapValues (t : Table κ α) (f : κ → α → α) : Table κ α where
  entries := t.entries.map fun p => ⟨p.1, f p.1 p.2⟩
  nodupKeys := by
    have hkeys : (t.entries.map fun p => (⟨p.1, f p.1 p.2⟩ : Σ _ : κ, α)).keys = t.keys := by
      simp [AList.keys, List.keys, Function.comp_def]
    rw [List.NodupKeys, hkeys]
    exact t.keys_nodup

theorem lookup_upsert (t : Table κ α) (k k' : κ) (fresh : α) (f : α → α) :
    (t.upsert k fresh f).lookup k' =
      if k' = k then some (f ((t.lookup k).getD fresh)) else t.lookup k' := by
  unfold upsert
  split_ifs with h
  · subst h
    exact AList.lookup_insert _
  · exact AList.lookup_insert_ne h

theorem lookup_update (t : Table κ α) (k k' : κ) (f : α → α) :
    (t.update k f).lookup k' = if k' = k then (t.lookup k).map f else t.lookup k' := by
  unfold update
  split
  · next a ha =>
    split_ifs with h
    · subst h
      rw [AList.lookup_insert, ha, map_some]
    · exact AList.lookup_insert_ne h
  · next ha =>
    split_ifs with h
    · subst h
      rw [ha, map_none]
    · rfl

theorem mem_entries {p : Σ _ : κ, α} : p ∈ t.entries ↔ t.lookup p.1 = some p.2 :=
  AList.mem_lookup_iff.symm

theorem lookup_mapValues (t : Table κ α) (f : κ → α → α) (k : κ) :
    (t.mapValues f).lookup k = (t.lookup k).map (f k) := by
  refine Option.ext fun b => ?_
  rw [map_eq_some_iff, ← mem_def, AList.mem_lookup_iff]
  simp only [mapValues, List.mem_map, mem_entries, Sigma.exists]
  constructor
  · rintro ⟨k', a, ha, he⟩
    cases he
    exact ⟨a, ha, rfl⟩
  · rintro ⟨a, ha, rfl⟩
    exact ⟨k, a, ha, rfl⟩

/-! ## What entries give -/

section Given

variable {key : β → κ} {g : (Σ _ : κ, α) → Option β}

omit [DecidableEq κ] in
theorem nodup_filterMap (hkey : ∀ p b, g p = some b → key b = p.1) (t : Table κ α) :
    ((t.entries.filterMap g).map key).Nodup := by
  refine pairwise_map.2 (pairwise_filterMap.2 ?_)
  refine (nodupKeys_iff_pairwise.1 t.nodupKeys).imp ?_
  intro p q hne b hb c hc he
  exact hne ((hkey p b hb).symm.trans (he.trans (hkey q c hc)))

theorem find?_filterMap_entries (hkey : ∀ p b, g p = some b → key b = p.1) (k : κ)
    {l : List (Σ _ : κ, α)} (hl : l.NodupKeys) :
    (l.filterMap g).find? (fun b => key b = k) = (l.dlookup k).bind fun a => g ⟨k, a⟩ := by
  induction l with
  | nil => rfl
  | cons p l ih =>
    obtain ⟨k', a⟩ := p
    obtain ⟨hnot, hrest⟩ := nodupKeys_cons.1 hl
    specialize ih hrest
    by_cases hk : k' = k
    · subst hk
      rw [dlookup_cons_eq, bind_some]
      cases hg : g ⟨k', a⟩ with
      | none => rw [filterMap_cons_none hg, ih, dlookup_eq_none.2 hnot, bind_none]
      | some b => rw [filterMap_cons_some hg, find?_cons_of_pos (by simpa using hkey _ b hg)]
    · rw [dlookup_cons_ne l ⟨k', a⟩ (Ne.symm hk)]
      cases hg : g ⟨k', a⟩ with
      | none => rw [filterMap_cons_none hg, ih]
      | some b =>
        have hne : ¬ key b = k := hkey _ b hg ▸ hk
        rw [filterMap_cons_some hg, find?_cons_of_neg (by simpa using hne), ih]

theorem find?_filterMap (hkey : ∀ p b, g p = some b → key b = p.1) (t : Table κ α) (k : κ) :
    (t.entries.filterMap g).find? (fun b => key b = k) = (t.lookup k).bind fun a => g ⟨k, a⟩ :=
  find?_filterMap_entries hkey k t.nodupKeys

end Given

/-! ## Finding by key -/

theorem find?_eq_some_iff {key : β → κ} {bs : List β} {b : β} (h : (bs.map key).Nodup) :
    bs.find? (fun b => key b = k) = some b ↔ b ∈ bs ∧ key b = k := by
  constructor
  · intro hb
    have hkey := find?_some hb
    exact ⟨mem_of_find?_eq_some hb, by simpa using hkey⟩
  · rintro ⟨hb, rfl⟩
    have hsome : (bs.find? fun c => key c = key b).isSome = true := find?_isSome.2 ⟨b, hb, by simp⟩
    obtain ⟨c, hc⟩ := isSome_iff_exists.1 hsome
    have hkey := find?_some hc
    rw [hc, inj_on_of_nodup_map h (mem_of_find?_eq_some hc) hb (by simpa using hkey)]

theorem find?_perm {key : β → κ} {bs bs' : List β} (h : (bs.map key).Nodup) (hp : bs'.Perm bs) :
    bs'.find? (fun b => key b = k) = bs.find? fun b => key b = k := by
  have h' : (bs'.map key).Nodup := (hp.map key).nodup_iff.2 h
  refine Option.ext fun b => ?_
  rw [find?_eq_some_iff h, find?_eq_some_iff h', hp.mem_iff]

/-- The same map, iterated in another order. -/
def Reordered (t t' : Table κ α) : Prop := t.entries.Perm t'.entries

theorem Reordered.lookup (h : Reordered t t') (k : κ) : t.lookup k = t'.lookup k :=
  AList.perm_lookup h

/-! ## Updates in a row -/

def upserts (key : β → κ) (fresh : β → α) (f : β → α → α) (t : Table κ α) (bs : List β) :
    Table κ α :=
  bs.foldl (fun t b => t.upsert (key b) (fresh b) (f b)) t

def updates (key : β → κ) (f : β → α → α) (t : Table κ α) (bs : List β) : Table κ α :=
  bs.foldl (fun t b => t.update (key b) (f b)) t

variable {key : β → κ} {fresh : β → α} {f : β → α → α} {bs : List β}

theorem lookup_foldl {step : Table κ α → β → Table κ α} {g : β → Option α → Option α}
    (hstep : ∀ t b k, (step t b).lookup k = if k = key b then g b (t.lookup (key b)) else t.lookup k)
    (hnodup : (bs.map key).Nodup) (t : Table κ α) (k : κ) :
    (bs.foldl step t).lookup k =
      match bs.find? fun b => key b = k with
      | some b => g b (t.lookup k)
      | none => t.lookup k := by
  induction bs generalizing t with
  | nil => rfl
  | cons b bs ih =>
    rw [map_cons, nodup_cons] at hnodup
    rw [foldl_cons, ih hnodup.2, hstep]
    by_cases hb : key b = k
    · subst hb
      have hrest : bs.find? (fun c => key c = key b) = none :=
        find?_eq_none.2 fun c hc => by
          simpa using fun he : key c = key b => hnodup.1 (he ▸ mem_map_of_mem hc)
      rw [hrest, find?_cons_of_pos (by simp), if_pos rfl]
    · rw [find?_cons_of_neg (by simpa using hb), if_neg (Ne.symm hb)]

theorem lookup_upserts (hnodup : (bs.map key).Nodup) (t : Table κ α) (k : κ) :
    (upserts key fresh f t bs).lookup k =
      match bs.find? fun b => key b = k with
      | some b => some (f b ((t.lookup k).getD (fresh b)))
      | none => t.lookup k :=
  lookup_foldl (g := fun b a => some (f b (a.getD (fresh b))))
    (fun t b k => lookup_upsert t (key b) k _ _) hnodup t k

theorem lookup_updates (hnodup : (bs.map key).Nodup) (t : Table κ α) (k : κ) :
    (updates key f t bs).lookup k =
      match bs.find? fun b => key b = k with
      | some b => (t.lookup k).map (f b)
      | none => t.lookup k :=
  lookup_foldl (g := fun b a => a.map (f b)) (fun t b k => lookup_update t (key b) k _) hnodup t k

theorem map_lookup_updates {γ : Type*} {g : α → γ} (h : ∀ b a, g (f b a) = g a) (t : Table κ α)
    (k : κ) : ((updates key f t bs).lookup k).map g = (t.lookup k).map g := by
  induction bs generalizing t with
  | nil => rfl
  | cons b bs ih =>
    rw [updates, foldl_cons, ← updates, ih, lookup_update]
    split_ifs with hk
    · subst hk
      rw [Option.map_map]
      exact congrArg (fun g => (t.lookup _).map g) (funext (h b))
    · rfl

end Table
