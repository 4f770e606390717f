import Mathlib.Data.List.Basic

/-!
# A cache that is emptied between epochs

A `Cache` keeps one value.  Whoever looks it up gets the value that is kept, or a new one; the log
tells who looked it up and the how many-th value that was.  If the cache is emptied before each of
several epochs, each epoch with lookups gets a new value (`mem_log_epochs`).
-/

structure Cache (F : Type) where
  cached : Bool := false
  taken : ℕ := 0
  log : List (F × ℕ) := []

namespace Cache

open List

variable {F : Type}

/-- The number of the value that a lookup gets. -/
def number (c : Cache F) : ℕ :=
  if c.cached then c.taken else c.taken + 1

def look (c : Cache F) (f : F) : Cache F := ⟨true, c.number, c.log ++ [(f, c.number)]⟩

def clear (c : Cache F) : Cache F := { c with cached := false }

def looks (c : Cache F) (fs : List F) : Cache F := fs.foldl look c

def epochs (c : Cache F) (l : List (List F)) : Cache F := l.foldl (fun c fs => c.clear.looks fs) c

/-- How many of the epochs up to the `i`-th one have lookups. -/
def fetches (l : List (List F)) (i : ℕ) : ℕ := (l.take (i + 1)).countP (!·.isEmpty)

theorem looks_append (c : Cache F) (fs gs : List F) : c.looks (fs ++ gs) = (c.looks fs).looks gs :=
  foldl_append

@[simp]
theorem number_look (c : Cache F) (f : F) : (c.look f).number = c.number := rfl

variable {fs : List F} {l : List (List F)} {i : ℕ}

theorem looks_of_ne_nil (c : Cache F) (h : fs ≠ []) :
    c.looks fs = ⟨true, c.number, c.log ++ fs.map (·, c.number)⟩ := by
  induction fs generalizing c with
  | nil => cases h rfl
  | cons f fs ih =>
    rcases eq_or_ne fs [] with rfl | hne
    · rfl
    · change (c.look f).looks fs = _
      rw [ih (c.look f) hne, number_look, look, append_assoc, singleton_append, map_cons]

theorem log_looks (c : Cache F) (fs : List F) :
    (c.looks fs).log = c.log ++ fs.map (·, c.number) := by
  rcases eq_or_ne fs [] with rfl | hne
  · exact (append_nil _).symm
  · rw [looks_of_ne_nil c hne]

theorem taken_clear_looks (c : Cache F) (fs : List F) :
    (c.clear.looks fs).taken = c.taken + if fs.isEmpty then 0 else 1 := by
  cases fs with
  | nil => rfl
  | cons f fs => rw [looks_of_ne_nil _ (cons_ne_nil f fs)]; rfl

/-! ## Counting epochs -/

theorem fetches_cons_zero (fs : List F) (l : List (List F)) :
    fetches (fs :: l) 0 = if fs.isEmpty then 0 else 1 := by
  cases fs <;> simp [fetches]

theorem fetches_cons_succ (fs : List F) (l : List (List F)) (i : ℕ) :
    fetches (fs :: l) (i + 1) = (if fs.isEmpty then 0 else 1) + fetches l i := by
  rw [fetches, take_succ_cons, countP_cons, Nat.add_comm, fetches]
  cases fs <;> rfl

theorem fetches_mono {j : ℕ} (h : i ≤ j) : fetches l i ≤ fetches l j := by
  have hsub : (l.take (i + 1)).Sublist (l.take (j + 1)) := take_sublist_take_left (by omega)
  exact hsub.countP_le

theorem fetches_succ (h : l[i + 1]? = some fs) (hne : fs ≠ []) :
    fetches l (i + 1) = fetches l i + 1 := by
  have hempty : fs.isEmpty = false := by simpa using hne
  rw [fetches, take_add_one, h, countP_append, fetches]
  simp [hempty]

theorem fetches_lt {j : ℕ} (hij : i < j) (h : l[j]? = some fs) (hne : fs ≠ []) :
    fetches l i < fetches l j := by
  cases j with
  | zero => omega
  | succ j =>
    have hle : fetches l i ≤ fetches l j := fetches_mono (by omega)
    have hsucc := fetches_succ h hne
    omega

theorem fetches_of_all {k : ℕ} (h : ∀ i ≤ k, ∃ fs, l[i]? = some fs ∧ fs ≠ []) :
    fetches l k = k + 1 := by
  induction k with
  | zero =>
    obtain ⟨fs, hfs, hne⟩ := h 0 (Nat.le_refl _)
    cases l with
    | nil => cases hfs
    | cons gs l =>
      obtain rfl : gs = fs := Option.some.inj hfs
      have hempty : gs.isEmpty = false := by simpa using hne
      rw [fetches_cons_zero, hempty]
      rfl
  | succ k ih =>
    obtain ⟨fs, hfs, hne⟩ := h (k + 1) (Nat.le_refl _)
    rw [fetches_succ hfs hne, ih fun i hi => h i (by omega)]

theorem mem_log_epochs {c : Cache F} {f : F} {m : ℕ} :
    (f, m) ∈ (c.epochs l).log ↔ (f, m) ∈ c.log ∨
      ∃ i fs, l[i]? = some fs ∧ f ∈ fs ∧ m = c.taken + fetches l i := by
  induction l generalizing c with
  | nil => simp [epochs]
  | cons gs l ih =>
    have hhead : (f, m) ∈ (c.clear.looks gs).log ↔
        (f, m) ∈ c.log ∨ f ∈ gs ∧ m = c.taken + fetches (gs :: l) 0 := by
      rw [log_looks, fetches_cons_zero]
      simp only [mem_append, mem_map, Prod.mk.injEq, clear, number]
      refine or_congr_right ⟨?_, ?_⟩
      · rintro ⟨g, hg, rfl, rfl⟩
        exact ⟨hg, by cases gs with
          | nil => cases hg
          | cons g gs => rfl⟩
      · rintro ⟨hf, rfl⟩
        exact ⟨f, hf, rfl, by cases gs with
          | nil => cases hf
          | cons g gs => rfl⟩
    change (f, m) ∈ ((c.clear.looks gs).epochs l).log ↔ _
    rw [ih, hhead, or_assoc, taken_clear_looks]
    refine or_congr_right ⟨?_, ?_⟩
    · rintro (⟨hf, hm⟩ | ⟨i, fs, hfs, hf, hm⟩)
      · exact ⟨0, gs, rfl, hf, hm⟩
      · exact ⟨i + 1, fs, hfs, hf, by rw [hm, fetches_cons_succ]; omega⟩
    · rintro ⟨i, fs, hfs, hf, hm⟩
      cases i with
      | zero =>
        obtain rfl : gs = fs := Option.some.inj hfs
        exact .inl ⟨hf, hm⟩
      | succ i => exact .inr ⟨i, fs, hfs, hf, by rw [hm, fetches_cons_succ]; omega⟩

/-! ## Lookups after the last epoch -/

def extendLast (l : List (List F)) (fs : List F) : List (List F) :=
  l.modify (l.length - 1) (· ++ fs)

theorem looks_epochs (c : Cache F) (hne : l ≠ []) (fs : List F) :
    (c.epochs l).looks fs = c.epochs (extendLast l fs) := by
  induction l generalizing c with
  | nil => cases hne rfl
  | cons gs l ih =>
    rcases eq_or_ne l [] with rfl | hl
    · exact (looks_append c.clear gs fs).symm
    · have hlength : l.length - 1 + 1 = l.length :=
        Nat.sub_add_cancel (length_pos_iff.2 hl)
      have hhead : extendLast (gs :: l) fs = gs :: extendLast l fs := by
        rw [extendLast, length_cons, Nat.add_sub_cancel, ← hlength, modify_succ_cons, extendLast]
      rw [hhead]
      exact ih (c.clear.looks gs) hl

theorem getElem?_extendLast (l : List (List F)) (fs : List F) (i : ℕ) :
    (extendLast l fs)[i]? = l[i]?.map fun gs => if i + 1 = l.length then gs ++ fs else gs := by
  rw [extendLast, getElem?_modify]
  cases hi : l[i]? with
  | none => rfl
  | some gs =>
    have hlt : i < l.length := (List.getElem?_eq_some_iff.1 hi).1
    have hiff : l.length - 1 = i ↔ i + 1 = l.length := by omega
    simp only [hiff, Option.map_eq_map, Option.map_some]

end Cache
