import Loadr.Lib.Files

/-!
# Regions of a file system

Commands that write only below a root, while links stand only at known locations of it.  As long as
no command goes through one of these and the files below the root are no hard links to files
elsewhere, everything outside stays as it is, except that directories on the way to the root are
made.
-/

namespace Loadr.Files

open Command

/-- Nothing changes in `S`, except that directories on the way to `root` are made. -/
def Unchanged (root : Location) (S : Location → Prop) (fs fs' : Fs) : Prop :=
  ∀ l, S l →
    (fs'.node l = fs.node l ∨ l <+: root ∧ fs.node l = none ∧ fs'.node l = some .dir) ∧
    ∀ i, fs.node l = some (.file i) → fs'.contents i = fs.contents i

section Unchanged

variable {root : Location} {S : Location → Prop} {fs fs' fs'' : Fs}

theorem Unchanged.refl : Unchanged root S fs fs := fun _ _ => ⟨Or.inl rfl, fun _ _ => rfl⟩

section

variable (h : Unchanged root S fs fs')
include h

theorem Unchanged.file {l : Location} {i : ℕ} (hl : S l)
    (hn : fs.node l = some (.file i)) : fs'.node l = some (.file i) := by
  obtain ⟨he | ⟨-, hnone, -⟩, -⟩ := h l hl
  · exact he.trans hn
  · simp [hn] at hnone

theorem Unchanged.trans (h' : Unchanged root S fs' fs'') : Unchanged root S fs fs'' := by
  intro l hl
  refine ⟨?_, fun i hi => ((h' l hl).2 i (h.file hl hi)).trans ((h l hl).2 i hi)⟩
  obtain ⟨he | ⟨hr, hn, hd⟩, -⟩ := h l hl <;> obtain ⟨he' | ⟨hr', hn', hd'⟩, -⟩ := h' l hl
  · exact Or.inl (he'.trans he)
  · exact Or.inr ⟨hr', he.symm.trans hn', hd'⟩
  · exact Or.inr ⟨hr, hn, he'.trans hd⟩
  · simp [hd] at hn'

theorem Unchanged.mono {S' : Location → Prop}
    (hS : ∀ l, S' l → S l) : Unchanged root S' fs fs' :=
  fun l hl => h l (hS l hl)

theorem Unchanged.of_present {root' : Location}
    (hroot : ∀ l, l <+: root → S l → fs.node l ≠ none) : Unchanged root' S fs fs' :=
  fun l hl => ⟨(h l hl).1.imp_right fun hd => absurd hd.2.1 (hroot l hd.1 hl), (h l hl).2⟩

end

theorem Unchanged.of_node (hnode : ∀ l, S l → fs'.node l = fs.node l)
    (hcontents : fs'.contents = fs.contents) : Unchanged root S fs fs' :=
  fun l hl => ⟨Or.inl (hnode l hl), fun _ _ => by rw [hcontents]⟩

end Unchanged

/-- A root, the locations where links may stand, the locations that have to stay as they are, and
what files below the root may hold. -/
structure Region where
  root : Location
  links : Location → Prop
  outside : Location → Prop
  admits : Location → Bytes → Prop
  not_links : ∀ l, outside l → ¬ links l

namespace Region

variable {R : Region} {fs₀ fs : Fs} {l : Location}

/-- Nothing outside has changed, and no file below the root is one elsewhere. -/
structure Holds (R : Region) (fs₀ fs : Fs) : Prop where
  plain : ∀ l, l <+: R.root ∨ R.root <+: l → ¬ R.links l → ∀ t, fs.node l ≠ some (.symlink t)
  sole : ∀ l, R.root <+: l → ¬ R.links l → ∀ i, fs.node l = some (.file i) →
    ∀ l', ¬ R.links l' → fs.node l' = some (.file i) → l' = l
  bounded : ∀ l i, fs.node l = some (.file i) → i < fs.next
  admitted : ∀ l, R.root <+: l → ¬ R.links l → ∀ i, fs.node l = some (.file i) →
    R.admits l (fs.contents i)
  unchanged : Unchanged R.root R.outside fs₀ fs

/-- The location is below the root and not behind a link. -/
structure Inner (R : Region) (l : Location) : Prop where
  below : R.root <+: l
  inside : ¬ R.outside l
  clear : ∀ l', l' <+: l → ¬ R.links l'

theorem Holds.straight (h : R.Holds fs₀ fs) (hl : l <+: R.root ∨ R.root <+: l)
    (hclear : ∀ l', l' <+: l → ¬ R.links l') : Straight fs l := by
  intro l' hp
  refine h.plain l' ?_ (hclear l' hp)
  rcases hl with hl | hl
  · exact Or.inl (hp.trans hl)
  · exact List.prefix_or_prefix_of_prefix hp hl

theorem Holds.setContents {i : ℕ} {bytes : Bytes} (h : R.Holds fs₀ fs) (hl : R.Inner l)
    (hi : fs.node l = some (.file i)) (hbytes : R.admits l bytes) :
    R.Holds fs₀ (fs.setContents i bytes) where
  plain := h.plain
  sole := h.sole
  bounded := h.bounded
  admitted := by
    intro l' hroot hlinks j hj
    by_cases hji : j = i
    · subst hji
      obtain rfl := h.sole l hl.below (hl.clear l List.prefix_rfl) j hi l' hlinks hj
      simpa [Fs.setContents] using hbytes
    · simpa [Fs.setContents, hji] using h.admitted l' hroot hlinks j hj
  unchanged := by
    refine h.unchanged.trans fun l' hout => ⟨Or.inl rfl, fun j hj => ?_⟩
    have hji : j ≠ i := by
      rintro rfl
      exact hl.inside (h.sole l hl.below (hl.clear l List.prefix_rfl) j hi l' (R.not_links l' hout)
        hj ▸ hout)
    simp [Fs.setContents, hji]

theorem Holds.set {n : Node} (h : R.Holds fs₀ fs)
    (hsame : ¬ R.outside l ∨ l <+: R.root ∧ fs.node l = none ∧ n = .dir)
    (hlink : R.links l ∨ n = .dir) (hfile : ∀ i, n = .file i → i < fs.next) :
    R.Holds fs₀ (fs.set l n) where
  plain := by
    intro l' hl' hlinks t ht
    obtain ⟨rfl, rfl⟩ | ⟨-, ht⟩ := Fs.node_set_cases (by simp) ht
    · exact absurd hlink (by simpa using hlinks)
    · exact h.plain l' hl' hlinks t ht
  sole := by
    intro l₁ hroot hlinks i hi l₂ hlinks₂ hi₂
    obtain ⟨rfl, rfl⟩ | ⟨-, hi⟩ := Fs.node_set_cases (by simp) hi
    · exact absurd hlink (by simpa using hlinks)
    · obtain ⟨rfl, rfl⟩ | ⟨-, hi₂⟩ := Fs.node_set_cases (by simp) hi₂
      · exact absurd hlink (by simpa using hlinks₂)
      · exact h.sole l₁ hroot hlinks i hi l₂ hlinks₂ hi₂
  bounded := by
    intro l' i hi
    obtain ⟨-, hn⟩ | ⟨-, hi⟩ := Fs.node_set_cases (by simp) hi
    · exact hfile i hn.symm
    · exact h.bounded l' i hi
  admitted := by
    intro l' hroot hlinks i hi
    obtain ⟨rfl, rfl⟩ | ⟨-, hi⟩ := Fs.node_set_cases (by simp) hi
    · exact absurd hlink (by simpa using hlinks)
    · exact h.admitted l' hroot hlinks i hi
  unchanged := by
    refine h.unchanged.trans fun l' hout => ⟨?_, fun _ _ => rfl⟩
    by_cases he : l' = l
    · subst he
      obtain hin | ⟨hroot, hnone, rfl⟩ := hsame
      · cases hin hout
      · refine Or.inr ⟨hroot, hnone, Fs.node_set_self ?_⟩
        rintro rfl
        simp [Fs.node] at hnone
    · exact Or.inl (Fs.node_set_of_ne he)

theorem Holds.create {bytes : Bytes} (h : R.Holds fs₀ fs) (hl : R.Inner l)
    (hnone : fs.node l = none) (hbytes : R.admits l bytes) : R.Holds fs₀ (fs.create l bytes) := by
  -- a node of the new state is the new file or an old node
  have hcases : ∀ {l' n}, (fs.create l bytes).node l' = some n →
      n ≠ .dir → l' = l ∧ n = .file fs.next ∨ l' ≠ l ∧ fs.node l' = some n :=
    fun hn hdir => Fs.node_set_cases hdir hn
  have hcontents : ∀ i, i < fs.next → (fs.create l bytes).contents i = fs.contents i := by
    intro i hi
    simp [Fs.create, Fs.set, Fs.setContents, Nat.ne_of_lt hi]
  refine ⟨?_, ?_, ?_, ?_, ?_⟩
  · intro l' hl' hlinks t ht
    obtain ⟨-, ht⟩ | ⟨-, ht⟩ := hcases ht (by simp)
    · cases ht
    · exact h.plain l' hl' hlinks t ht
  · intro l₁ hroot hlinks i hi l₂ hlinks₂ hi₂
    obtain ⟨rfl, hf⟩ | ⟨-, hf⟩ := hcases hi (by simp) <;>
      obtain ⟨rfl, hf₂⟩ | ⟨-, hf₂⟩ := hcases hi₂ (by simp)
    · rfl
    · cases hf
      exact absurd (h.bounded _ _ hf₂) (Nat.lt_irrefl _)
    · cases hf₂
      exact absurd (h.bounded _ _ hf) (Nat.lt_irrefl _)
    · exact h.sole l₁ hroot hlinks i hf l₂ hlinks₂ hf₂
  · intro l' i hi
    show i < fs.next + 1
    obtain ⟨-, hf⟩ | ⟨-, hf⟩ := hcases hi (by simp)
    · cases hf
      exact Nat.lt_succ_self _
    · exact Nat.lt_succ_of_lt (h.bounded l' i hf)
  · intro l' hroot hlinks i hi
    obtain ⟨rfl, hf⟩ | ⟨-, hf⟩ := hcases hi (by simp)
    · cases hf
      simpa [Fs.create, Fs.set, Fs.setContents] using hbytes
    · rw [hcontents i (h.bounded l' i hf)]
      exact h.admitted l' hroot hlinks i hf
  · refine h.unchanged.trans fun l' hout => ⟨Or.inl ?_, fun i hi => hcontents i (h.bounded l' i hi)⟩
    have hne : l' ≠ l := fun he => hl.inside (he ▸ hout)
    exact Fs.node_set_of_ne hne

/-! ## Commands -/

theorem keeps_write {bytes : Bytes} (hl : R.Inner l) (hbytes : R.admits l bytes) :
    Keeps (R.Holds fs₀) (write (Location.path l) bytes) fun _ => True :=
  Files.keeps_write (fun _ h => h.straight (Or.inr hl.below) hl.clear)
    (fun _ _ h hi => h.setContents hl hi hbytes) (fun _ h hnone => h.create hl hnone hbytes)

theorem keeps_createDirAll (hl : R.Inner l)
    (hway : ∀ l', l' <+: l → l' <+: R.root ∨ ¬ R.outside l') :
    Keeps (R.Holds fs₀) (createDirAll (Location.path l)) fun _ => True := by
  refine Files.keeps_createDirAll (fun _ h => h.straight (Or.inr hl.below) hl.clear) ?_
  intro l' hp fs h hnone
  refine h.set ?_ (Or.inr rfl) (by simp)
  rcases hway l' hp with hroot | hin
  · exact Or.inr ⟨hroot, hnone, rfl⟩
  · exact Or.inl hin

theorem keeps_createDir (hne : l ≠ []) (hl : R.Inner l) :
    Keeps (R.Holds fs₀) (createDir (Location.path l)) fun _ => True :=
  Files.keeps_createDir hne (fun _ h => h.straight (Or.inr hl.below) hl.clear)
    fun _ h _ => h.set (Or.inl hl.inside) (Or.inr rfl) (by simp)

end Region

end Loadr.Files
