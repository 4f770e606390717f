import Mathlib.Data.List.Basic

/-!
# Computations that ask and tell their environment

A `Dialogue Q A O α` computes an `α`.  On the way it asks questions, with an answer of the type `A
q` to `q : Q`, and it tells things of the type `O`.  What a program does not decide
itself is a question, and what it leaves outside itself is told, so the program stays a function.

`Every P` is about all answers of the environment, `Can P` about some, and `Safe G R P` about those
that `G` allows, with what is told on the way.  `Runs W d t r` says that `t` is the transcript of a
run of `d`: it is complete, with the value `r`, or cut where something with `W` is told.
-/

/-- A computation of an `α` that asks questions `q : Q` with answers in `A q` and tells `O`s. -/
inductive Dialogue (Q : Type) (A : Q → Type) (O : Type) (α : Type)
  | done (a : α)
  | ask (q : Q) (next : A q → Dialogue Q A O α)
  | tell (o : O) (next : Dialogue Q A O α)

namespace Dialogue

open Option

variable {Q : Type} {A : Q → Type} {O : Type} {α β : Type} {P R : α → Prop} {d : Dialogue Q A O α}

protected def bind : Dialogue Q A O α → (α → Dialogue Q A O β) → Dialogue Q A O β
  | done a, f => f a
  | ask q next, f => ask q fun answer => (next answer).bind f
  | tell o next, f => tell o (next.bind f)

instance : Monad (Dialogue Q A O) where
  pure := done
  bind := Dialogue.bind

def query (q : Q) : Dialogue Q A O (A q) := ask q done

def report (o : O) : Dialogue Q A O Unit := tell o (done ())

def relay (f : O → O) : Dialogue Q A O α → Dialogue Q A O α
  | done a => done a
  | ask q next => ask q fun answer => (next answer).relay f
  | tell o next => tell (f o) (next.relay f)

/-- The value under an environment that answers each question always in the same way; `none` if it
has no answer to a question. -/
def answered (answer : (q : Q) → Option (A q)) : Dialogue Q A O α → Option α
  | done a => some a
  | ask q next => (answer q).bind fun a => (next a).answered answer
  | tell _ next => next.answered answer

/-! ## All answers and some answers -/

/-- Whatever the answers are, the value has the property. -/
def Every (P : α → Prop) : Dialogue Q A O α → Prop
  | done a => P a
  | ask _ next => ∀ answer, (next answer).Every P
  | tell _ next => next.Every P

/-- Some answers lead to a value with the property. -/
def Can (P : α → Prop) : Dialogue Q A O α → Prop
  | done a => P a
  | ask _ next => ∃ answer, (next answer).Can P
  | tell _ next => next.Can P

variable {a : α} {f : α → Dialogue Q A O β}

@[simp] theorem every_pure : (pure a : Dialogue Q A O α).Every P ↔ P a := Iff.rfl

@[simp] theorem can_pure : (pure a : Dialogue Q A O α).Can P ↔ P a := Iff.rfl

@[simp] theorem every_bind {P : β → Prop} : (d >>= f).Every P ↔ d.Every fun a => (f a).Every P := by
  induction d with
  | done a => exact Iff.rfl
  | ask q next ih => exact forall_congr' ih
  | tell o next ih => exact ih

@[simp] theorem can_bind {P : β → Prop} : (d >>= f).Can P ↔ d.Can fun a => (f a).Can P := by
  induction d with
  | done a => exact Iff.rfl
  | ask q next ih => exact exists_congr ih
  | tell o next ih => exact ih

@[simp] theorem every_relay {f : O → O} : (d.relay f).Every P ↔ d.Every P := by
  induction d with
  | done a => exact Iff.rfl
  | ask q next ih => exact forall_congr' ih
  | tell o next ih => exact ih

@[simp] theorem can_relay {f : O → O} : (d.relay f).Can P ↔ d.Can P := by
  induction d with
  | done a => exact Iff.rfl
  | ask q next ih => exact exists_congr ih
  | tell o next ih => exact ih

theorem Every.mono (h : d.Every P) (himp : ∀ a, P a → R a) : d.Every R := by
  induction d with
  | done a => exact himp a h
  | ask q next ih => exact fun answer => ih answer (h answer)
  | tell o next ih => exact ih h

theorem Can.mono (h : d.Can P) (himp : ∀ a, P a → R a) : d.Can R := by
  induction d with
  | done a => exact himp a h
  | ask q next ih =>
    obtain ⟨answer, h⟩ := h
    exact ⟨answer, ih answer h⟩
  | tell o next ih => exact ih h

theorem every_of_forall (h : ∀ a, P a) : d.Every P := by
  induction d with
  | done a => exact h a
  | ask _ _ ih | tell _ _ ih => exact ih

theorem Every.can_and (h : d.Every P) (hR : d.Can R) : d.Can fun a => P a ∧ R a := by
  induction d with
  | done a => exact ⟨h, hR⟩
  | ask q next ih =>
    obtain ⟨answer, hR⟩ := hR
    exact ⟨answer, ih answer (h answer) hR⟩
  | tell o next ih => exact ih h hR

theorem Can.exists_of_every (h : d.Can P) (hR : d.Every R) : ∃ a, P a ∧ R a := by
  induction d with
  | done a => exact ⟨a, h, hR⟩
  | ask q next ih =>
    obtain ⟨answer, h⟩ := h
    exact ih answer h (hR answer)
  | tell o next ih => exact ih h hR

theorem every_can (d : Dialogue Q A O α) : d.Every fun a => d.Can (· = a) := by
  induction d with
  | done a => exact rfl
  | ask q next ih => exact fun answer => (ih answer).mono fun a h => ⟨answer, h⟩
  | tell o next ih => exact ih

theorem can_of_answered (answer : (q : Q) → Option (A q)) (h : d.answered answer = some a)
    (hP : P a) : d.Can P := by
  induction d with
  | done b => exact some.inj h ▸ hP
  | ask q next ih =>
    obtain ⟨b, -, hb⟩ := bind_eq_some_iff.1 h
    exact ⟨b, ih b hb⟩
  | tell o next ih => exact ih h

/-! ## Allowed answers, and what is told -/

/-- As long as the answers are allowed by `G`, everything told has the property `R`, and the value
has the property `P`. -/
def Safe (G : (q : Q) → A q → Prop) (R : O → Prop) (P : α → Prop) : Dialogue Q A O α → Prop
  | done a => P a
  | ask q next => ∀ answer, G q answer → (next answer).Safe G R P
  | tell o next => R o ∧ next.Safe G R P

section Safe

variable {G : (q : Q) → A q → Prop} {S S' : O → Prop}

@[simp] theorem safe_bind {P : β → Prop} :
    (d >>= f).Safe G S P ↔ d.Safe G S fun a => (f a).Safe G S P := by
  induction d with
  | done a => exact Iff.rfl
  | ask q next ih => exact forall_congr' fun answer => imp_congr_right fun _ => ih answer
  | tell o next ih => exact and_congr_right fun _ => ih

@[simp] theorem safe_relay {f : O → O} :
    (d.relay f).Safe G S P ↔ d.Safe G (fun o => S (f o)) P := by
  induction d with
  | done a => exact Iff.rfl
  | ask q next ih => exact forall_congr' fun answer => imp_congr_right fun _ => ih answer
  | tell o next ih => exact and_congr_right fun _ => ih

theorem Safe.mono (h : d.Safe G S P) (hS : ∀ o, S o → S' o) (hP : ∀ a, P a → R a) :
    d.Safe G S' R := by
  induction d with
  | done a => exact hP a h
  | ask q next ih => exact fun answer hG => ih answer (h answer hG)
  | tell o next ih => exact ⟨hS o h.1, ih h.2⟩

end Safe

/-! ## Transcripts -/

inductive Entry (Q : Type) (A : Q → Type) (O : Type)
  | asked (q : Q) (answer : A q)
  | told (o : O)
  /-- The run was cut where this was told. -/
  | cut (o : O)

def Entry.relay (f : O → O) : Entry Q A O → Entry Q A O
  | asked q answer => asked q answer
  | told o => told (f o)
  | cut o => cut (f o)

/-- The runs of a computation, which may be cut where something with the property `W` is told. -/
inductive Runs (W : O → Prop) : Dialogue Q A O α → List (Entry Q A O) → Option α → Prop
  | done (a : α) : Runs W (done a) [] (some a)
  | ask {q : Q} {next : A q → Dialogue Q A O α} {t : List (Entry Q A O)} {r : Option α}
      (answer : A q) (h : Runs W (next answer) t r) : Runs W (ask q next) (.asked q answer :: t) r
  | tell {next : Dialogue Q A O α} {t : List (Entry Q A O)} {r : Option α} (o : O)
      (h : Runs W next t r) : Runs W (tell o next) (.told o :: t) r
  | cut {o : O} (h : W o) (next : Dialogue Q A O α) : Runs W (tell o next) [.cut o] none

section Runs

variable {W : O → Prop} {t : List (Entry Q A O)} {r : Option α}

/-- What holds of an allowed run: everything told in it has the property, and so has its value. -/
theorem Safe.of_runs {G : (q : Q) → A q → Prop} {S : O → Prop} (h : d.Safe G S P)
    (hruns : Runs W d t r) (hG : ∀ q a, .asked q a ∈ t → G q a) :
    (∀ o, .told o ∈ t ∨ .cut o ∈ t → S o) ∧ ∀ a ∈ r, P a := by
  induction hruns with
  | done a => exact ⟨by simp, by rintro b ⟨⟩; exact h⟩
  | @ask q next t r answer _ ih =>
    have hnext := ih (h answer (hG q answer (by simp))) fun q a ha => hG q a (by simp [ha])
    exact ⟨fun o ho => hnext.1 o (by simpa using ho), hnext.2⟩
  | @tell next t r o _ ih =>
    have hnext := ih h.2 fun q a ha => hG q a (by simp [ha])
    refine ⟨fun o' ho => ?_, hnext.2⟩
    rcases ho with ho | ho
    · rcases List.mem_cons.1 ho with ho | ho
      · cases ho
        exact h.1
      · exact hnext.1 o' (.inl ho)
    · exact hnext.1 o' (.inr (by simpa using ho))
  | @cut o hW next =>
    refine ⟨fun o' ho => ?_, by simp⟩
    have : o' = o := by simpa using ho
    exact this ▸ h.1

/-! ## What holds of every run -/

/-- Every run has the property: a statement about its transcript and its value. -/
def Always (W : O → Prop) : Dialogue Q A O α → (List (Entry Q A O) → Option α → Prop) → Prop
  | done a, P => P [] (some a)
  | ask q next, P => ∀ answer, (next answer).Always W fun t r => P (.asked q answer :: t) r
  | tell o next, P => (W o → P [.cut o] none) ∧ next.Always W fun t r => P (.told o :: t) r

theorem always_iff {P : List (Entry Q A O) → Option α → Prop} :
    d.Always W P ↔ ∀ t r, Runs W d t r → P t r := by
  induction d generalizing P with
  | done a =>
    constructor
    · intro h t r hruns
      cases hruns
      exact h
    · exact fun h => h [] (some a) (.done a)
  | ask q next ih =>
    constructor
    · intro h t r hruns
      cases hruns with
      | ask answer hruns => exact (ih answer).1 (h answer) _ _ hruns
    · exact fun h answer => (ih answer).2 fun t r hruns => h _ _ (.ask answer hruns)
  | tell o next ih =>
    constructor
    · intro h t r hruns
      cases hruns with
      | tell _ hruns => exact ih.1 h.2 _ _ hruns
      | cut hW => exact h.1 hW
    · intro h
      exact ⟨fun hW => h _ _ (.cut hW next), ih.2 fun t r hruns => h _ _ (.tell o hruns)⟩

theorem Always.mono {P P' : List (Entry Q A O) → Option α → Prop} (h : d.Always W P)
    (himp : ∀ t r, P t r → P' t r) : d.Always W P' :=
  always_iff.2 fun t r hruns => himp t r (always_iff.1 h t r hruns)

/-- A sequence: what holds where its first part is cut, and of the first part with what follows. -/
theorem always_bind {P : List (Entry Q A O) → Option β → Prop} :
    (d >>= f).Always W P ↔ d.Always W fun t r =>
      match r with
      | some a => (f a).Always W fun u s => P (t ++ u) s
      | none => P t none := by
  induction d generalizing P with
  | done a => exact Iff.rfl
  | ask q next ih => exact forall_congr' fun answer => ih answer
  | tell o next ih => exact and_congr_right fun _ => ih

theorem always_relay {f : O → O} {P : List (Entry Q A O) → Option α → Prop} :
    (d.relay f).Always W P ↔ d.Always (fun o => W (f o)) fun t r => P (t.map (.relay f)) r := by
  induction d generalizing P with
  | done a => exact Iff.rfl
  | ask q next ih => exact forall_congr' fun answer => ih answer
  | tell o next ih => exact and_congr_right fun _ => ih

/-- A property of transcripts that goes over to their concatenation. -/
structure Cumulative (C : List (Entry Q A O) → Prop) : Prop where
  nil : C []
  append {t u : List (Entry Q A O)} : C t → C u → C (t ++ u)

theorem Cumulative.bind {C : List (Entry Q A O) → Prop} (hC : Cumulative C)
    (hd : d.Always W fun t _ => C t) (hf : ∀ a, (f a).Always W fun t _ => C t) :
    (d >>= f).Always W fun t _ => C t := by
  refine always_bind.2 (hd.mono fun t r ht => ?_)
  cases r with
  | some a => exact (hf a).mono fun u _ hu => hC.append ht hu
  | none => exact ht

/-! ## Trials -/

/-- The run under an environment that answers each question always in the same way and cuts the run
at the first thing told with the given property. -/
def trial (answer : (q : Q) → Option (A q)) (cuts : O → Bool) :
    Dialogue Q A O α → Option (List (Entry Q A O) × Option α)
  | done a => some ([], some a)
  | ask q next => (answer q).bind fun a =>
      ((next a).trial answer cuts).map fun x => (.asked q a :: x.1, x.2)
  | tell o next =>
    if cuts o then some ([.cut o], none)
    else (next.trial answer cuts).map fun x => (.told o :: x.1, x.2)

theorem runs_of_trial {answer : (q : Q) → Option (A q)} {cuts : O → Bool}
    (hcuts : ∀ o, cuts o = true → W o) (h : d.trial answer cuts = some (t, r)) : Runs W d t r := by
  induction d generalizing t with
  | done a =>
    cases h
    exact .done a
  | ask q next ih =>
    obtain ⟨a, -, ha⟩ := bind_eq_some_iff.1 h
    obtain ⟨x, hx, h⟩ := map_eq_some_iff.1 ha
    cases h
    exact .ask a (ih a hx)
  | tell o next ih =>
    unfold trial at h
    split at h
    · rename_i ho
      cases h
      exact .cut (hcuts o ho) next
    · obtain ⟨x, hx, h⟩ := map_eq_some_iff.1 h
      cases h
      exact .tell o (ih hx)

theorem answer_of_trial {answer : (q : Q) → Option (A q)} {cuts : O → Bool}
    (h : d.trial answer cuts = some (t, r)) {q : Q} {a : A q} (hmem : .asked q a ∈ t) :
    answer q = some a := by
  induction d generalizing t with
  | done b =>
    cases h
    simp at hmem
  | ask q' next ih =>
    obtain ⟨b, hb, h⟩ := bind_eq_some_iff.1 h
    obtain ⟨x, hx, h⟩ := map_eq_some_iff.1 h
    cases h
    rcases List.mem_cons.1 hmem with h | hmem
    · cases h
      exact hb
    · exact ih b hx hmem
  | tell o next ih =>
    unfold trial at h
    split at h
    · cases h
      simp at hmem
    · obtain ⟨x, hx, h⟩ := map_eq_some_iff.1 h
      cases h
      exact ih hx (by simpa using hmem)

/-- A run with a property that a trial shows; its answers are those of the environment. -/
theorem exists_runs_of_trial (answer : (q : Q) → Option (A q)) (cuts : O → Bool)
    (hcuts : ∀ o, cuts o = true → W o) (p : List (Entry Q A O) → Option α → Bool)
    (h : (d.trial answer cuts).any (fun x => p x.1 x.2) = true) :
    ∃ t r, Runs W d t r ∧ (∀ q a, .asked q a ∈ t → answer q = some a) ∧ p t r = true := by
  obtain ⟨x, hx, hp⟩ := (any_eq_true _ _).1 h
  exact ⟨x.1, x.2, runs_of_trial hcuts hx, fun q a => answer_of_trial hx, hp⟩

end Runs

end Dialogue
