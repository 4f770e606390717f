import Loadr.Lib.Machine
import Mathlib.Data.List.Basic

/-!
# Interleaved tasks

Each task runs a program, a list of operations that each take effect in one step: the operation
reads and writes the shared state, puts further operations in front of the rest of its program, may
spawn a task, and logs events, newest first.  Steps of different tasks interleave freely.
-/

namespace Tasks

variable {σ τ ω ε χ : Type*}

structure Outcome (σ τ ω ε : Type*) where
  shared : σ
  /-- What the task does next, before the rest of its program. -/
  ops : List ω := []
  spawned : List (τ × List ω) := []
  events : List ε := []

/-- A shared state, the remaining program of every task, and the events so far, newest first. -/
structure State (σ τ ω ε : Type*) where
  shared : σ
  tasks : τ → List ω
  trace : List ε

/-- The programs after `spawned` have been started; a new task replaces an ended one of its name. -/
def spawn [DecidableEq τ] (tasks : τ → List ω) : List (τ × List ω) → τ → List ω
  | [] => tasks
  | p :: spawned => spawn (Function.update tasks p.1 p.2) spawned

/-- Put an outcome of the first operation of `t` in place; `rest` is the rest of its program. -/
def State.commit [DecidableEq τ] (s : State σ τ ω ε) (t : τ) (rest : List ω)
    (o : Outcome σ τ ω ε) : State σ τ ω ε where
  shared := o.shared
  tasks := spawn (Function.update s.tasks t (o.ops ++ rest)) o.spawned
  trace := o.events ++ s.trace

def State.step [DecidableEq τ] (exec : χ → σ → ω → Option (Outcome σ τ ω ε)) (s : State σ τ ω ε)
    (t : τ) (c : χ) : Option (State σ τ ω ε) :=
  match s.tasks t with
  | [] => none
  | op :: rest => (exec c s.shared op).map fun o => s.commit t rest o

theorem State.step_eq_some [DecidableEq τ] {exec : χ → σ → ω → Option (Outcome σ τ ω ε)}
    {s s' : State σ τ ω ε} {t : τ} {c : χ} :
    s.step exec t c = some s' ↔
      ∃ op rest o, s.tasks t = op :: rest ∧ exec c s.shared op = some o ∧
        s.commit t rest o = s' := by
  unfold State.step
  cases h : s.tasks t with
  | nil => simp
  | cons op rest => simp [Option.map_eq_some_iff]

/-! ## Histories -/

/-- Every event of a log stands in the relation `P` to the events before it. -/
def Explained (P : ε → List ε → Prop) : List ε → Prop
  | [] => True
  | e :: l => P e l ∧ Explained P l

variable {l : List ε} {p q : ε → Bool}

theorem Explained.of_eq_append {P : ε → List ε → Prop} {l₁ l₂ : List ε} {e : ε} (h : Explained P l)
    (hl : l = l₁ ++ e :: l₂) : P e l₂ := by
  subst hl
  induction l₁ with
  | nil => exact h.1
  | cons e' l₁ ih => exact ih h.2

/-- Logging events keeps a log explained if each of them is explained by what was logged before
it. -/
theorem Explained.append {P : ε → List ε → Prop} {new : List ε} (h : Explained P l)
    (hnew : ∀ l₁ e l₂, new = l₁ ++ e :: l₂ → P e (l₂ ++ l)) : Explained P (new ++ l) := by
  induction new with
  | nil => exact h
  | cons e new ih =>
    exact ⟨hnew [] e new rfl, ih fun l₁ e' l₂ hl => hnew (e :: l₁) e' l₂ (by rw [hl]; rfl)⟩

/-- The log, newest event first, has an event with `p` after one with `q`. -/
def follows (p q : ε → Bool) : List ε → Bool
  | [] => false
  | e :: l => (p e && l.any q) || follows p q l

theorem follows_append (h : follows p q l = true) (new : List ε) :
    follows p q (new ++ l) = true := by
  induction new with
  | nil => exact h
  | cons e new ih =>
    show (p e && (new ++ l).any q || follows p q (new ++ l)) = true
    rw [ih, Bool.or_true]

theorem follows_append_cases {new : List ε} (h : follows p q (new ++ l) = true) :
    follows p q l = true ∨ ∃ e ∈ new, p e = true ∧ (new ++ l).any q = true := by
  induction new with
  | nil => exact .inl h
  | cons e new ih =>
    have h' : (p e && (new ++ l).any q || follows p q (new ++ l)) = true := h
    rw [Bool.or_eq_true, Bool.and_eq_true] at h'
    have hany : (new ++ l).any q = true → (e :: new ++ l).any q = true := by
      intro hq
      rw [List.cons_append, List.any_cons, hq, Bool.or_true]
    rcases h' with ⟨hp, hq⟩ | h'
    · exact .inr ⟨e, List.mem_cons_self, hp, hany hq⟩
    · rcases ih h' with h' | ⟨e', he', hp, hq⟩
      · exact .inl h'
      · exact .inr ⟨e', List.mem_cons_of_mem _ he', hp, hany hq⟩

theorem follows_of_cons {e : ε} (hp : p e = true) (hq : l.any q = true) :
    follows p q (e :: l) = true := by
  show (p e && l.any q || follows p q l) = true
  rw [hp, hq]
  rfl

theorem any_of_follows (h : follows p q l = true) : l.any q = true := by
  induction l with
  | nil => cases h
  | cons e l ih =>
    have h' : (p e && l.any q || follows p q l) = true := h
    rw [Bool.or_eq_true, Bool.and_eq_true] at h'
    have hq : l.any q = true := h'.elim (fun h => h.2) ih
    rw [List.any_cons, hq, Bool.or_true]

end Tasks
