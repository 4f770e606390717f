import Mathlib.Data.List.Perm.Basic
import Mathlib.Data.List.Nodup

/-!
# A fair semaphore

Permits are assigned to the waiting tasks first, in the order in which they have queued up; the rest
is free for the taking.  A task that has been assigned a permit takes it when it is polled.  Closing
makes every later attempt fail: tasks that have been assigned a permit give it back when their wait
is dropped.  `Semaphore.total` is what each operation is accounted by.
-/

structure Semaphore (α : Type) where
  permits : ℕ := 0
  closed : Bool := false
  /-- The queue, first come first. -/
  waiting : List α := []
  /-- Tasks with a permit assigned, not polled since. -/
  assigned : List α := []
deriving DecidableEq, Repr

namespace Semaphore

open List

variable {α : Type} [DecidableEq α]

/-- What an attempt to take a permit finds. -/
inductive Attempt
  | taken
  | empty
  | closed
deriving DecidableEq, Repr

def addPermits (s : Semaphore α) (n : ℕ) : Semaphore α :=
  { s with
    permits := s.permits + (n - s.waiting.length)
    waiting := s.waiting.drop n
    assigned := s.assigned ++ s.waiting.take n }

def tryAcquire (s : Semaphore α) : Attempt × Semaphore α :=
  if s.closed then (.closed, s)
  else if s.permits = 0 then (.empty, s)
  else (.taken, { s with permits := s.permits - 1 })

/-- The first poll of a wait; it queues up where no permit is free. -/
def acquire (s : Semaphore α) (a : α) : Attempt × Semaphore α :=
  match s.tryAcquire with
  | (.empty, s) => (.empty, { s with waiting := s.waiting ++ [a] })
  | r => r

def poll (s : Semaphore α) (a : α) : Attempt × Semaphore α :=
  if s.closed then (.closed, s)
  else if a ∈ s.assigned then (.taken, { s with assigned := s.assigned.erase a })
  else (.empty, s)

def leave (s : Semaphore α) (a : α) : Semaphore α :=
  if a ∈ s.assigned then { s with assigned := s.assigned.erase a }.addPermits 1
  else { s with waiting := s.waiting.erase a }

/-- The waiting tasks are woken, and leave. -/
def close (s : Semaphore α) : Semaphore α := { s with closed := true, waiting := [] }

def forgetPermits (s : Semaphore α) : ℕ × Semaphore α := (s.permits, { s with permits := 0 })

variable {s s' : Semaphore α} {a b : α} {n : ℕ} {r : Attempt}

/-! ## Permits -/

/-- The permits that are neither taken nor forgotten. -/
def total (s : Semaphore α) : ℕ := s.permits + s.assigned.length

omit [DecidableEq α] in
@[simp]
theorem total_addPermits (s : Semaphore α) (n : ℕ) : (s.addPermits n).total = s.total + n := by
  simp only [total, addPermits, length_append, length_take]
  omega

omit [DecidableEq α] in
theorem total_forgetPermits (s : Semaphore α) :
    s.forgetPermits.2.total + s.forgetPermits.1 = s.total := by
  simp only [total, forgetPermits]
  omega

def Attempt.taking : Attempt → ℕ
  | .taken => 1
  | .empty | .closed => 0

omit [DecidableEq α] in
theorem total_tryAcquire (h : s.tryAcquire = (r, s')) : s'.total + r.taking = s.total := by
  unfold tryAcquire at h
  split_ifs at h
  all_goals
    cases h
    simp only [total, Attempt.taking]
    omega

omit [DecidableEq α] in
theorem total_acquire (h : s.acquire a = (r, s')) : s'.total + r.taking = s.total := by
  unfold acquire at h
  split at h
  · rename_i s₁ hs₁
    cases h
    have := total_tryAcquire hs₁
    exact this
  · exact total_tryAcquire h

theorem total_poll (h : s.poll a = (r, s')) : s'.total + r.taking = s.total := by
  unfold poll at h
  split_ifs at h with hc ha
  · cases h
    rfl
  · cases h
    have := length_erase_of_mem ha
    have := length_pos_of_mem ha
    simp only [total, Attempt.taking]
    omega
  · cases h
    rfl

@[simp]
theorem total_leave (s : Semaphore α) (a : α) : (s.leave a).total = s.total := by
  unfold leave
  split_ifs with ha
  · have := length_erase_of_mem ha
    have := length_pos_of_mem ha
    rw [total_addPermits]
    simp only [total]
    omega
  · rfl

/-! ## Closing -/

@[simp]
theorem closed_leave (s : Semaphore α) (a : α) : (s.leave a).closed = s.closed := by
  unfold leave
  split_ifs <;> rfl

omit [DecidableEq α] in
theorem tryAcquire_closed (h : s.closed = true) : s.tryAcquire = (.closed, s) := by
  simp [tryAcquire, h]

omit [DecidableEq α] in
theorem acquire_closed (h : s.closed = true) : s.acquire a = (.closed, s) := by
  simp [acquire, tryAcquire_closed h]

theorem poll_closed (h : s.closed = true) : s.poll a = (.closed, s) := by
  simp [poll, h]

/-! ## The tasks that wait -/

def tasks (s : Semaphore α) : List α := s.waiting ++ s.assigned

omit [DecidableEq α] in
theorem perm_tasks_addPermits (s : Semaphore α) (n : ℕ) : (s.addPermits n).tasks.Perm s.tasks := by
  show (s.waiting.drop n ++ (s.assigned ++ s.waiting.take n)).Perm (s.waiting ++ s.assigned)
  calc s.waiting.drop n ++ (s.assigned ++ s.waiting.take n)
      = s.waiting.drop n ++ s.assigned ++ s.waiting.take n := (append_assoc ..).symm
    List.Perm _ (s.waiting.take n ++ (s.waiting.drop n ++ s.assigned)) := perm_append_comm
    _ = s.waiting ++ s.assigned := by rw [← append_assoc, take_append_drop]

omit [DecidableEq α] in
theorem tasks_tryAcquire (h : s.tryAcquire = (r, s')) : s'.tasks = s.tasks := by
  unfold tryAcquire at h
  split_ifs at h <;> cases h <;> rfl

omit [DecidableEq α] in
theorem tasks_acquire (h : s.acquire a = (r, s')) :
    s'.tasks = s.tasks ∨ r = .empty ∧ s'.tasks.Perm (a :: s.tasks) := by
  unfold acquire at h
  split at h
  · rename_i s₁ hs₁
    cases h
    refine .inr ⟨rfl, ?_⟩
    show (s₁.waiting ++ [a] ++ s₁.assigned).Perm _
    rw [← tasks_tryAcquire hs₁, append_assoc]
    exact perm_middle
  · exact .inl (tasks_tryAcquire h)

theorem tasks_poll (h : s.poll a = (r, s')) :
    s'.tasks = s.tasks ∧ r ≠ .taken ∨ r = .taken ∧ (a :: s'.tasks).Perm s.tasks := by
  unfold poll at h
  split_ifs at h with hc ha
  · cases h
    exact .inl ⟨rfl, nofun⟩
  · cases h
    refine .inr ⟨rfl, ?_⟩
    show (a :: (s.waiting ++ s.assigned.erase a)).Perm (s.waiting ++ s.assigned)
    exact perm_middle.symm.trans ((perm_cons_erase ha).symm.append_left _)
  · cases h
    exact .inl ⟨rfl, nofun⟩

theorem perm_tasks_leave (s : Semaphore α) (a : α) : (s.leave a).tasks.Perm (s.tasks.erase a) := by
  unfold leave
  split_ifs with ha
  · refine (perm_tasks_addPermits _ 1).trans ?_
    show (s.waiting ++ s.assigned.erase a).Perm ((s.waiting ++ s.assigned).erase a)
    have hcomm : (s.waiting ++ s.assigned).Perm (s.assigned ++ s.waiting) := perm_append_comm
    have herase := hcomm.erase a
    rw [erase_append_left _ ha] at herase
    exact perm_append_comm.trans herase.symm
  · show (s.waiting.erase a ++ s.assigned).Perm ((s.waiting ++ s.assigned).erase a)
    by_cases hw : a ∈ s.waiting
    · rw [erase_append_left _ hw]
    · rw [erase_append_right _ hw, erase_of_not_mem ha, erase_of_not_mem hw]

omit [DecidableEq α] in
theorem tasks_close (s : Semaphore α) : s.close.tasks.Sublist s.tasks := sublist_append_right _ _

end Semaphore
