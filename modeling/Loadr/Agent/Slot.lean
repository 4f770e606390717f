import Loadr.Lib.Machine
import Loadr.Agent.Reports

/-!
# Who owns the run slot

The tasks of an assignment find the run slot by run id.  As long as no assignment takes the slot
while a task of an earlier one with the same run id is still about, that is as good as the identity
of the assignment (`Process.slot_owned`).  Otherwise a late task takes the slot of a later one for
its own (`Process.slot_taken`).
-/

namespace Loadr

open Option Function

namespace Agent

def RunPhase.claim : RunPhase → ℕ
  | .preparing _ n _ | .armed _ n _ => n

@[grind =]
def RunStage.isLive : RunStage → Bool
  | .waiting | .sleeping | .starting | .running => true
  | .ending .. | .clearing => false

@[grind =]
def RunStage.isReleased (channel : StartChannel) : RunStage → Bool
  | .waiting => match channel with
    | .sent _ => true
    | .pending | .dropped => false
  | .sleeping | .starting | .running => true
  | .ending .. | .clearing => false

@[grind →]
theorem RunStage.isLive_of_isReleased {channel : StartChannel} {stage : RunStage}
    (h : stage.isReleased channel = true) : stage.isLive = true := by
  cases stage <;> first | rfl | exact h

namespace Process

variable {β : Type} {p p' : Process β} {act : Act β} {n : ℕ} {room : Bool}

/-- The engine of claim `n` has not finished. -/
@[grind =]
def live (p : Process β) (n : ℕ) : Bool := (p.engines n).any fun e => e.status != .finished

@[grind =]
def holds (p : Process β) (n : ℕ) : Bool :=
  match p.current with
  | some (.armed _ m false) => m == n
  | _ => false

/-- The slot holds the armed run of claim `n`, which has not been started. -/
@[grind =]
def parks (p : Process β) (n : ℕ) : Bool :=
  match p.current with
  | some (.armed _ m true) => m == n
  | _ => false

variable {R : String} {m : ℕ} {a : Assignment} {run : RunTask}

@[grind →]
theorem eq_of_holds {tx : Bool} (hc : p.current = some (.armed R m tx)) (h : p.holds n = true) :
    n = m := by
  unfold holds at h
  rw [hc] at h
  cases tx
  · exact (beq_iff_eq.1 h).symm
  · cases h

def released (p : Process β) (n : ℕ) : Bool :=
  (p.runs n).any fun run => run.stage.isReleased (p.startRx n)

/-! ## The condition -/

/-- No task that may still touch the slot has this run. -/
def vacant (p : Process β) (R : String) : Bool :=
  (List.range p.claims).all fun n =>
    !((p.preps n).any fun prep => prep.stage.isOpen && prep.assignment.runId == R) &&
      !((p.runs n).any fun run => run.runId == R)

/-- An assignment that takes the slot finds no task with its run. -/
def mayClaim (p : Process β) : Act β → Bool
  | .receive (.assignment a) _ =>
    match (p.armAssignment a).map claims with
    | .ok n => n == p.claims || p.vacant a.runId
    | .error _ => true
  | _ => true

theorem mayClaim_hear (p : Process β) (m : CtrlMsg) (act : Act β) :
    ({ p with heard := m :: p.heard }).mayClaim act = p.mayClaim act := by
  have hclaims (a : Assignment) :
      (({ p with heard := m :: p.heard }).armAssignment a).map claims =
        (p.armAssignment a).map claims := by
    unfold armAssignment
    dsimp only
    repeat' split
    all_goals rfl
  unfold mayClaim
  split
  · rw [hclaims]
    rfl
  · rfl

/-! ## Ownership -/

/-- The tasks that may still touch the slot are those of one claim for each run, and the slot is
that of a claim whose task is about. -/
@[grind cases]
structure Owned (p : Process β) : Prop where
  fresh : ∀ n, p.claims ≤ n → p.preps n = none ∧ p.runs n = none
  preparing : ∀ R n t, p.current = some (.preparing R n t) →
    (p.preps n).map (fun prep => (prep.assignment.runId, prep.stage.isOpen)) = some (R, true)
  armed : ∀ R n tx, p.current = some (.armed R n tx) → (p.runs n).map (·.runId) = some R
  parked : ∀ R n, p.current = some (.armed R n true) →
    p.runs n = some ⟨R, .waiting⟩ ∧ p.startRx n = .pending
  unarmed : ∀ n prep, p.preps n = some prep → prep.stage.isOpen = true → p.runs n = none
  alive : ∀ n run, p.runs n = some run → run.stage.isLive = true → p.live n = true
  held : ∀ n run, p.runs n = some run → run.stage.isReleased (p.startRx n) = true → p.holds n = true
  preps : ∀ n m a b, p.preps n = some a → a.stage.isOpen = true → p.preps m = some b →
    b.stage.isOpen = true → a.assignment.runId = b.assignment.runId → n = m
  runs : ∀ n m a b, p.runs n = some a → p.runs m = some b → a.runId = b.runId → n = m
  apart : ∀ n m a run, p.preps n = some a → a.stage.isOpen = true → p.runs m = some run →
    a.assignment.runId ≠ run.runId

theorem setCurrent_of_parked (h : p.current = some (.armed R n true)) (phase : Option RunPhase) :
    p.setCurrent phase =
      { p with current := phase, startRx := Function.update p.startRx n .dropped } := by
  unfold setCurrent
  rw [h]

theorem setCurrent_of_not_parked (h : ∀ R n, p.current ≠ some (.armed R n true))
    (phase : Option RunPhase) : p.setCurrent phase = { p with current := phase } := by
  unfold setCurrent
  split
  · exact absurd ‹_› (h _ _)
  · rfl

namespace Owned

section

variable (h : Owned p)
include h

theorem vacant (hv : p.vacant R = true) :
    (∀ n prep, p.preps n = some prep → prep.stage.isOpen = true → prep.assignment.runId ≠ R) ∧
      ∀ n run, p.runs n = some run → run.runId ≠ R := by
  have hall := List.all_eq_true.1 hv
  have hlt (n : ℕ) (hn : p.preps n ≠ none ∨ p.runs n ≠ none) : n ∈ List.range p.claims := by
    rw [List.mem_range]
    by_contra hge
    have := h.fresh n (Nat.le_of_not_lt hge)
    simp_all
  constructor
  · intro n prep hp hopen heq
    have := hall n (hlt n (.inl (by simp [hp])))
    simp [hp, hopen, heq] at this
  · intro n run hr heq
    have := hall n (hlt n (.inr (by simp [hr])))
    simp [hr, heq] at this

theorem free (hc : ∀ R n tx, p.current ≠ some (.armed R n tx)) : Owned { p with current := none } :=
  { h with
    preparing := fun _ _ _ => nofun
    armed := fun _ _ _ => nofun
    parked := fun _ _ => nofun
    held := fun n run hr hrel => by
      have := h.held n run hr hrel
      grind }

theorem claim (a : Assignment) (hv : p.vacant a.runId = true)
    (hfree : ∀ phase, p.current = some phase →
      ∃ R n tx, phase = .armed R n tx ∧ p.live n = false) : Owned (p.claim a) := by
  have ⟨hpreps, hruns⟩ := h.vacant hv
  have hset := setCurrent_of_not_parked (p := p) (by grind)
    (some (.preparing a.runId p.claims none))
  unfold Process.claim
  simp only [hset]
  constructor <;> simp only [update_apply] <;> grind

theorem setPrep {prep : Prep} (hprep : p.preps n = some prep) {next : Option Prep}
    (hopen : ∀ x, next = some x → x.stage.isOpen = true →
      prep.stage.isOpen = true ∧ x.assignment = prep.assignment)
    (hslot : ∀ R t, p.current = some (.preparing R n t) →
      next.any (fun x => x.stage.isOpen && x.assignment = prep.assignment) = true) :
    Owned (p.setPrep n next) := by
  have hlt : n < p.claims := by grind
  refine { h with fresh := ?_, preparing := fun R m t hc => ?_, unarmed := ?_, preps := ?_,
                  apart := ?_ }
  · simp only [Process.setPrep, update_apply]
    grind
  · have hold := h.preparing R m t hc
    have hc : p.current = some (.preparing R m t) := hc
    simp only [Process.setPrep, update_apply]
    split
    · rename_i hm
      subst hm
      obtain ⟨x, rfl, hx⟩ := (any_eq_true _ _).1 (hslot R t hc)
      grind
    · exact hold
  all_goals
    simp only [Process.setPrep, update_apply]
    grind

theorem closePrep {prep : Prep} (hprep : p.preps n = some prep) {next : Option Prep}
    (hclosed : ∀ x, next = some x → x.stage.isOpen = false)
    (hslot : ∀ R t, p.current ≠ some (.preparing R n t)) : Owned (p.setPrep n next) :=
  h.setPrep hprep (fun x hx ho => absurd (hclosed x hx) (by simp [ho]))
    fun R t hc => absurd hc (hslot R t)

theorem eq_of_preparing {stage : PrepStage} (hprep : p.preps n = some ⟨a, stage⟩)
    (hopen : stage.isOpen = true) {t : Option ℤ} (hc : p.current = some (.preparing R m t)) :
    R = a.runId ↔ m = n := by
  obtain ⟨prep, hm, hid⟩ := map_eq_some_iff.1 (h.preparing R m t hc)
  grind

theorem setRun (hrun : p.runs n = some run) (stage : RunStage)
    (hlive : stage.isLive = true → run.stage.isLive = true)
    (hreleased : stage.isReleased (p.startRx n) = true → run.stage.isReleased (p.startRx n) = true)
    (hparks : p.parks n = false) : Owned (p.setRun n (some { run with stage := stage })) := by
  unfold Process.setRun
  constructor <;> simp only [update_apply] <;> grind

theorem setStatus (status : RunStatus)
    (hs : status ≠ .finished ∨ ∀ run, p.runs n = some run → run.stage.isLive = false) :
    Owned (p.setStatus n status) := by
  refine { h with alive := fun m run hr hl => ?_ }
  have hlive := h.alive m run hr hl
  have hr : p.runs m = some run := hr
  simp only [Process.setStatus, live, update_apply] at hlive ⊢
  split
  · rename_i hm
    subst hm
    have hne : status ≠ .finished := hs.resolve_right fun hdead => by simp [hdead run hr] at hl
    obtain ⟨e, he, -⟩ := (any_eq_true _ _).1 hlive
    simp [he, hne]
  · exact hlive

theorem clear (hrun : p.runs n = some run) (hs : run.stage = .clearing)
    (hslot : ∀ m tx, p.current ≠ some (.armed run.runId m tx)) : Owned (p.setRun n none) := by
  unfold Process.setRun
  constructor <;> simp only [update_apply] <;> grind

theorem vacate {tx : Bool} (hrun : p.runs n = some run) (hs : run.stage = .clearing)
    (hc : p.current = some (.armed run.runId m tx)) :
    Owned ((p.setRun n none).setCurrent none) := by
  -- the run in the slot is that of the task, as there is one task for it
  obtain ⟨run', hm, hid⟩ := map_eq_some_iff.1 (h.armed run.runId m tx hc)
  obtain rfl : m = n := h.runs m n run' run hm hrun hid
  rw [setCurrent_of_not_parked (by simp only [Process.setRun]; grind)]
  unfold Process.setRun
  constructor <;> simp only [update_apply] <;> grind

theorem parks_false (hrun : p.runs n = some run)
    (hs : run.stage ≠ .waiting ∨ p.startRx n ≠ .pending) : p.parks n = false := by
  grind

theorem moveRun (hrun : p.runs n = some run) {stage : RunStage}
    {status : Option RunStatus} (hlead : run.stage.Leads (p.startRx n) stage status) :
    Owned (p.moveRun n status ⟨run.runId, stage⟩) := by
  obtain ⟨R, old⟩ := run
  have hset (hs : old ≠ .waiting ∨ p.startRx n ≠ .pending) (stage : RunStage)
      (hlive : stage.isLive = true → old.isLive = true)
      (hreleased : stage.isReleased (p.startRx n) = true → old.isReleased (p.startRx n) = true) :=
    h.setRun hrun stage hlive hreleased (h.parks_false hrun hs)
  cases hlead with
  | woken hsent | dropped hsent => exact hset (.inr (by simp [hsent])) _ (by grind) (by grind)
  | due | failed | reported => exact hset (.inl nofun) _ (by grind) (by grind)
  | started | stopping =>
    exact (hset (.inl nofun) .running (by grind) (by grind)).setStatus _ (.inl nofun)
  | finished kind detail =>
    refine (hset (.inl nofun) (.ending kind detail) (by grind) (by grind)).setStatus _ (.inr ?_)
    simp [Process.setRun, RunStage.isLive]

theorem arm {scalable : List String} {t : Option ℤ}
    (hp : p.preps n = some ⟨a, .built scalable⟩) (hc : p.current = some (.preparing a.runId n t)) :
    Owned { p.setPrep n (some ⟨a, .armed⟩) with
      current := some (.armed a.runId n t.isNone)
      startRx := Function.update p.startRx n (t.elim .pending .sent)
      engines := Function.update p.engines n (some { scalable := scalable })
      runs := Function.update p.runs n (some ⟨a.runId, .waiting⟩) } := by
  have hopen : (PrepStage.built scalable).isOpen = true := rfl
  have hclosed : PrepStage.armed.isOpen = false := rfl
  unfold Process.setPrep
  cases t <;> constructor <;> simp only [update_apply] <;> grind

theorem change {q : Process β} (hg : p.mayClaim act = true) (hact : act ≠ .shutdown)
    (hq : Change p act q) : Owned q := by
  cases hq with
  | idle => exact h
  | claim a room hok hfree =>
    have hne : (p.claim a).claims ≠ p.claims := Nat.succ_ne_self p.claims
    exact h.claim a (by simpa [mayClaim, hok, Except.map, hne] using hg) hfree
  | start => constructor <;> simp only [update_apply] <;> grind
  | latch => constructor <;> grind
  | cancel _ _ hc => exact { h.free (by simp [hc]) with }
  | kill _ _ _ hc htx =>
    rw [setCurrent_of_parked (htx.resolve_left hact ▸ hc)]
    constructor <;> simp only [update_apply] <;> grind [Engine.kill]
  | drive => constructor <;> grind [Engine.drive, Engine.stop, Engine.kill, update_apply]
  | build _ _ hp hopen => exact h.setPrep hp (by grind) (by grind)
  | close _ _ hp hnext hslot =>
    refine h.closePrep hp (fun x hx => (hnext x hx).2) ?_
    grind
  | leave _ _ hp hopen hnext hc =>
    exact (h.free (by simp [hc])).closePrep hp (fun x hx => (hnext x hx).2) fun _ _ => nofun
  | @arm n m a scalable t _ _ hp hc hn =>
    obtain rfl := (h.eq_of_preparing hp rfl hc).1 rfl
    exact h.arm hp hc
  | task _ _ hr hlead => exact h.moveRun hr hlead
  | clear _ _ hr hstage hslot => exact h.clear hr hstage hslot
  | vacate _ _ hr hstage hc => exact h.vacate hr hstage hc

theorem next (hg : p.mayClaim act = true) (hact : act ≠ .shutdown)
    (hstep : p.next act = some p') : Owned p' := by
  obtain ⟨q, sent, hq, rfl⟩ := exists_change hstep
  have hhear : Owned (p.hear act) ∧ (p.hear act).mayClaim act = true := by
    cases act with
    | receive m room => exact ⟨{ h with }, (mayClaim_hear p m _).trans hg⟩
    | _ => exact ⟨h, hg⟩
  exact { hhear.1.change hhear.2 hact hq with }

end

end Owned

/-! ## Tasks and the slot -/

theorem Owned.change_current {q : Process β} (h : Owned p) (hq : Change p act q)
    (htask : act.task = some n) (hne : q.current ≠ p.current) :
    ∃ phase, p.current = some phase ∧ phase.claim = n := by
  cases hq with
  | claim | start | latch | drive => cases htask
  | cancel _ hact | kill _ hact => cases hact.symm.trans htask
  | leave _ _ hp hopen hnext hc =>
    cases htask
    exact ⟨_, hc, (h.eq_of_preparing hp hopen hc).1 rfl⟩
  | arm _ _ hp hc =>
    cases htask
    exact ⟨_, hc, (h.eq_of_preparing hp rfl hc).1 rfl⟩
  | task =>
    rename_i status _ _ _ _
    cases status <;> cases hne rfl
  | @vacate k m run tx _ _ hr _ hc =>
    obtain rfl := some.inj htask
    obtain ⟨old, hm, hid⟩ := map_eq_some_iff.1 (h.armed _ m tx hc)
    exact ⟨_, hc, h.runs m k old run hm hr hid⟩
  | _ => cases hne rfl

/-- The engine of claim `n` is armed or running. -/
def engaged (p : Process β) (n : ℕ) : Bool := p.parks n || p.released n

theorem Owned.engaged_unique (h : Owned p) (hn : p.engaged n = true) (hm : p.engaged m = true) :
    n = m := by
  have hholds (k : ℕ) (hk : p.released k = true) : p.holds k = true := by
    obtain ⟨run, hrun, hrel⟩ := (any_eq_true _ _).1 hk
    exact h.held k run hrun hrel
  rcases Bool.or_eq_true_iff.1 hn with hn | hn <;> rcases Bool.or_eq_true_iff.1 hm with hm | hm
  · grind
  · have := hholds m hm
    grind
  · have := hholds n hn
    grind
  · have := hholds n hn
    have := hholds m hm
    grind

/-! ## Stopped before the start -/

/-- Claim `n` will not start: its preparation is cancelled, or its start channel is gone. -/
@[grind cases]
structure Silenced (p : Process β) (n : ℕ) : Prop where
  claimed : n < p.claims
  quiet : ∀ run, p.runs n = some run → begun run.stage = false
  closed : p.cancelled n = true ∧ p.runs n = none ∨
    p.startRx n = .dropped ∧ p.parks n = false ∧
      ∀ prep, p.preps n = some prep → prep.stage.isOpen = false

namespace Silenced

variable {k : ℕ}

theorem enqueue (h : Silenced p k) (msg : AgentMsg β) (room : Bool) :
    Silenced (p.enqueue msg room) k := by
  unfold Process.enqueue
  split
  · exact { h with }
  · exact h

theorem setCurrent (h : Silenced p k) (phase : Option RunPhase)
    (hphase : ∀ R n, phase ≠ some (.armed R n true)) : Silenced (p.setCurrent phase) k := by
  unfold Process.setCurrent
  split
  all_goals constructor <;> grind [update_apply]

theorem setRun (h : Silenced p k) (hrun : p.runs n = some run) (next : Option RunTask)
    (hnext : n = k → ∀ x, next = some x → begun x.stage = false) :
    Silenced (p.setRun n next) k := by
  unfold Process.setRun
  constructor <;> grind [update_apply]

theorem change {q : Process β} (h : Silenced p k) (hq : Change p act q) : Silenced q k := by
  cases hq with
  | idle => exact h
  | claim a =>
    have hset := h.setCurrent (some (.preparing a.runId p.claims none)) (by simp)
    have hk : k ≠ p.claims := Nat.ne_of_lt h.claimed
    refine ⟨Nat.lt_succ_of_lt h.claimed, hset.quiet, hset.closed.imp_right ?_⟩
    rintro ⟨hdropped, hparks, hclosed⟩
    refine ⟨hdropped, hparks, fun prep hprep => hclosed prep ?_⟩
    rw [preps_setCurrent]
    exact (update_of_ne hk _ p.preps).symm.trans hprep
  | start | latch | cancel => constructor <;> grind [update_apply]
  | kill => exact { h.setCurrent none (by simp) with }
  | drive => exact { h with }
  | build | close | leave =>
    unfold setPrep
    constructor <;> grind [update_apply]
  | arm =>
    unfold setPrep
    constructor <;> grind [update_apply, begun]
  | @task n run stage status _ _ hr hlead =>
    have hset : Silenced (p.setRun n (some ⟨run.runId, stage⟩)) k := by
      refine h.setRun hr _ fun hn x hx => ?_
      subst hn
      have hquiet := h.quiet run hr
      obtain ⟨R, old⟩ := run
      cases hx
      cases hlead with
      | woken hsent => grind
      | dropped => rfl
      | _ => cases hquiet
    cases status <;> exact { hset with }
  | clear _ _ hr => exact h.setRun hr none (by simp)
  | vacate _ _ hr => exact (h.setRun hr none (by simp)).setCurrent none (by simp)

theorem next (h : Silenced p k) (hstep : p.next act = some p') : Silenced p' k := by
  obtain ⟨q, sent, hq, rfl⟩ := exists_change hstep
  have hhear : Silenced (p.hear act) k := by
    cases act with
    | receive => exact { h with }
    | _ => exact h
  exact { hhear.change hq with }

end Silenced

/-- The slot holds claim `n` of the run, in preparation or armed and not started. -/
def Unstarted (p : Process β) (R : String) (n : ℕ) : Prop :=
  (∃ t, p.current = some (.preparing R n t)) ∨ p.current = some (.armed R n true)

theorem Owned.silenced (h : Owned p) {c : Control} (hc : c.action.isStop = true)
    (hn : p.Unstarted c.runId n) (room : Bool) : Silenced (p.handleControl c room) n := by
  unfold Process.handleControl
  dsimp only
  rcases hn with ⟨t, hn⟩ | hn
  · obtain ⟨prep, hprep, hid⟩ := map_eq_some_iff.1 (h.preparing _ n t hn)
    have hruns : p.runs n = none := h.unarmed n prep hprep (Prod.ext_iff.1 hid).2
    simp only [hn, if_true, hc]
    refine Silenced.enqueue ?_ _ _
    constructor <;> grind [update_apply]
  · simp only [hn, if_true, hc, and_self, setCurrent_of_parked hn]
    refine Silenced.enqueue ?_ _ _
    constructor <;> grind [update_apply, begun]

/-! ## The slot over whole runs -/

def machine (β : Type) : Machine (Process β) (Act β) where
  init p := ∃ agentId agentName labels incarnation,
    p = { agentId := agentId, agentName := agentName, labels := labels, incarnation := incarnation }
  next p
    | .shutdown => none
    | act => p.next act

theorem machine_next (h : (machine β).next p act = some p') :
    act ≠ .shutdown ∧ p.next act = some p' := by
  cases act with
  | shutdown => cases h
  | _ => exact ⟨nofun, h⟩

/-- The runs in which an assignment takes the slot only if no task with its run id is about. -/
def tidy (β : Type) : Machine (Process β) (Act β) :=
  (machine β).guarded fun p act => p.mayClaim act = true

theorem tidy_next (h : (tidy β).next p act = some p') :
    p.mayClaim act = true ∧ act ≠ .shutdown ∧ p.next act = some p' := by
  obtain ⟨hg, hnext⟩ := Machine.guarded_next.1 h
  exact ⟨hg, machine_next hnext⟩

theorem owned_of_reachable (h : (tidy β).Reachable p) : Owned p := by
  refine h.invariant ?_ fun p act p' _ hp hstep => ?_
  · rintro _ ⟨agentId, agentName, labels, incarnation, rfl⟩
    constructor <;> grind
  · obtain ⟨hg, hact, hstep⟩ := tidy_next hstep
    exact hp.next hg hact hstep

theorem Silenced.while (h : Silenced p n) {q : Process β}
    (hw : (tidy β).While (fun _ => True) p q) : Silenced q n := by
  induction hw with
  | refl => exact h
  | step _ _ hstep ih =>
    obtain ⟨-, hact, hstep⟩ := tidy_next hstep
    exact ih.next hstep

/-- If every assignment that takes the slot finds no task with its run id, then a task changes the
slot only while the slot holds its own assignment, at most one engine is armed or running, and an
engine stopped before its start never starts. -/
theorem slot_owned (β : Type) (p : Process β) (h : (tidy β).Reachable p) :
    (∀ act n p', act.task = some n → p.next act = some p' → p'.current ≠ p.current →
      ∃ phase, p.current = some phase ∧ phase.claim = n) ∧
    (∀ n m, p.engaged n = true → p.engaged m = true → n = m) ∧
    ∀ c room n p', c.action.isStop = true → p.Unstarted c.runId n →
      (tidy β).next p (.receive (.control c) room) = some p' →
      ∀ q, (tidy β).While (fun _ => True) p' q →
        ∀ run, q.runs n = some run → begun run.stage = false := by
  have howned := owned_of_reachable h
  refine ⟨fun act n p' htask hstep hne => ?_, fun n m => howned.engaged_unique,
    fun c room n p' hc hn hstep q hq => ?_⟩
  · obtain ⟨q, sent, hq, rfl⟩ := exists_change hstep
    cases act with
    | prep | run => exact howned.change_current hq htask hne
    | _ => cases htask
  · obtain ⟨-, -, hstep⟩ := tidy_next hstep
    cases hstep
    have hhear : Owned { p with heard := .control c :: p.heard } := { howned with }
    have hsilenced : Silenced _ n := hhear.silenced hc hn room
    exact (hsilenced.while hq).quiet

/-! ## Schedules -/

def assigned (R : String) : Act Unit :=
  .receive (.assignment { runId := R, planYaml := "", partitionIndex := 0, partitionCount := 1 })
    true

def stopped (R : String) : Act Unit :=
  .receive (.control { runId := R, action := .stop, scenario := "", value := 0, commandId := 1 })
    true

def armed (n : ℕ) : List (Act Unit) := [.prep n (.ok []) true, .prep n (.ok []) true]

def moves (n : ℕ) : Act Unit := .run n .stopping true

def launched : Process Unit := { agentId := "a", agentName := "a", labels := ∅, incarnation := "i" }

theorem launched_init : (machine Unit).init launched := ⟨_, _, _, _, rfl⟩

theorem slot_owned_armed :
    ∃ p : Process Unit, (tidy Unit).Reachable p ∧ p.engaged 0 = true ∧
      ∀ m, p.engaged m = true → m = 0 := by
  obtain ⟨p, hp, hengaged⟩ := (tidy Unit).exists_reachable_of_run launched_init
    (assigned "r" :: armed 0) (fun p => p.engaged 0 = true) (by decide +kernel)
  exact ⟨p, hp, hengaged, fun m hm => (slot_owned Unit p hp).2.1 m 0 hm hengaged⟩

/-- A run is stopped while it is prepared, and assigned again: the first preparation clears the slot
of the second assignment.  And a run that is stopped once it is armed, assigned again and started:
the task of the first assignment clears the slot under the running engine, and another run starts
beside it. -/
theorem slot_taken :
    (∃ p : Process Unit, (machine Unit).Reachable p ∧
      p.current = some (.preparing "r" 1 none) ∧ p.cancelled 1 = false ∧
      (p.next (.prep 0 (.ok []) true)).any (fun p' => p'.current == none) = true) ∧
    ∃ p : Process Unit, (machine Unit).Reachable p ∧ p.engaged 1 = true ∧ p.engaged 2 = true := by
  constructor
  · exact (machine Unit).exists_reachable_of_run launched_init
      [assigned "r", stopped "r", assigned "r", .prep 0 (.ok []) true] _ (by decide +kernel)
  · exact (machine Unit).exists_reachable_of_run launched_init
      (List.flatten [assigned "r" :: armed 0, [stopped "r"], assigned "r" :: armed 1,
        [.receive (.start "r" 0) true], List.replicate 3 (moves 1), [moves 0, moves 0],
        assigned "s" :: armed 2, [.receive (.start "s" 0) true]]) _ (by decide +kernel)

end Process

end Agent

end Loadr
