import Loadr.Controller.Causes
import Loadr.Controller.InOrder

/-!
# Control commands

A control call numbers its command, sends it to the connected agents of the run and waits for their
answers; meanwhile the record of the command is there (`Controller.Commands`).  A call finishes with
success only if every addressed agent has reported the command as applied
(`Controller.control_ok_of_applied`).
-/

namespace Loadr

open List Option Std.ExtTreeMap

namespace Controller

variable {M : Metering} {env : Env M} {inner : Inner M} {op op' : Op M} {o : Outcome M}
  {s s' : State M} {act : Action M} {R : String} {n : ℕ} {run run' : ControllerRun M}
  {pending pending' : PendingControl}

/-! ## Programs of control calls -/

/-- The operations of a control call, other than the sends. -/
def isCall : Op M → Bool
  | .controlRun _ | .controlState _ | .controlTargets _ | .controlInsert .. | .controlWait .. |
    .controlPark .. | .controlTimeout .. | .controlFinish .. | .setPaused .. | .setStopping _ |
    .recordPrepFailure _ _ _ (.control _) => true
  | _ => false

def commandOf : Op M → Option ℕ
  | .controlSend _ _ c => some c.commandId
  | .controlWait _ n | .controlPark _ n | .controlTimeout _ n | .controlFinish _ n => some n
  | _ => none

theorem isCall_of_exec (h : exec env inner op = some o) (hop' : op' ∈ o.ops)
    (hcall : isCall op' = true) : isCall op = true := by
  have horigin := exec_ops h op' hop'
  cases op' with
  | controlRun call => exact horigin.elim
  | controlTargets call => rcases horigin with ⟨-, rfl⟩ | ⟨R, reason, verdict, -, rfl⟩ <;> rfl
  | controlState | controlPark | controlTimeout =>
    obtain rfl := horigin
    rfl
  | controlInsert | controlFinish =>
    obtain ⟨rfl, -⟩ := horigin
    rfl
  | controlWait call n => rcases horigin with ⟨targets, rfl⟩ | rfl <;> rfl
  | setPaused R paused => obtain ⟨call, n, -, ⟨-, rfl⟩ | ⟨rfl, -⟩⟩ := horigin <;> rfl
  | setStopping R =>
    obtain ⟨call, n, -, rfl⟩ := horigin
    rfl
  | recordPrepFailure R reason verdict after =>
    cases after with
    | control call =>
      obtain ⟨-, rfl, -⟩ := horigin
      rfl
    | _ => cases hcall
  | _ => cases hcall

/-- The command an operation works at, other than by a send. -/
def attends : Op M → Option (ControlCall × ℕ)
  | .controlWait call n | .controlPark call n | .controlTimeout call n | .controlFinish call n =>
    some (call, n)
  | _ => none

def ends (R : String) (n : ℕ) (op : Op M) : Prop :=
  ∃ call : ControlCall, call.runId = R ∧ (op = .controlTimeout call n ∨ op = .controlFinish call n)

theorem commandOf_of_attends {c : ControlCall × ℕ} (h : attends op = some c) :
    commandOf op = some c.2 := by
  unfold attends at h
  split at h <;> first | exact congrArg (Option.map Prod.snd) h | cases h

theorem attends_of_ends (h : ends R n op) : commandOf op = some n ∧ (attends op).isSome := by
  obtain ⟨call, -, rfl | rfl⟩ := h <;> exact ⟨rfl, rfl⟩

def awaits (n : ℕ) (op : Op M) : Prop :=
  ∃ call, op = .controlWait call n ∨ op = .controlPark call n

theorem attends_of_awaits (h : awaits n op) :
    (∃ call, attends op = some (call, n)) ∧ ∀ R n, ¬ends R n op := by
  obtain ⟨call, rfl | rfl⟩ := h <;> exact ⟨⟨call, rfl⟩, fun _ _ => by simp [ends]⟩

theorem exec_attends {call : ControlCall} (h : exec env inner op = some o)
    (hop : attends op = some (call, n)) : (∃ op', o.ops = [op'] ∧ attends op' = some (call, n)) ∨
      ends call.runId n op ∨ inner.runs[call.runId]? = none ∧ o.ops = [] := by
  cases op with
  | controlWait call' n' =>
    obtain ⟨rfl, rfl⟩ := Prod.mk.inj (some.inj hop)
    cases h
    rcases withRun_cases inner call'.runId _ with ⟨hr, he⟩ | ⟨run, -, he⟩
    · exact .inr (.inr ⟨hr, by rw [he]⟩)
    · rw [he]
      dsimp only
      split_ifs
      · exact .inl ⟨_, rfl, rfl⟩
      · exact .inl ⟨_, rfl, rfl⟩
  | controlPark call' n' =>
    obtain ⟨rfl, rfl⟩ := Prod.mk.inj (some.inj hop)
    simp only [exec] at h
    split at h
    · cases h
    · split_ifs at h
      all_goals
        cases h
        exact .inl ⟨_, rfl, rfl⟩
  | controlTimeout call' n' | controlFinish call' n' =>
    obtain ⟨rfl, rfl⟩ := Prod.mk.inj (some.inj hop)
    exact .inr (.inl ⟨call', rfl, by simp⟩)
  | _ => cases hop

/-! ## The record of a command -/

theorem RunEffect.paused_cases (h : RunEffect env R run op run') :
    run'.paused = run.paused ∨ op = .setPaused R run'.paused := by
  cases h
  case setPaused paused => exact .inr rfl
  all_goals exact .inl rfl

/-- The operation answers command `n` of the run `R` for the agent `a`: a failed send, or an
acknowledgement. -/
def Answers (op : Op M) (R : String) (n : ℕ) (pending : PendingControl) (a : String)
    (r : Except String Unit) : Prop :=
  (∃ k c, op = .controlSend a k c ∧ c.runId = R ∧ c.commandId = n ∧ r.isOk = false) ∨
    ∃ rc ack, op = .applyAgentMessage rc (.controlAck ack) ∧ rc.agentId = a ∧
      a ∈ pending.expected ∧ ack.runId = R ∧ ack.commandId = n ∧ ack.action = pending.action ∧
      (r.isOk = true → ack.applied = true)

/-- How an operation can change the record of a command: answers are added. -/
structure Answering (op : Op M) (R : String) (n : ℕ) (pending pending' : PendingControl) :
    Prop where
  action : pending'.action = pending.action
  expected : pending'.expected = pending.expected
  grown : ∀ a ∈ pending.responses, a ∈ pending'.responses
  new : ∀ a r, pending'.responses[a]? = some r → pending.responses[a]? = some r ∨
    Answers op R n pending a r

theorem Answering.refl (op : Op M) (R : String) (n : ℕ) (pending : PendingControl) :
    Answering op R n pending pending :=
  ⟨rfl, rfl, fun _ h => h, fun _ _ h => .inl h⟩

def issued (call : ControlCall) (targets : List (String × ℕ)) : PendingControl :=
  { expected := (targets.map (·.1)).toFinset, responses := ∅, action := call.action
    scenario := call.scenario, notify := false }

structure PendingStep (op : Op M) (counter : ℕ) (R : String) (n : ℕ)
    (before after : Option PendingControl) : Prop where
  back : ∀ pending', after = some pending' →
    (∃ pending, before = some pending ∧ Answering op R n pending pending') ∨
    ∃ call targets, op = .controlInsert call targets ∧ call.runId = R ∧ n = counter + 1 ∧
      pending' = issued call targets
  forth : ∀ pending, before = some pending →
    (∃ pending', after = some pending') ∨ ends R n op ∨ n = counter + 1

theorem PendingStep.refl (op : Op M) (counter : ℕ) (R : String) (n : ℕ)
    (before : Option PendingControl) : PendingStep op counter R n before before where
  back pending' h := .inl ⟨pending', h, .refl op R n pending'⟩
  forth pending h := .inl ⟨pending, h⟩

theorem pendingStep_map {counter : ℕ} {before : Option PendingControl}
    {f : PendingControl → PendingControl} (hf : ∀ p, before = some p → Answering op R n p (f p)) :
    PendingStep op counter R n before (before.map f) where
  back pending' h := by
    obtain ⟨p, hp, rfl⟩ := map_eq_some_iff.1 h
    exact .inl ⟨p, hp, hf p hp⟩
  forth pending h := .inl ⟨f pending, by rw [h, map_some]⟩

theorem pendingStep_modify {counter k : ℕ} {m : Std.ExtTreeMap ℕ PendingControl compare}
    {f : PendingControl → PendingControl}
    (hf : k = n → ∀ p, m[n]? = some p → Answering op R n p (f p)) :
    PendingStep op counter R n m[n]? (m.modify k f)[n]? := by
  rw [Std.ExtTreeMap.getElem?_modify]
  split
  · rename_i hk
    obtain rfl : k = n := Std.LawfulEqOrd.eq_of_compare hk
    exact pendingStep_map (hf rfl)
  · exact .refl ..

theorem answering_insert {a : String} {r : Except String Unit} {notify : Bool}
    (h : Answers op R n pending a r) : Answering op R n pending
      { pending with responses := pending.responses.insert a r, notify } := by
  refine ⟨rfl, rfl, fun a' ha => Std.ExtTreeMap.mem_insert.2 (.inr ha), fun a' r' hr => ?_⟩
  rw [Std.ExtTreeMap.getElem?_insert] at hr
  split at hr
  · rename_i ha
    cases hr
    exact .inr (Std.LawfulEqOrd.eq_of_compare ha ▸ h)
  · exact .inl hr

theorem pendingStep_acknowledge (rc : Received) (ack : ControlAck) (hR : ack.runId = R) (n : ℕ)
    (counter : ℕ) : PendingStep (.applyAgentMessage rc (.controlAck ack) : Op M) counter R n
      run.pendingControls[n]? (run.acknowledge rc.agentId ack).pendingControls[n]? := by
  unfold ControllerRun.acknowledge
  split
  · exact .refl ..
  · rename_i command hcommand
    split
    · rename_i hmatch
      simp only [Std.ExtTreeMap.getElem?_insert]
      split
      · rename_i hn
        obtain rfl : ack.commandId = n := Std.LawfulEqOrd.eq_of_compare hn
        rw [hcommand]
        refine pendingStep_map (f := fun _ => _) fun p hp => ?_
        cases hp
        refine answering_insert (.inr ⟨rc, ack, rfl, rfl, hmatch.1, hR, rfl, hmatch.2.1, ?_⟩)
        intro hok
        by_contra hne
        simp [hne, Except.isOk, Except.toBool] at hok
      · exact .refl ..
    · exact .refl ..

variable {inner' : Inner M} {t : TaskId}

theorem exec_pending (h : exec env inner op = some o) (hr : inner.runs[R]? = some run)
    (hr' : o.shared.runs[R]? = some run') (heff : run' = run ∨ RunEffect env R run op run')
    (n : ℕ) : PendingStep op inner.controlCounter R n run.pendingControls[n]?
      run'.pendingControls[n]? := by
  rcases heff with rfl | heff
  · exact .refl ..
  cases heff
  case acknowledge rc ack hR => exact pendingStep_acknowledge rc ack hR n _
  case controlInsert call targets p hR =>
    cases h
    subst hR
    cases (getElem?_modifyRun hr _).symm.trans hr'
    rw [Std.ExtTreeMap.getElem?_insert]
    split
    · rename_i hn
      obtain rfl : inner.controlCounter + 1 = n := Std.LawfulEqOrd.eq_of_compare hn
      refine ⟨fun pending' hp => .inr ⟨call, targets, rfl, rfl, rfl, ?_⟩,
        fun _ _ => .inr (.inr rfl)⟩
      exact (some.inj hp).symm
    · exact .refl ..
  case controlSend a k c hR =>
    exact pendingStep_modify fun hn p _ => answering_insert (.inl ⟨k, c, rfl, hR, hn, rfl⟩)
  case controlPark =>
    exact pendingStep_modify fun _ p _ => ⟨rfl, rfl, fun _ ha => ha, fun _ _ hr => .inl hr⟩
  case controlTimeout call m hR | controlFinish call m hR =>
    rw [getElem?_erase]
    split
    · rename_i hn
      obtain rfl : m = n := Std.LawfulEqOrd.eq_of_compare hn
      exact ⟨fun _ => by simp, fun _ _ => .inr (.inl ⟨call, hR, by simp⟩)⟩
    · exact .refl ..
  all_goals exact .refl ..

/-! ## Numbers of commands -/

theorem exec_controlCounter (h : exec env inner op = some o)
    (hinsert : ∀ call targets, op ≠ .controlInsert call targets) :
    o.shared.controlCounter = inner.controlCounter := by
  have hs := exec_shared h
  generalize o.shared = inner' at hs
  cases hs with
  | controlInsert call targets runs => cases hinsert call targets rfl
  | _ => rfl

/-- Messages that are not commands of a control call carry no number. -/
def unnumbered : Op M → Bool
  | .send _ (.msg (.control c)) => c.commandId == 0
  | _ => true

theorem unnumbered_of_exec (h : exec env inner op = some o) (hop' : op' ∈ o.ops) :
    unnumbered op' = true := by
  have horigin := exec_ops h op' hop'
  unfold unnumbered
  split
  · exact beq_iff_eq.2 horigin
  · rfl

/-! ## Commands under way -/

abbrev Runs (M : Metering) : Type := Std.ExtTreeMap String (ControllerRun M) compare

/-- The command is on record, and its record has the property `P`. -/
def Recorded (runs : Runs M) (R : String) (n : ℕ) (P : PendingControl → Prop) : Prop :=
  ∃ run pending, runs[R]? = some run ∧ run.pendingControls[n]? = some pending ∧ P pending

def Held (runs : Runs M) : Op M → Prop
  | .controlInsert call _ => call.runId ∈ runs
  | .controlSend a _ c => Recorded runs c.runId c.commandId fun p => a ∈ p.expected
  | .controlWait call n | .controlPark call n | .controlTimeout call n =>
    Recorded runs call.runId n fun p => p.action = call.action
  | .controlFinish call n => Recorded runs call.runId n fun p =>
      p.action = call.action ∧ ∀ a ∈ p.expected, a ∈ p.responses
  | _ => True

structure Commands (s : State M) : Prop where
  /-- The sends of a command come before what else its call does. -/
  last : ∀ t, (s.tasks t).Pairwise fun op op' => (attends op).isSome → commandOf op' ≠ commandOf op
  apart : ∀ t t' op op' n, op ∈ s.tasks t → op' ∈ s.tasks t' → commandOf op = some n →
    commandOf op' = some n → t = t'
  numbered : ∀ t op n, op ∈ s.tasks t → commandOf op = some n → n ≤ s.shared.controlCounter
  recorded : ∀ (R : String) (run : ControllerRun M) (n : ℕ) (pending : PendingControl),
    s.shared.runs[R]? = some run → run.pendingControls[n]? = some pending →
      n ≤ s.shared.controlCounter ∧ ∀ a ∈ pending.responses, a ∈ pending.expected
  held : ∀ t, ∀ op ∈ s.tasks t, Held s.shared.runs op
  unnumbered : ∀ t, ∀ op ∈ s.tasks t, unnumbered op = true
  queued : ∀ k c, .msg (.control c) ∈ s.shared.downlinks k → c.commandId ≤ s.shared.controlCounter
  calls : ∀ t, ∀ op ∈ s.tasks t, isCall op = true → ∃ i, t = .control i

theorem commandOf_of_exec (h : exec env inner op = some o) (hop' : op' ∈ o.ops)
    (hn : commandOf op' = some n) : awaits n op ∨
      n = inner.controlCounter + 1 ∧ ∃ call targets, op = .controlInsert call targets := by
  have horigin := exec_ops h op' hop'
  cases op' with
  | controlSend a k c =>
    obtain ⟨call, targets, rfl, -, -, -, hc⟩ := horigin
    exact .inr ⟨(some.inj hn).symm.trans hc, call, targets, rfl⟩
  | controlWait call m =>
    rcases horigin with ⟨targets, rfl⟩ | rfl
    · cases h
      rcases mem_append.1 hop' with hop' | hop'
      · obtain ⟨i, hi, he⟩ := mem_mapIdx.1 hop'
        cases he
      · obtain ⟨-, rfl⟩ := Op.controlWait.inj (mem_singleton.1 hop')
        exact .inr ⟨(some.inj hn).symm, call, targets, rfl⟩
    · exact .inl ⟨call, .inr (some.inj hn ▸ rfl)⟩
  | controlPark call m =>
    obtain rfl := horigin
    exact .inl ⟨call, .inl (some.inj hn ▸ rfl)⟩
  | controlTimeout call m =>
    obtain rfl := horigin
    exact .inl ⟨call, .inr (some.inj hn ▸ rfl)⟩
  | controlFinish call m =>
    obtain ⟨rfl, -⟩ := horigin
    exact .inl ⟨call, .inl (some.inj hn ▸ rfl)⟩
  | _ => cases hn

theorem counter_of_exec (h : exec env inner op = some o) :
    inner.controlCounter ≤ o.shared.controlCounter ∧ ((∃ call targets,
      op = .controlInsert call targets) → o.shared.controlCounter = inner.controlCounter + 1) := by
  by_cases hinsert : ∃ call targets, op = .controlInsert call targets
  · obtain ⟨call, targets, rfl⟩ := hinsert
    cases h
    exact ⟨Nat.le_succ _, fun _ => rfl⟩
  · rw [exec_controlCounter h fun call targets hop => hinsert ⟨call, targets, hop⟩]
    exact ⟨Nat.le_refl _, fun hop => absurd hop hinsert⟩

theorem commandOf_of_step (hstep : Step s act s') (hop' : op' ∈ s'.tasks t)
    (hn : commandOf op' = some n) : (∃ op ∈ s.tasks t, commandOf op = some n) ∨
      n = s.shared.controlCounter + 1 ∧ s'.shared.controlCounter = n ∧
        ∃ env, act = .step t env := by
  rcases mem_of_step hstep hop' with hold | hfirst | ⟨hprog, hexec, hnew⟩
  · exact .inl ⟨op', hold, hn⟩
  · cases op' <;> simp [isFirst, commandOf] at hfirst hn
  · rcases commandOf_of_exec hexec hnew hn with hop | ⟨rfl, hop⟩
    · obtain ⟨⟨call, hop⟩, -⟩ := attends_of_awaits hop
      exact .inl ⟨_, hprog ▸ mem_cons_self, commandOf_of_attends hop⟩
    · exact .inr ⟨rfl, (counter_of_exec hexec).2 hop, _, rfl⟩

theorem counter_le_of_step (hstep : Step s act s') :
    s.shared.controlCounter ≤ s'.shared.controlCounter := by
  cases hstep with
  | exec _ hexec => exact (counter_of_exec hexec).1
  | connect | submit | control => exact Nat.le_refl _

theorem pending_of_step (hstep : Step s act s')
    (hr' : s'.shared.runs[R]? = some run') (hp' : run'.pendingControls[n]? = some pending') :
    ∃ run, s.shared.runs[R]? = some run ∧ (run.pendingControls[n]? = some pending' ∨
      ∃ t, Ran s t (fun _ op o =>
        (∃ pending, run.pendingControls[n]? = some pending ∧ Answering op R n pending pending') ∨
          ∃ call targets, op = .controlInsert call targets ∧ call.runId = R ∧
            n = s.shared.controlCounter + 1 ∧ o.shared.controlCounter = n ∧
            pending' = issued call targets) act s') := by
  rcases run_of_step hstep hr' with
    hr | ⟨t, hprog, hexec, ⟨run, hr, heff⟩ | ⟨sub, selected, -, -, rfl⟩⟩
  · exact ⟨run', hr, .inl hp'⟩
  · refine ⟨run, hr, .inr ⟨t, hprog, hexec, ?_⟩⟩
    refine ((exec_pending hexec hr hr' (.inr heff) n).back pending' hp').imp_right ?_
    rintro ⟨call, targets, rfl, hR, rfl, hp⟩
    exact ⟨call, targets, rfl, hR, rfl, (counter_of_exec hexec).2 ⟨call, targets, rfl⟩, hp⟩
  · cases hp'

theorem Recorded.exec {P : PendingControl → Prop} (h : Recorded inner.runs R n P)
    (hexec : exec env inner op = some o)
    (hfresh : ∀ sub selected, op = .insertRun sub selected → sub.runId ≠ R)
    (hn : n ≤ inner.controlCounter) (hends : ¬ends R n op)
    (hP : ∀ p p', Answering op R n p p' → P p → P p') : Recorded o.shared.runs R n P := by
  obtain ⟨run, pending, hr, hp, hpending⟩ := h
  have hrun : ∃ run', o.shared.runs[R]? = some run' ∧
      (run' = run ∨ RunEffect env R run op run') := by
    rcases exec_runs hexec R with he | ⟨run₀, run', hr₀, he, heff⟩ | ⟨sub, selected, hop, hR, -⟩
    · exact ⟨run, he.trans hr, .inl rfl⟩
    · cases hr₀.symm.trans hr
      exact ⟨run', he, .inr heff⟩
    · exact absurd hR (hfresh sub selected hop)
  obtain ⟨run', hr', heff⟩ := hrun
  have hstep := exec_pending hexec hr hr' heff n
  rcases hstep.forth pending hp with ⟨pending', hp'⟩ | he | he
  · rcases hstep.back pending' hp' with ⟨p, hp₀, hans⟩ | ⟨-, -, -, -, he, -⟩
    · obtain rfl := some.inj (hp₀.symm.trans hp)
      exact ⟨run', pending', hr', hp', hP p pending' hans hpending⟩
    · omega
  · cases hends he
  · omega

theorem answered_of_card (hkeys : ∀ a ∈ pending.responses, a ∈ pending.expected)
    (hcard : pending.expected.card ≤ pending.responses.size) :
    ∀ a ∈ pending.expected, a ∈ pending.responses := by
  have hsub : pending.responses.keys.toFinset ⊆ pending.expected := by
    intro a ha
    exact hkeys a (mem_keys.1 (mem_toFinset.1 ha))
  have hsize : pending.responses.keys.toFinset.card = pending.responses.size := by
    rw [toFinset_card_of_nodup nodup_keys, length_keys]
  intro a ha
  rw [← Finset.eq_of_subset_of_card_le hsub (hcard.trans hsize.ge)] at ha
  exact mem_keys.1 (mem_toFinset.1 ha)

section

variable {rest : List (Op M)} (h : Commands s) (hlife : Life s) (hprog : s.tasks t = op :: rest)
  (hexec : exec env s.shared op = some o)

include h hprog

theorem Commands.last_exec (hexec : exec env s.shared op = some o) : (o.ops ++ rest).Pairwise
    fun op op' => (attends op).isSome → commandOf op' ≠ commandOf op := by
  have hlast := h.last t
  rw [hprog, pairwise_cons] at hlast
  refine pairwise_append.2 ⟨?_, hlast.2, fun op₁ h₁ op₂ h₂ hcall he => ?_⟩
  · by_cases hnone : ∃ op₁ ∈ o.ops, ∃ c, attends op₁ = some c
    · obtain ⟨op₁, h₁, c, hc⟩ := hnone
      rcases commandOf_of_exec hexec h₁ (commandOf_of_attends hc) with hop | ⟨-, call, targets, rfl⟩
      · obtain ⟨⟨call, hop⟩, hends⟩ := attends_of_awaits hop
        rcases exec_attends hexec hop with ⟨op', he, -⟩ | he | ⟨-, he⟩
        · exact he ▸ pairwise_singleton ..
        · exact absurd he (hends _ _)
        · exact he ▸ List.Pairwise.nil
      · cases hexec
        have hsend : ∀ op₁ ∈ (controlOps call (s.shared.controlCounter + 1) targets : List (Op M)),
            ¬(attends op₁).isSome := by
          intro op₁ h₁
          obtain ⟨i, hi, rfl⟩ := mem_mapIdx.1 h₁
          exact nofun
        refine pairwise_append.2 ⟨pairwise_of_forall_mem_list fun op₁ h₁ _ _ hcall => ?_,
          pairwise_singleton .., fun op₁ h₁ _ _ hcall => ?_⟩
        · exact absurd hcall (hsend op₁ h₁)
        · exact absurd hcall (hsend op₁ h₁)
    · refine pairwise_of_forall_mem_list fun op₁ h₁ _ _ hcall => absurd ?_ hnone
      exact ⟨op₁, h₁, isSome_iff_exists.1 hcall⟩
  · obtain ⟨c, hc⟩ := isSome_iff_exists.1 hcall
    have hn := commandOf_of_attends hc
    rcases commandOf_of_exec hexec h₁ hn with hop | ⟨hfresh, -⟩
    · obtain ⟨⟨call, hop⟩, -⟩ := attends_of_awaits hop
      exact hlast.1 op₂ h₂ (hop ▸ rfl) (he.trans (hn.trans (commandOf_of_attends hop).symm))
    · have := h.numbered t op₂ c.2 (hprog ▸ mem_cons_of_mem _ h₂) (he.trans hn)
      omega

include hlife

theorem Commands.recorded_exec {P : PendingControl → Prop} (hr : Recorded s.shared.runs R n P)
    (hexec : exec env s.shared op = some o) (hends : ¬ends R n op)
    (hP : ∀ p p', Answering op R n p p' → P p → P p') : Recorded o.shared.runs R n P := by
  have hr₀ := hr
  obtain ⟨run, pending, hrun, hp, -⟩ := hr₀
  refine hr.exec hexec ?_ (h.recorded R run n pending hrun hp).1 hends hP
  rintro sub selected rfl rfl
  cases (getElem?_eq_none (hlife.head hprog).2.2).symm.trans hrun

theorem Commands.held_keep {t' : TaskId} (hmem : op' ∈ s.tasks t') (hne : t' = t → op' ∈ rest)
    (hexec : exec env s.shared op = some o) : Held o.shared.runs op' := by
  have hends : ∀ {R n}, commandOf op' = some n → ¬ends R n op := by
    intro R n hn he
    obtain ⟨hop, hattends⟩ := attends_of_ends he
    obtain rfl := h.apart t' t op' op n hmem (hprog ▸ mem_cons_self) hn hop
    have hlast := h.last t'
    rw [hprog, pairwise_cons] at hlast
    exact hlast.1 op' (hne rfl) hattends (hn.trans hop.symm)
  have hheld := h.held t' op' hmem
  cases op' with
  | controlInsert call targets => exact exec_mem_runs hexec hheld
  | controlSend a k c =>
    refine h.recorded_exec hlife hprog hheld hexec (hends rfl) fun p p' hans ha => ?_
    rw [hans.expected]
    exact ha
  | controlWait call m | controlPark call m | controlTimeout call m =>
    exact h.recorded_exec hlife hprog hheld hexec (hends rfl) fun p p' hans ha =>
      hans.action.trans ha
  | controlFinish call m =>
    refine h.recorded_exec hlife hprog hheld hexec (hends rfl) fun p p' hans ha => ?_
    rw [hans.action, hans.expected]
    exact ⟨ha.1, fun a hexp => hans.grown a (ha.2 a hexp)⟩
  | _ => trivial

theorem Commands.held_new (hexec : exec env s.shared op = some o) (hop' : op' ∈ o.ops) :
    Held o.shared.runs op' := by
  have horigin := exec_ops hexec op' hop'
  have hheld := h.held t op (hprog ▸ mem_cons_self)
  -- the record that goes with the sends and the wait of a fresh command
  have hissue : ∀ call targets, op = .controlInsert call targets →
      Recorded o.shared.runs call.runId (s.shared.controlCounter + 1) (· = issued call targets) := by
    rintro call targets rfl
    obtain ⟨run, hr⟩ : ∃ run, s.shared.runs[call.runId]? = some run :=
      ⟨_, getElem?_eq_some_getElem hheld⟩
    cases hexec
    refine ⟨{ run with pendingControls := (run.pendingControls.insert
      (s.shared.controlCounter + 1) (issued call targets)) }, issued call targets, ?_, ?_, rfl⟩
    · exact (getElem?_modifyRun_self ..).trans (congrArg (Option.map _) hr)
    · exact getElem?_insert_self
  cases op' with
  | controlInsert call targets =>
    obtain ⟨rfl, run, hr, -⟩ := horigin
    exact exec_mem_runs hexec (mem_iff_isSome_getElem?.2 (hr ▸ rfl))
  | controlSend a k c =>
    obtain ⟨call, targets, hop, htarget, hR, -, hc⟩ := horigin
    obtain ⟨run, _, hr, hp, rfl⟩ := hissue call targets hop
    rw [← hR] at hr
    rw [← hc] at hp
    exact ⟨run, _, hr, hp, mem_toFinset.2 (mem_map_of_mem htarget)⟩
  | controlWait call m =>
    rcases commandOf_of_exec hexec hop' rfl with hm | ⟨rfl, call', targets, hop⟩
    · rcases horigin with ⟨targets, rfl⟩ | rfl
      · obtain ⟨_, he | he⟩ := hm <;> cases he
      · exact h.recorded_exec hlife hprog hheld hexec ((attends_of_awaits hm).2 _ _)
          fun p p' hans ha => hans.action.trans ha
    · rcases horigin with ⟨targets', rfl⟩ | rfl
      · obtain ⟨run, _, hr, hp, rfl⟩ := hissue call targets' rfl
        exact ⟨run, _, hr, hp, rfl⟩
      · cases hop
  | controlPark call m | controlTimeout call m =>
    obtain rfl := horigin
    exact h.recorded_exec hlife hprog hheld hexec ((attends_of_awaits (n := m) ⟨call, by simp⟩).2 _ _)
      fun p p' hans ha => hans.action.trans ha
  | controlFinish call m =>
    obtain ⟨rfl, run, hr, hcomplete⟩ := horigin
    obtain ⟨run₀, pending, hr₀, hp, haction⟩ := hheld
    obtain rfl := some.inj (hr₀.symm.trans hr)
    rw [controlComplete, hp, all_some, decide_eq_true_eq] at hcomplete
    have hall := answered_of_card (h.recorded _ _ _ _ hr hp).2 hcomplete
    have hrec : Recorded s.shared.runs call.runId m fun p =>
        p.action = call.action ∧ ∀ a ∈ p.expected, a ∈ p.responses :=
      ⟨run₀, pending, hr, hp, haction, hall⟩
    refine h.recorded_exec hlife hprog hrec hexec ((attends_of_awaits ⟨call, .inl rfl⟩).2 _ _) ?_
    intro p p' hans ha
    rw [hans.action, hans.expected]
    exact ⟨ha.1, fun a hexp => hans.grown a (ha.2 a hexp)⟩
  | _ => trivial

end

theorem Commands.queued_exec {rest : List (Op M)} (h : Commands s) (hprog : s.tasks t = op :: rest)
    (hexec : exec env s.shared op = some o) (k : ℕ) (c : Control)
    (hc : .msg (.control c) ∈ o.shared.downlinks k) : c.commandId ≤ o.shared.controlCounter := by
  have hop : op ∈ s.tasks t := hprog ▸ mem_cons_self
  refine Nat.le_trans ?_ (counter_of_exec hexec).1
  rcases exec_queued hexec hc with hc | ⟨rfl, -⟩ | ⟨a, c', rfl, he⟩ | ⟨seq, he⟩
  · exact h.queued k c hc
  · have hzero : c.commandId = 0 := beq_iff_eq.1 (h.unnumbered t _ hop)
    omega
  · cases he
    exact h.numbered t _ _ hop rfl
  · cases he

theorem Commands.step (h : Commands s) (hlife : Life s) (hstep : Step s act s') : Commands s' := by
  have hcount := counter_le_of_step hstep
  refine ⟨fun t' => ?_, fun t₁ t₂ op₁ op₂ n h₁ h₂ hn₁ hn₂ => ?_,
    fun t' op' n hop' hn => ?_, fun R run' n pending' hr' hp' => ?_, fun t' op' hop' => ?_,
    fun t' op' hop' => ?_, fun k c hc => ?_, fun t' op' hop' hcall => ?_⟩
  · rcases program_of_step hstep t' with he | ⟨op, -, he⟩ | ⟨env, op, rest, o, hprog, hexec, he⟩
    · exact he ▸ h.last t'
    · exact he ▸ pairwise_singleton ..
    · exact he ▸ h.last_exec hprog hexec
  · rcases commandOf_of_step hstep h₁ hn₁ with ⟨op₁', hold₁, hn₁'⟩ | ⟨hn, -, env₁, hact₁⟩
    · rcases commandOf_of_step hstep h₂ hn₂ with ⟨op₂', hold₂, hn₂'⟩ | ⟨hn, -, -⟩
      · exact h.apart t₁ t₂ op₁' op₂' n hold₁ hold₂ hn₁' hn₂'
      · have := h.numbered t₁ op₁' n hold₁ hn₁'
        omega
    · rcases commandOf_of_step hstep h₂ hn₂ with ⟨op₂', hold₂, hn₂'⟩ | ⟨-, -, env₂, hact₂⟩
      · have := h.numbered t₂ op₂' n hold₂ hn₂'
        omega
      · cases hact₁.symm.trans hact₂
        rfl
  · rcases commandOf_of_step hstep hop' hn with ⟨op₀, hold, hn₀⟩ | ⟨-, hle, -⟩
    · exact (h.numbered t' op₀ n hold hn₀).trans hcount
    · exact hle.ge
  · obtain ⟨run, hr, hp | hp⟩ := pending_of_step hstep hr' hp'
    · obtain ⟨hle, hkeys⟩ := h.recorded R run n pending' hr hp
      exact ⟨hle.trans hcount, hkeys⟩
    · obtain ⟨t₀, hprog₀, -, hp | ⟨-, -, -, -, -, hle, rfl⟩⟩ := hp
      · obtain ⟨pending, hp, hans⟩ := hp
        obtain ⟨hle, hkeys⟩ := h.recorded R run n pending hr hp
        refine ⟨hle.trans hcount, fun a ha => ?_⟩
        rw [hans.expected]
        rcases hans.new a _ (getElem?_eq_some_getElem ha) with
          hr | ⟨k, c, rfl, rfl, rfl, -⟩ | ⟨rc, ack, -, rfl, ha, -⟩
        · exact hkeys a (mem_iff_isSome_getElem?.2 (hr ▸ rfl))
        · obtain ⟨run₁, pending₁, hr₁, hp₁, hexp⟩ :=
            h.held t₀ _ (hprog₀ ▸ mem_cons_self)
          cases hr₁.symm.trans hr
          cases hp₁.symm.trans hp
          exact hexp
        · exact ha
      · exact ⟨hle.ge, fun a ha => absurd ha not_mem_empty⟩
  · rcases step_cases hstep with ⟨t, hprog, hexec, -⟩ | ⟨t, op, ho⟩
    · rcases mem_commit hprog hexec hop' with ⟨hold, hne⟩ | hbegins | ⟨rfl, hnew⟩
      · exact h.held_keep hlife hprog hold hne hexec
      · cases op' <;> trivial
      · exact h.held_new hlife hprog hexec hnew
    · rcases ho.mem hop' with hold | ⟨-, rfl⟩
      · exact ho.runs ▸ h.held t' op' hold
      · cases op' <;> first | trivial | exact ho.begins.elim
  · rcases mem_of_step hstep hop' with hold | hfirst | ⟨-, hexec, hnew⟩
    · exact h.unnumbered t' op' hold
    · cases op' <;> first | rfl | cases hfirst
    · exact unnumbered_of_exec hexec hnew
  · rcases step_cases hstep with ⟨t, hprog, hexec, -⟩ | ⟨t, op, ho⟩
    · exact h.queued_exec hprog hexec k c hc
    · rw [ho.controls]
      exact h.queued k c (((ho.downlinks k _).1 hc).resolve_right fun he => nomatch he.2)
  · rcases ahead_of_step hstep hop' with hold | hbegins | ⟨hprog, hexec, hnew⟩
    · exact h.calls t' op' hold hcall
    · cases op' with
      | controlRun call =>
        obtain ⟨i, -, ht⟩ := hbegins
        exact ⟨i, ht⟩
      | registerAgent | reserveAgents | barrierCheck | tick => cases hcall
      | _ => exact hbegins.elim
    · exact h.calls t' _ (hprog ▸ mem_cons_self) (isCall_of_exec hexec hnew hcall)

theorem commands_of_reachable : (machine M).Reachable s → Commands s := by
  refine invariant_of_step (fun liveness => ?_) fun hreach h₁ hstep =>
    h₁.step (life_of_reachable hreach) hstep
  have hsweep : ∀ t, ∀ op ∈ (initial M liveness).tasks t, op = .sweep := initial_tasks liveness
  refine ⟨fun t => ?_, fun t t' op op' n hop _ hn _ => ?_, fun t op n hop hn => ?_,
    fun R run n pending hr => ?_, fun t op hop => ?_, fun t op hop => ?_, fun k c => nofun,
    fun t op hop hcall => ?_⟩
  · refine pairwise_of_forall_mem_list fun op hop _ _ hcall => ?_
    rw [hsweep t op hop] at hcall
    cases hcall
  · rw [hsweep t op hop] at hn
    cases hn
  · rw [hsweep t op hop] at hn
    cases hn
  · cases hr
  · rw [hsweep t op hop]
    trivial
  · rw [hsweep t op hop]
    rfl
  · rw [hsweep t op hop] at hcall
    cases hcall

/-! ## Calls that return -/

def Executes (e : State M × Action M) (op : Op M) : Prop :=
  ∃ t env rest, e.2 = .step t env ∧ e.1.tasks t = op :: rest

/-- Command `n` of the run `R` has been issued to the agents `T`. -/
def Issued (l : List (State M × Action M)) (R : String) (n : ℕ) (T : Finset String) : Prop :=
  ∃ e ∈ l, ∃ call targets, Executes e (.controlInsert call targets) ∧ call.runId = R ∧
    n = e.1.shared.controlCounter + 1 ∧ T = (targets.map (·.1)).toFinset

/-- An acknowledgement of the agent `a` that command `n` was applied has been handled. -/
def Reported (l : List (State M × Action M)) (R : String) (n : ℕ) (a : String) : Prop :=
  ∃ e ∈ l, ∃ rc ack, Executes e (.applyAgentMessage rc (.controlAck ack)) ∧ rc.agentId = a ∧
    ack.runId = R ∧ ack.commandId = n ∧ ack.applied = true

/-- A call is at work on command `n` of the run `R`. -/
def Attended (s : State M) (R : String) (n : ℕ) : Prop :=
  ∃ i, ∃ op ∈ s.tasks (.control i), ∃ call, attends op = some (call, n) ∧ call.runId = R

structure Credited (l : List (State M × Action M)) (s : State M) : Prop where
  pending : ∀ (R : String) (run : ControllerRun M) (n : ℕ) (pending : PendingControl),
    s.shared.runs[R]? = some run → run.pendingControls[n]? = some pending →
      Issued l R n pending.expected ∧ Attended s R n ∧
        ∀ a r, pending.responses[a]? = some r → r.isOk = true → Reported l R n a
  returned : ∀ n T, .controlReturned n T true ∈ s.trace →
    ∃ R, Issued l R n T ∧ ∀ a ∈ T, Reported l R n a

variable {l : List (State M × Action M)} {T : Finset String} {a : String}

theorem Issued.cons (h : Issued l R n T) (e : State M × Action M) : Issued (e :: l) R n T :=
  exists_mem_cons_of_exists h

theorem Reported.cons (h : Reported l R n a) (e : State M × Action M) : Reported (e :: l) R n a :=
  exists_mem_cons_of_exists h

theorem ends_not_pending (hexec : exec env inner op = some o) (hends : ends R n op)
    (hr' : o.shared.runs[R]? = some run') : run'.pendingControls[n]? = none := by
  obtain ⟨call, rfl, rfl | rfl⟩ := hends
  all_goals
    cases hexec
    rcases withRun_cases inner call.runId _ with ⟨hr, he⟩ | ⟨run, hr, he⟩
    · rw [he, hr] at hr'
      cases hr'
    · rw [he, getElem?_modifyRun_self, hr] at hr'
      cases hr'
      exact getElem?_erase_self

theorem Attended.step (h : Attended s R n) (hr : s.shared.runs[R]? = some run)
    (hstep : Step s act s') (hr' : s'.shared.runs[R]? = some run')
    (hp' : run'.pendingControls[n]? = some pending') : Attended s' R n := by
  obtain ⟨i, op', hop', call, hop, rfl⟩ := h
  cases hstep with
  | @exec t env op rest o hprog hexec =>
    rw [Attended]
    refine ⟨i, ?_⟩
    rw [commit_tasks_of_ne hexec (.control i) fun _ => ⟨nofun, nofun⟩]
    split_ifs with ht
    · subst ht
      rw [hprog] at hop'
      rcases mem_cons.1 hop' with rfl | hrest
      · rcases exec_attends hexec hop with ⟨op₁, he, hop₁⟩ | hends | ⟨hnone, -⟩
        · exact ⟨op₁, he ▸ mem_cons_self, call, hop₁, rfl⟩
        · cases (ends_not_pending hexec hends hr').symm.trans hp'
        · cases hnone.symm.trans hr
      · exact ⟨op', mem_append_right _ hrest, call, hop, rfl⟩
    · exact ⟨op', hop', call, hop, rfl⟩
  | connect | submit => exact ⟨i, op', hop', call, hop, rfl⟩
  | control m call' hidle =>
    have hne : TaskId.control i ≠ .control m := by
      intro he
      rw [he, hidle] at hop'
      cases hop'
    refine ⟨i, op', ?_, call, hop, rfl⟩
    show op' ∈ Function.update s.tasks _ _ _
    rw [Function.update_of_ne hne]
    exact hop'

theorem Credited.step (h : Credited l s) (hcommands : Commands s) (hstep : Step s act s') :
    Credited ((s, act) :: l) s' := by
  refine ⟨fun R run' n pending' hr' hp' => ?_, fun n T hT => ?_⟩
  · obtain ⟨run, hr, hp | ⟨t, hprog, hexec, ⟨p, hp, hans⟩ | hnew⟩⟩ := pending_of_step hstep hr' hp'
    · obtain ⟨hissued, hattended, hok⟩ := h.pending R run n pending' hr hp
      exact ⟨hissued.cons _, hattended.step hr hstep hr' hp', fun a r hr hr' =>
        (hok a r hr hr').cons _⟩
    · obtain ⟨hissued, hattended, hok⟩ := h.pending R run n p hr hp
      refine ⟨hans.expected ▸ hissued.cons _, hattended.step hr hstep hr' hp', fun a r hr hr' => ?_⟩
      rcases hans.new a r hr with hr | ⟨k, c, -, -, -, hno⟩ | ⟨rc, ack, rfl, ha, -, hR, hn, -, hap⟩
      · exact (hok a r hr hr').cons _
      · cases hno.symm.trans hr'
      · exact ⟨_, mem_cons_self, rc, ack, ⟨t, _, _, rfl, hprog⟩, ha, hR, hn, hap hr'⟩
    · obtain ⟨call, targets, rfl, rfl, rfl, -, rfl⟩ := hnew
      obtain ⟨i, rfl⟩ := hcommands.calls t _ (hprog ▸ mem_cons_self) rfl
      refine ⟨⟨_, mem_cons_self, call, targets, ⟨_, _, _, rfl, hprog⟩, rfl, rfl, rfl⟩,
        ⟨i, .controlWait call _, ?_, call, rfl, rfl⟩, fun a r hr => ?_⟩
      · rw [commit_tasks_of_ne hexec (.control i) fun _ => ⟨nofun, nofun⟩, if_pos rfl]
        cases hexec
        simp
      · cases getElem?_empty.symm.trans hr
  · rcases step_cases hstep with ⟨t, hprog, hexec, -⟩ | ⟨t, op, ho⟩
    · rcases mem_append.1 hT with hnew | hold
      · obtain ⟨call, run, pending, rfl, hr, hp, rfl, hok⟩ := exec_events hexec _ hnew rfl
        obtain ⟨run₀, pending₀, hr₀, hp₀, -, hall⟩ := hcommands.held t _ (hprog ▸ mem_cons_self)
        cases hr₀.symm.trans hr
        cases hp₀.symm.trans hp
        obtain ⟨hissued, -, happlied⟩ := h.pending _ _ n _ hr hp
        refine ⟨call.runId, hissued.cons _, fun a ha => ?_⟩
        have hget := getElem?_eq_some_getElem (hall a ha)
        refine (happlied a _ hget (hok (a, _) ?_)).cons _
        rw [answers, hp]
        exact mem_toList_iff_getElem?_eq_some.2 hget
      · obtain ⟨R, hissued, hall⟩ := h.returned n T hold
        exact ⟨R, hissued.cons _, fun a ha => (hall a ha).cons _⟩
    · obtain ⟨R, hissued, hall⟩ := h.returned n T (ho.trace ▸ hT)
      exact ⟨R, hissued.cons _, fun a ha => (hall a ha).cons _⟩

theorem credited_of_history (h : (machine M).History l s) : Credited l s := by
  induction h with
  | init h =>
    obtain ⟨liveness, rfl⟩ := h
    exact ⟨fun R run n pending hr => (nomatch hr), nofun⟩
  | step h hs ih => exact ih.step (commands_of_reachable h.reachable) (step_of_next hs)

/-- A call returns success only for a command that every agent it was issued to has reported as
applied, and a command is off the record once no call is at work on it. -/
theorem control_ok_of_applied (h : (machine M).History l s) :
    (∀ n T, .controlReturned n T true ∈ s.trace → ∃ R, Issued l R n T ∧ ∀ a ∈ T, Reported l R n a) ∧
    ∀ (R : String) (run : ControllerRun M) (n : ℕ), s.shared.runs[R]? = some run →
      n ∈ run.pendingControls → Attended s R n := by
  have hcredited := credited_of_history h
  refine ⟨hcredited.returned, fun R run n hr hn => ?_⟩
  exact (hcredited.pending R run n _ hr (getElem?_eq_some_getElem hn)).2.1

def pausedRun : List (Action listing) :=
  let call : ControlCall := { runId := "r", action := .pause, scenario := "", vusTotal := none }
  let ack : ControlAck :=
    { runId := "r", commandId := 1, action := .pause, scenario := "", value := 0, applied := true
      detail := "" }
  startedRun ++ [.control 0 call] ++ steps (.control 0) 6 ++
    [inbound 1 2 (.controlAck ack)] ++ steps (.session 1) 2 ++ steps (.control 0) 3

theorem control_ok_of_applied_pause : ∃ l s, (machine listing).History l s ∧
    .controlReturned 1 {"a"} true ∈ s.trace ∧ ∃ R, Issued l R 1 {"a"} ∧ Reported l R 1 "a" := by
  obtain ⟨s, hs, hT⟩ := (machine listing).exists_reachable_of_run (initialized 5) pausedRun
    (fun s => .controlReturned 1 {"a"} true ∈ s.trace) (by decide +kernel)
  obtain ⟨l, hl⟩ := hs.exists_history
  obtain ⟨R, hissued, hall⟩ := (control_ok_of_applied hl).1 1 {"a"} hT
  exact ⟨l, s, hl, hT, R, hissued, hall "a" (Finset.mem_singleton_self "a")⟩

end Controller

end Loadr
