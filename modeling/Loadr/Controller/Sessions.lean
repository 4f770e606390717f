import Loadr.Controller.InOrder
import Loadr.Controller.Causes

/-!
# Sessions and their registration

A session registers once, with its first operation.  The followups of the registration run before
the session waits for its first message, and they are about the agent that has registered
(`Controller.Handled`); until then the session is `registering`.
-/

namespace Loadr

open List Bool

namespace Controller

variable {M : Metering} {env : Env M} {inner : Inner M} {op : Op M} {o : Outcome M}
  {s s' : State M} {R a : String} {k : ℕ}

def isRegistration (a : String) (k : ℕ) : Event → Bool
  | .registered a' k' _ _ => a' == a && k' == k
  | _ => false

/-! ## Sessions register once -/

structure Sessions (s : State M) : Prop where
  tidy : ∀ t, Tidy t (s.tasks t)
  unopened : ∀ k, s.shared.sessionCounter < k → s.tasks (.session k) = []
  known : ∀ a k, s.trace.any (isRegistration a k) = true → k ≤ s.shared.sessionCounter
  fresh : ∀ reg k, .registerAgent reg k ∈ s.tasks (.session k) →
    ∀ a, s.trace.any (isRegistration a k) = false

variable {k' : ℕ} {reg : Register} {rest : List (Op M)} {op' : Op M}

theorem not_mem_rest (h : SessionProg k (op :: rest)) : .registerAgent reg k' ∉ rest := by
  intro hm
  have hmem : .registerAgent reg k' ∈ op :: rest := mem_cons_of_mem _ hm
  generalize hl : op :: rest = p at h hmem
  cases h with
  | registering reg' =>
    cases hl
    cases hm
  | serving ops tail hq htail =>
    rcases mem_append.1 hmem with hin | hin
    · exact (hq _ hin).elim
    · cases htail <;> simp at hin
  | admitting | handing => simp at hmem

section

variable {t : TaskId} (h : Sessions s) (hprog : s.tasks t = op :: rest)
  (hexec : exec env s.shared op = some o)

include h hprog

theorem Sessions.registering (hop : op = .registerAgent reg k) : t = .session k ∧ rest = [] := by
  subst hop
  obtain ⟨k', rfl, rfl, hrest⟩ := session_of_head h.tidy hprog fun hq => hq
  exact ⟨rfl, hrest⟩

include hexec

theorem Sessions.registration_cases (hreg : (o.events ++ s.trace).any (isRegistration a k) = true) :
    s.trace.any (isRegistration a k) = true ∨ t = .session k ∧
      ∃ reg, op = .registerAgent reg k ∧ reg.agentId = a := by
  rw [any_append, or_eq_true] at hreg
  rcases hreg with hnew | hold
  · obtain ⟨e, he, hk⟩ := any_eq_true.1 hnew
    have hlogs := exec_events hexec e he
    cases e <;> simp only [isRegistration, false_eq_true] at hk
    case registered a' k' resume restarted =>
      obtain ⟨reg, hop, ha, -, -⟩ := hlogs
      rw [and_eq_true, beq_iff_eq, beq_iff_eq] at hk
      obtain ⟨rfl, rfl⟩ := hk
      exact .inr ⟨(h.registering hprog hop).1, reg, hop, ha⟩
  · exact .inl hold

theorem Sessions.fresh_exec (hk : .registerAgent reg k ∈ (s.commit t rest o).tasks (.session k)) :
    (o.events ++ s.trace).any (isRegistration a k) = false := by
  have hnew : .registerAgent reg k ∈ s.tasks (.session k) ∧ .session k ≠ t := by
    rcases mem_commit hprog hexec hk with ⟨hold, hrest⟩ | hbegins | ⟨-, hops⟩
    · refine ⟨hold, fun ht => ?_⟩
      have htidy := h.tidy t
      rw [hprog, ← ht] at htidy
      exact not_mem_rest htidy (hrest ht)
    · cases hbegins.1
    · exact (exec_ops hexec _ hops).elim
  by_contra hreg
  rw [not_eq_false] at hreg
  rcases h.registration_cases hprog hexec hreg with hold | ⟨ht, -⟩
  · exact absurd hold (by rw [h.fresh reg k hnew.1 a]; exact nofun)
  · exact hnew.2 ht.symm

theorem Sessions.known_exec (hreg : (o.events ++ s.trace).any (isRegistration a k) = true) :
    k ≤ o.shared.sessionCounter := by
  rw [(exec_counters hexec).1]
  rcases h.registration_cases hprog hexec hreg with hold | ⟨rfl, -⟩
  · exact h.known a k hold
  · by_contra hk
    cases (h.unopened k (by omega)).symm.trans hprog

end

theorem Sessions.step {act : Action M} (h : Sessions s) (hstep : Step s act s') : Sessions s' := by
  refine ⟨tidy_step h.tidy hstep, unopened_step h.unopened hstep, ?_, ?_⟩ <;>
    rcases step_cases hstep with ⟨t, hprog, hexec, -⟩ | ⟨t, op, ho⟩
  · exact fun a k => h.known_exec hprog hexec
  · intro a k hreg
    exact (h.known a k (ho.trace ▸ hreg)).trans ho.counter
  · exact fun reg k hk a => h.fresh_exec hprog hexec hk
  · intro reg k hk a
    rw [ho.trace]
    rcases ho.mem hk with hold | ⟨ht, -⟩
    · exact h.fresh reg k hold a
    · by_contra hreg
      rw [not_eq_false] at hreg
      have := h.known a k hreg
      have := (ho.session k ht.symm).1
      omega

theorem sessions_initial (liveness : ℕ) : Sessions (initial M liveness) where
  tidy := tidy_initial liveness
  unopened _ _ := rfl
  known _ _ h := nomatch h
  fresh _ _ h := absurd (initial_tasks liveness _ _ h) nofun

theorem sessions_of_reachable : (machine M).Reachable s → Sessions s :=
  invariant_of_step sessions_initial fun _ => Sessions.step

theorem Sessions.delta {t : TaskId} (h : Sessions s) (hop : op ∈ s.tasks t)
    (hd : isDelta op = true) : ∃ k, t = .session k := by
  have ht := h.tidy t
  cases t with
  | session k => exact ⟨k, rfl⟩
  | submit | control | barrier | ticker | sweeper => cases (ht op hop).2.symm.trans hd

theorem Opens.idle_of_reachable {act : Action M} {t : TaskId} (ho : Opens s act t op s')
    (h : (machine M).Reachable s) : s.tasks t = [] :=
  ho.idle (sessions_of_reachable h).unopened fun R hR => ((life_of_reachable h).unminted R hR).2.1

/-! ## The followups of a registration -/

def handles (a : String) : Op M → Bool
  | .terminateParticipation a' _ | .restartedState a' _ | .restartedDone a' _
  | .restartedLost a' _ | .replayAssignment a' _ | .replayDone a' _ | .replayLost a' _
  | .resumeRun a' _ | .resumeDone a' _ | .resumeLost a' _ | .resumePhase a' _
  | .resumeStart a' _ | .resumeSender a' _ _ | .sendAssignment a' _
  | .recordPrepFailure _ _ _ (.restarted a') => a' == a
  | _ => false

theorem handles_of_exec (h : exec env inner op = some o) (hop' : op' ∈ o.ops)
    (hh : handles a op' = true) :
    handles a op = true ∨ ∃ reg k, op = .registerAgent reg k ∧ reg.agentId = a := by
  have horigin := exec_ops h op' hop'
  cases op' <;> simp only [handles, false_eq_true] at hh
  case recordPrepFailure R reason verdict after =>
    cases after <;> simp only [false_eq_true] at hh
    case restarted =>
      obtain ⟨-, rfl⟩ := horigin
      exact .inl hh
  case terminateParticipation | replayAssignment | resumeRun =>
    obtain ⟨reg, k, hop, hid, -⟩ := horigin
    exact .inr ⟨reg, k, hop, hid.trans (beq_iff_eq.1 hh)⟩
  case restartedState =>
    obtain ⟨-, reason, verdict, rfl⟩ := horigin
    exact .inl hh
  case restartedDone | replayDone | replayLost | resumePhase | resumeStart =>
    obtain rfl := horigin
    exact .inl hh
  case restartedLost | resumeDone | resumeLost | resumeSender =>
    obtain ⟨rfl, -⟩ := horigin
    exact .inl hh
  case sendAssignment => rcases horigin with rfl | rfl <;> exact .inl hh

/-- The program of a session with followups of its registration left. -/
def Registering (a : String) (k : ℕ) (p : List (Op M)) : Prop :=
  ∃ ops, ops ≠ [] ∧ p = ops ++ [.pump a k] ∧ ∀ op ∈ ops, Quiet op

theorem registering_of_mem {ops : List (Op M)} (hquiet : ∀ op ∈ ops, Quiet op)
    (hop' : op' ∈ ops ++ [.pump a k]) (hh : handles a op' = true) :
    Registering a k (ops ++ [.pump a k]) := by
  refine ⟨ops, ?_, rfl, hquiet⟩
  rintro rfl
  obtain rfl := mem_singleton.1 hop'
  cases hh

theorem Registering.exec (hp : Registering a k (op :: rest)) (h : exec env inner op = some o)
    (hop' : op' ∈ o.ops ++ rest) (hh : handles a op' = true) : Registering a k (o.ops ++ rest) := by
  obtain ⟨ops, hne, he, hquiet⟩ := hp
  cases ops with
  | nil => cases hne rfl
  | cons op₀ ops =>
    cases he
    obtain ⟨hop, hops⟩ := forall_mem_cons.1 hquiet
    have hassoc : o.ops ++ (ops ++ [Op.pump a k]) = (o.ops ++ ops) ++ [.pump a k] :=
      (append_assoc _ _ _).symm
    show Registering a k (o.ops ++ (ops ++ [.pump a k]))
    rw [hassoc]
    exact registering_of_mem (forall_mem_append.2 ⟨quiet_of_exec h (.inl hop), hops⟩)
      (hassoc ▸ hop') hh

/-- The followups of a registration are in the program of a session that registers the agent. -/
def Handled (s : State M) : Prop :=
  ∀ t, ∀ op ∈ s.tasks t, ∀ a, handles a op = true →
    ∃ k, t = .session k ∧ Registering a k (s.tasks t)

theorem Handled.step {act : Action M} (h : Handled s) (hsess : Sessions s)
    (hstep : Step s act s') : Handled s' := by
  intro t' op' hop' a hh
  rcases program_of_step hstep t' with he | ⟨op, hbegins, he⟩ | ⟨env, op, rest, o, hprog, hexec, he⟩
  · rw [he] at hop' ⊢
    exact h t' op' hop' a hh
  · rw [he] at hop'
    obtain rfl := mem_singleton.1 hop'
    have hf := hbegins.isFirst
    cases op' <;> simp [handles, isFirst] at hh hf
  · rw [he] at hop' ⊢
    have hkeep : ∀ op₀ ∈ s.tasks t', handles a op₀ = true →
        ∃ k, t' = .session k ∧ Registering a k (o.ops ++ rest) := by
      intro op₀ hop₀ hh₀
      obtain ⟨k, ht, hreg⟩ := h t' op₀ hop₀ a hh₀
      rw [hprog] at hreg
      exact ⟨k, ht, hreg.exec hexec hop' hh⟩
    rcases mem_append.1 hop' with hnew | hrest
    · rcases handles_of_exec hexec hnew hh with hh₀ | ⟨reg, k, rfl, rfl⟩
      · exact hkeep op (hprog ▸ mem_cons_self) hh₀
      · obtain ⟨rfl, rfl⟩ := hsess.registering hprog rfl
        cases hexec
        obtain ⟨ops, hops, hquiet⟩ := quiet_registrationOps (M := M) reg k
          (s.shared.agents.register reg k env.now).1
        have hprog' : (registerAgent env s.shared reg k).ops ++ [] =
            ops ++ [.pump reg.agentId k] := (append_nil _).trans hops
        rw [hprog'] at hop' ⊢
        exact ⟨k, rfl, registering_of_mem hquiet hop' hh⟩
    · exact hkeep op' (hprog ▸ mem_cons_of_mem _ hrest) hh

theorem handled_of_reachable : (machine M).Reachable s → Handled s := by
  refine invariant_of_step (fun liveness t op hop a hh => ?_) fun hreach h hstep =>
    h.step (sessions_of_reachable hreach) hstep
  rw [initial_tasks liveness t op hop] at hh
  cases hh

def waits (a : String) : Op M → Bool
  | .pump a' _ => a' == a
  | _ => false

def isApplied : Op M → Bool
  | .applied _ => true
  | _ => false

/-- `Registering`, as it can be read off the program of a session. -/
def registering (a : String) (p : List (Op M)) : Bool :=
  decide (1 < p.length) && p.any (waits a) && !p.any isApplied

theorem registering_iff {p : List (Op M)} (hp : SessionProg k p) :
    registering a p = true ↔ Registering a k p := by
  have hquiet : ∀ {ops : List (Op M)}, (∀ op ∈ ops, Quiet op) →
      ops.any (waits a) = false ∧ ops.any isApplied = false := by
    intro ops hq
    constructor <;> refine any_eq_false.2 fun op hop hc => ?_
    · have := hq op hop
      cases op <;> simp [waits, Quiet] at hc this
    · have := hq op hop
      cases op <;> simp [isApplied, Quiet] at hc this
  constructor
  · intro h
    simp only [registering, and_eq_true, decide_eq_true_eq, not_eq_true'] at h
    obtain ⟨⟨hlen, hw⟩, happ⟩ := h
    cases hp with
    | registering | admitting => simp at hlen
    | handing => simp [isApplied] at happ
    | serving ops tail hq htail =>
      cases htail with
      | closing =>
        rw [append_nil, (hquiet hq).1] at hw
        cases hw
      | waiting =>
        simp only [any_append, (hquiet hq).1, Bool.false_or, any_cons, waits,
          any_nil, Bool.or_false, beq_iff_eq] at hw
        subst hw
        exact ⟨ops, by rintro rfl; simp at hlen, rfl, hq⟩
      | finishing => simp [isApplied] at happ
  · rintro ⟨ops, hne, rfl, hq⟩
    have hlen := length_pos_iff.2 hne
    simp [registering, hquiet hq, waits, isApplied]
    omega

end Controller

end Loadr
