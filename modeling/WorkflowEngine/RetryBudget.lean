import WorkflowEngine.DefinitionJson
import WorkflowEngine.Executable
import WorkflowEngine.Singleton
import WorkflowEngine.StepHistory

/-!
# The retry budget

While the definition of a workflow name and version stays what it was when it
was first registered, no execution goes beyond the retries of its step,
whether its attempts were reported as failed or swept, and the attempts before
the current one have failed. A visit of a step opens one attempt and then one
more for each retry.
-/

namespace WorkflowEngine
open Txn Ledger Orchestrator WorkflowJson

variable {E : Engine schema} {db db' : E.Db}

namespace Ledger
variable {L L' : Ledger} {ev : Event} {e e' : WorkflowExecution} {d : WorkflowDefinition}
  {key : VersionKey} {id : String}

structure WithinBudget (d : WorkflowDefinition) (L : Ledger) (e : WorkflowExecution) : Prop where
  attempt : ∃ step, findStepDefinition d e.currentStepName = .ok step ∧
    0 ≤ e.currentStepAttempt.toInt ∧ e.currentStepAttempt.toInt ≤ (maxRetriesForStep step).toInt
  earlier : ∀ k : Int32, 0 ≤ k.toInt → k.toInt < e.currentStepAttempt.toInt →
    ∃ s, L.step ⟨e.workflowExecutionId, e.currentStepName, k⟩ = some s ∧ s.status = .failed
  failed : e.status = .failed → ∃ step s, findStepDefinition d e.currentStepName = .ok step ∧
    e.currentStepAttempt = maxRetriesForStep step ∧ L.step e.currentKey = some s ∧
    s.status = .failed ∧ s.failureReason = e.failureReason

/-- One definition of the key, and its executions within its retries. -/
structure Budgeted (key : VersionKey) (d : WorkflowDefinition) (L : Ledger) : Prop where
  definition : ∀ d', L.definition key = some d' → d' = d
  execution : ∀ id e, L.execution id = some e → e.versionKey = key → WithinBudget d L e

theorem budgeted_empty : Budgeted key d empty := ⟨by simp [empty], by simp [empty, Ledger.execution]⟩

theorem Transition.failed_kept {k : StepKey} {s : WorkflowStepExecution} (h : Transition L ev L')
    (inv : Lifecycle L) (hs : L.step k = some s) (hfailed : s.status = .failed)
    (hopen : ev.opens ≠ some k) : L'.step k = some s := by
  obtain ⟨row, hrow, rfl⟩ := step_eq_some.mp hs
  refine step_eq_some.mpr ⟨row, h.row_kept inv hrow ?_ hopen, rfl⟩
  exact not_active_failed hfailed

theorem WithinBudget.earlier_kept (h : WithinBudget d L e) (ht : Transition L ev L')
    (inv : Lifecycle L) (hopen : ∀ k : Int32, k.toInt < e.currentStepAttempt.toInt →
      ev.opens ≠ some ⟨e.workflowExecutionId, e.currentStepName, k⟩) (k : Int32)
    (hk : 0 ≤ k.toInt) (hlt : k.toInt < e.currentStepAttempt.toInt) :
    ∃ s, L'.step ⟨e.workflowExecutionId, e.currentStepName, k⟩ = some s ∧ s.status = .failed := by
  obtain ⟨s, hs, hfailed⟩ := h.earlier k hk hlt
  exact ⟨s, ht.failed_kept inv hs hfailed (hopen k hlt), hfailed⟩

theorem WithinBudget.kept (h : WithinBudget d L e) (ht : Transition L ev L') (inv : Lifecycle L)
    (hopen : ∀ k, ev.opens = some k → k.workflowExecutionId ≠ e.workflowExecutionId) :
    WithinBudget d L' e := by
  refine ⟨h.attempt, h.earlier_kept ht inv fun k _ hk => hopen _ hk rfl, ?_⟩
  intro hstatus
  obtain ⟨step, s, hfound, hattempt, hs, hfailed, hreason⟩ := h.failed hstatus
  exact ⟨step, s, hfound, hattempt, ht.failed_kept inv hs hfailed fun hk => hopen _ hk rfl, hfailed,
    hreason⟩

theorem WithinBudget.ended (h : WithinBudget d L e) (ht : Transition L ev L') (inv : Lifecycle L)
    (hopen : ev.opens = none) (hid : e'.workflowExecutionId = e.workflowExecutionId)
    (hname : e'.currentStepName = e.currentStepName)
    (hattempt : e'.currentStepAttempt = e.currentStepAttempt) (hstatus : e'.status ≠ .failed) :
    WithinBudget d L' e' := by
  refine ⟨?_, ?_, fun h => absurd h hstatus⟩
  · rw [hname, hattempt]
    exact h.attempt
  · rw [hid, hname, hattempt]
    exact h.earlier_kept ht inv fun k _ => by simp [hopen]

theorem attempt_succ {a m : Int32} (h : a < m) : (a + 1).toInt = a.toInt + 1 := by
  rw [Int32.lt_iff_toInt_lt] at h
  have hmax := m.toInt_lt
  have hmin := a.le_toInt
  have hone : (1 : Int32).toInt = 1 := rfl
  rw [Int32.toInt_add, hone, Int.bmod_eq_of_le]
  · omega
  · omega

theorem withinBudget_first (wf : WellFormed d) (hstep : stepDefinitionExists d e.currentStepName = true)
    (hattempt : e.currentStepAttempt = 0) (hstatus : e.status ≠ .failed) : WithinBudget d L e := by
  have hzero : e.currentStepAttempt.toInt = 0 := by rw [hattempt]; rfl
  obtain ⟨s, hs, hname⟩ := List.mem_map.mp (stepDefinitionExists_iff.mp hstep)
  refine ⟨⟨s, hname ▸ findStepDefinition_of_mem wf.names_nodup hs, by omega, ?_⟩, ?_,
    fun h => absurd h hstatus⟩
  · rw [hzero]
    unfold maxRetriesForStep
    cases hretries : s.maxRetries with
    | none => exact Int.le_refl 0
    | some n =>
      have hn := (wf.step s hs).maxRetries n hretries
      rw [Int32.lt_iff_toInt_lt] at hn
      exact Int.not_lt.mp hn
  · intro k hk hlt
    omega

theorem WithinBudget.retried {s : WorkflowStepExecution} {step : WorkflowStep}
    {workerId : Option String} {reason : String} {now at_ createdAt : TimePoint}
    (h : WithinBudget d L e) (inv : Lifecycle L) (failing : L.Failing e s now workerId reason)
    (found : findStepDefinition d e.currentStepName = .ok step)
    (budget : e.currentStepAttempt < maxRetriesForStep step) :
    WithinBudget d (((L.setStep (s.failedFor reason at_)).setExecution e.retried).setStep
      (e.retried.pendingStep s.input createdAt none)) e.retried.stored := by
  have hsucc : e.retried.currentStepAttempt.toInt = e.currentStepAttempt.toInt + 1 :=
    attempt_succ budget
  have hkey := failing.current.step_key inv
  obtain ⟨_, -, hzero, -⟩ := h.attempt
  refine ⟨⟨step, found, ?_, ?_⟩, ?_, ?_⟩
  · change 0 ≤ e.retried.currentStepAttempt.toInt
    omega
  · change e.retried.currentStepAttempt.toInt ≤ _
    rw [Int32.lt_iff_toInt_lt] at budget
    omega
  · intro k hk hlt
    change k.toInt < e.retried.currentStepAttempt.toInt at hlt
    change ∃ t, _ = some t ∧ _
    have hnew : (⟨e.workflowExecutionId, e.currentStepName, k⟩ : StepKey) ≠ e.retried.currentKey := by
      intro heq
      have hattempt : k = e.retried.currentStepAttempt := congrArg StepKey.attempt heq
      rw [hattempt] at hlt
      exact lt_irrefl _ hlt
    have hstep : ∀ key : StepKey, key ≠ e.retried.currentKey →
        (((L.setStep (s.failedFor reason at_)).setExecution e.retried).setStep
          (e.retried.pendingStep s.input createdAt none)).step key =
        if key = e.currentKey then some (s.failedFor reason at_).stored else L.step key := by
      intro key hkey'
      rw [setStep_step, WorkflowExecution.pendingStep_stepKey, if_neg hkey', setExecution_step,
        setStep_step, WorkflowStepExecution.failedFor_stepKey, hkey]
    by_cases hcurrent : k = e.currentStepAttempt
    · refine ⟨_, (hstep _ hnew).trans (if_pos ?_), rfl⟩
      rw [hcurrent]
      rfl
    · have hne : k.toInt ≠ e.currentStepAttempt.toInt := fun heq => hcurrent (Int32.toInt_inj.mp heq)
      obtain ⟨t, ht, hfailed⟩ := h.earlier k hk (by omega)
      refine ⟨t, (hstep _ hnew).trans ((if_neg ?_).trans ht), hfailed⟩
      intro heq
      exact hcurrent (congrArg StepKey.attempt heq)
  · intro hstatus
    have hrunning := failing.current.running
    rw [WorkflowExecution.stored_status] at hstatus
    rw [show e.retried.status = e.status from rfl, hrunning] at hstatus
    cases hstatus

theorem WithinBudget.exhausted {s : WorkflowStepExecution} {step : WorkflowStep}
    {workerId : Option String} {reason : String} {now at_ at' : TimePoint}
    (h : WithinBudget d L e) (inv : Lifecycle L) (failing : L.Failing e s now workerId reason)
    (ht : Transition L ev ((L.setStep (s.failedFor reason at_)).setExecution (e.failedFor reason at')))
    (hopen : ev.opens = none)
    (found : findStepDefinition d e.currentStepName = .ok step)
    (spent : ¬ e.currentStepAttempt < maxRetriesForStep step) :
    WithinBudget d ((L.setStep (s.failedFor reason at_)).setExecution (e.failedFor reason at'))
      (e.failedFor reason at').stored := by
  refine ⟨h.attempt, h.earlier_kept ht inv fun k _ => by simp [hopen], fun _ => ?_⟩
  obtain ⟨step', hfound', -, hle⟩ := h.attempt
  obtain rfl := Except.ok.inj (found.symm.trans hfound')
  rw [Int32.lt_iff_toInt_lt] at spent
  refine ⟨step, (s.failedFor reason at_).stored, found, ?_, ?_, rfl, rfl⟩
  · apply Int32.toInt_inj.mp
    exact Int.le_antisymm hle (Int.not_lt.mp spent)
  · rw [setExecution_step, setStep_step, if_pos]
    exact (failing.current.step_key inv).symm

theorem Transition.budgeted (h : Transition L ev L') (inv : Lifecycle L) (wf : WellFormed d)
    (hregister : ∀ d', ev = .registered d' → (d'.workflowName, d'.workflowVersion) = key → d' = d)
    (b : Budgeted key d L) : Budgeted key d L' := by
  have htransition := h
  -- Executions that the event is not about.
  have hother : ∀ {id e}, L.execution id = some e → e.versionKey = key →
      (∀ k, ev.opens = some k → k.workflowExecutionId ≠ id) → WithinBudget d L' e := by
    intro id e he hkey hopen
    have hid := (inv id).execution_id e he
    exact (b.execution id e he hkey).kept htransition inv (hid ▸ hopen)
  have hopened : ∀ {id e} {k : StepKey}, L.execution id = some e → e.versionKey = key →
      ev.opens = some k → ¬ id = k.workflowExecutionId → WithinBudget d L' e := by
    intro id e k he hkey hk hid
    refine hother he hkey ?_
    intro k' hk' hkid
    obtain rfl := Option.some_inj.mp (hk.symm.trans hk')
    exact hid hkid.symm
  cases h with
  | register d₀ =>
    constructor
    · intro d' hd'
      rw [setDefinition_definition] at hd'
      split_ifs at hd' with hk
      · obtain rfl := Option.some_inj.mp hd'
        exact hregister _ rfl hk.symm
      · exact b.definition d' hd'
    · intro id e he hkey
      refine hother he hkey fun k hk => ?_
      cases hk
  | @start d₀ e₀ createdAt definition fresh unlocked running first attempt state =>
    constructor
    · intro d' hd'
      rw [setStep_definition, setExecution_definition, takeLock_definition] at hd'
      exact b.definition d' hd'
    · intro id e he hkey
      rw [setStep_execution, setExecution_execution] at he
      split_ifs at he with hid
      · obtain rfl := Option.some_inj.mp he
        have hd₀ : d₀ = d := b.definition d₀ (hkey ▸ definition)
        refine withinBudget_first wf ?_ attempt ?_
        · change stepDefinitionExists d e₀.currentStepName = true
          rw [first, hd₀, stepDefinitionExists_iff]
          exact wf.start
        · rw [WorkflowExecution.stored_status, running]
          decide
      · rw [Ledger.execution, takeLock_executionRow] at he
        exact hopened he hkey rfl hid
  | claim step claimable definition duration =>
    refine ⟨b.definition, fun id e he hkey => hother he hkey fun k hk => ?_⟩
    cases hk
  | renew held definition duration =>
    refine ⟨b.definition, fun id e he hkey => hother he hkey fun k hk => ?_⟩
    cases hk
  | finish held =>
    refine ⟨b.definition, fun id e he hkey => ?_⟩
    rw [setExecution_execution] at he
    split_ifs at he with hid
    · obtain rfl := Option.some_inj.mp he
      have hbefore := b.execution _ _ held.execution hkey
      refine hbefore.ended htransition inv rfl rfl rfl rfl fun hf => ?_
      cases hf
    · refine hother he hkey fun k hk => ?_
      cases hk
  | @advance e₀ s d₀ workerId next now at_ createdAt scheduledAt output state input held definition
      defined =>
    refine ⟨b.definition, fun id e he hkey => ?_⟩
    rw [setStep_execution, setExecution_execution] at he
    split_ifs at he with hid
    · obtain rfl := Option.some_inj.mp he
      have hd₀ : d₀ = d := b.definition d₀ (hkey ▸ definition)
      refine withinBudget_first wf (hd₀ ▸ defined) rfl ?_
      rw [WorkflowExecution.stored_status]
      change e₀.status ≠ .failed
      rw [held.running]
      decide
    · exact hopened he hkey rfl hid
  | @retry e₀ s d₀ step workerId reason now at_ createdAt failing definition found budget =>
    refine ⟨b.definition, fun id e he hkey => ?_⟩
    rw [setStep_execution, setExecution_execution] at he
    split_ifs at he with hid
    · obtain rfl := Option.some_inj.mp he
      have hbefore := b.execution _ _ failing.current.execution hkey
      exact hbefore.retried inv failing (b.definition d₀ (hkey ▸ definition) ▸ found) budget
    · exact hopened he hkey rfl hid
  | @exhaust e₀ s d₀ step workerId reason now at_ at' failing definition found spent =>
    refine ⟨b.definition, fun id e he hkey => ?_⟩
    rw [setExecution_execution] at he
    split_ifs at he with hid
    · obtain rfl := Option.some_inj.mp he
      have hbefore := b.execution _ _ failing.current.execution hkey
      exact hbefore.exhausted inv failing htransition rfl
        (b.definition d₀ (hkey ▸ definition) ▸ found) spent
    · refine hother he hkey fun k hk => ?_
      cases hk
  | cancel execution running =>
    refine ⟨b.definition, fun id e he hkey => ?_⟩
    rw [setExecution_execution] at he
    split_ifs at he with hid
    · obtain rfl := Option.some_inj.mp he
      have hbefore := b.execution _ _ execution hkey
      refine hbefore.ended htransition inv rfl rfl rfl rfl fun hf => ?_
      cases hf
    · refine hother he hkey fun k hk => ?_
      cases hk

end Ledger

def Event.retries (id : String) : Event → Bool
  | .retried k _ _ => k.workflowExecutionId == id
  | _ => false

def Event.advances (id : String) : Event → Bool
  | .advanced k _ _ _ => k.workflowExecutionId == id
  | _ => false

namespace Ledger

/-- Where an execution is after a part of a visit that had so many retries. -/
structure Visited (e e' : WorkflowExecution) (retries : ℕ) : Prop where
  version : e'.versionKey = e.versionKey
  step : e'.currentStepName = e.currentStepName
  attempt : e'.currentStepAttempt.toInt = e.currentStepAttempt.toInt + retries

theorem Visited.refl (e : WorkflowExecution) : Visited e e 0 := ⟨rfl, rfl, by simp⟩

theorem Visited.trans {e₁ e₂ e₃ : WorkflowExecution} {m n : ℕ} (h : Visited e₁ e₂ m)
    (h' : Visited e₂ e₃ n) : Visited e₁ e₃ (m + n) := by
  refine ⟨h'.version.trans h.version, h'.step.trans h.step, ?_⟩
  rw [h'.attempt, h.attempt]
  omega

variable {L L' : Ledger} {ev : Event} {e e' : WorkflowExecution} {id : String} {evs : List Event}

theorem Event.subject_of_retries (h : ev.retries id = true) : ev.subject = some id := by
  cases ev with
  | retried k workerId now => exact congrArg some (by simpa [Event.retries] using h)
  | _ => cases h

theorem Transition.visited (h : Transition L ev L') (inv : Lifecycle L)
    (he : L.execution id = some e) (hev : ev.advances id = false) :
    ∃ e', L'.execution id = some e' ∧ Visited e e' (if ev.retries id then 1 else 0) := by
  by_cases hsubject : ev.subject = some id
  swap
  · have hretries : ev.retries id = false :=
      Bool.eq_false_iff.mpr fun hr => hsubject (Event.subject_of_retries hr)
    rw [(h.frame inv hsubject).execution, hretries]
    exact ⟨e, he, .refl e⟩
  -- The row of the execution is written and read back.
  have hwritten : ∀ {L₁ : Ledger} {e₁ : WorkflowExecution}, id = e₁.workflowExecutionId →
      (L₁.setExecution e₁).execution id = some e₁.stored := by
    intro L₁ e₁ hid
    rw [setExecution_execution, if_pos hid]
  cases h with
  | register d => cases hsubject
  | start definition fresh unlocked running first attempt state =>
    rw [Option.some_inj.mp hsubject, he] at fresh
    cases fresh
  | claim step claimable definition duration => exact ⟨e, he, .refl e⟩
  | renew held definition duration => exact ⟨e, he, .refl e⟩
  | finish held =>
    obtain rfl := Option.some_inj.mp hsubject
    obtain rfl := Option.some_inj.mp (he.symm.trans held.execution)
    exact ⟨_, hwritten rfl, rfl, rfl, by simp [Event.retries]; rfl⟩
  | advance held definition defined =>
    obtain rfl := Option.some_inj.mp hsubject
    simp [Event.advances] at hev
  | retry failing definition found budget =>
    obtain rfl := Option.some_inj.mp hsubject
    obtain rfl := Option.some_inj.mp (he.symm.trans failing.current.execution)
    rw [setStep_execution]
    refine ⟨_, hwritten rfl, rfl, rfl, ?_⟩
    simp only [Event.retries, WorkflowExecution.currentKey, beq_self_eq_true, if_true]
    exact attempt_succ budget
  | exhaust failing definition found spent =>
    obtain rfl := Option.some_inj.mp hsubject
    obtain rfl := Option.some_inj.mp (he.symm.trans failing.current.execution)
    exact ⟨_, hwritten rfl, rfl, rfl, by simp [Event.retries]; rfl⟩
  | cancel execution running =>
    obtain rfl := Option.some_inj.mp hsubject
    obtain rfl := Option.some_inj.mp (he.symm.trans execution)
    exact ⟨_, hwritten rfl, rfl, rfl, by simp [Event.retries]; rfl⟩

/-- A part of a visit opens one attempt for each retry. -/
theorem visited_of_run (h : Systems.Run Transition L evs L') (inv : Lifecycle L)
    (he : L.execution id = some e) (hevs : ∀ ev ∈ evs, ev.advances id = false) :
    ∃ e', L'.execution id = some e' ∧ Visited e e' (evs.countP (Event.retries id)) := by
  induction h with
  | nil => exact ⟨e, he, .refl e⟩
  | @snoc L₁ L₂ evs ev run last ih =>
    obtain ⟨e₁, he₁, hvisited⟩ := ih fun ev hev => hevs ev (List.mem_append_left _ hev)
    obtain ⟨e₂, he₂, hlast⟩ := last.visited (lifecycle_of_run run inv) he₁
      (hevs ev (List.mem_append_right _ (List.mem_singleton_self ev)))
    refine ⟨e₂, he₂, ?_⟩
    rw [List.countP_append, List.countP_singleton]
    exact hvisited.trans hlast

end Ledger

def Call.Registers (d : WorkflowDefinition) (c : Call) : Prop :=
  ∀ d', c.operation = .registerWorkflowDefinition d' →
    (d'.workflowName, d'.workflowVersion) = (d.workflowName, d.workflowVersion) → d' = d

def Entry.Completes (x : Entry) (id : String) : Prop :=
  ∃ stepName workerId output delay r,
    x.call.operation = .completeStep id stepName workerId output delay ∧ x.result = .ok r

theorem Effect.registered {L L' : Ledger} {now : TimePoint} {op : Operation} {r : Response}
    {evs : List Event} (h : Effect L now op r evs L') {d : WorkflowDefinition}
    (hd : .registered d ∈ evs) : op = .registerWorkflowDefinition d := by
  by_cases hop : ∃ d', op = .registerWorkflowDefinition d'
  · obtain ⟨d', rfl⟩ := hop
    cases h with
    | registerWorkflowDefinition d' =>
      rw [Event.registered.inj (List.mem_singleton.mp hd)]
  · exact absurd rfl (h.not_registered (fun d' hd' => hop ⟨d', hd'⟩) _ hd d)

theorem Effect.advances {L L' : Ledger} {now : TimePoint} {op : Operation} {r : Response}
    {evs : List Event} (h : Effect L now op r evs L') {id : String} {ev : Event} (hev : ev ∈ evs)
    (hadvances : ev.advances id = true) :
    ∃ stepName workerId output delay, op = .completeStep id stepName workerId output delay := by
  cases h with
  | registerWorkflowDefinition d =>
    rw [List.mem_singleton.mp hev] at hadvances
    cases hadvances
  | startWorkflow key given definition step =>
    rw [List.mem_singleton.mp hev] at hadvances
    cases hadvances
  | pollAndClaimWorkflowSteps claims complete =>
    obtain ⟨s, -, rfl⟩ := List.mem_map.mp hev
    cases hadvances
  | keepAliveStep step =>
    rw [List.mem_singleton.mp hev] at hadvances
    cases hadvances
  | completeStep event step =>
    rw [List.mem_singleton.mp hev] at hadvances
    rcases event with rfl | ⟨next, rfl⟩
    · cases hadvances
    · obtain rfl := beq_iff_eq.mp hadvances
      exact ⟨_, _, _, _, rfl⟩
  | failStep event step =>
    rw [List.mem_singleton.mp hev] at hadvances
    rcases event with rfl | rfl
    · cases hadvances
    · cases hadvances
  | cancelWorkflow step =>
    rw [List.mem_singleton.mp hev] at hadvances
    cases hadvances
  | sweepExpiredLeases events run counted swept =>
    obtain ⟨key, rfl | rfl⟩ := events ev hev
    · cases hadvances
    · cases hadvances

theorem Call.Step.budgeted {c : Call} {d : WorkflowDefinition} (step : Call.Step db c db')
    (sound : Sound db) (wf : WellFormed d) (registers : c.Registers d)
    (b : Budgeted (d.workflowName, d.workflowVersion) d (view db)) :
    Budgeted (d.workflowName, d.workflowVersion) d (view db') := by
  rcases step.cases sound with ⟨r, evs, -, heff, -⟩ | ⟨-, rfl⟩
  swap
  · exact b
  have hI := heff.run.always
    (I := fun L => Lifecycle L ∧ Budgeted (d.workflowName, d.workflowVersion) d L)
    (P := fun ev => ev ∈ evs) (Q := fun _ => True) ?_ (fun _ hev => hev) ⟨sound.lifecycle, b⟩
  · exact hI.1.2
  intro L ev L' ⟨inv, b⟩ hev ht
  refine ⟨⟨ht.lifecycle inv, ht.budgeted inv wf ?_ b⟩, trivial⟩
  intro d' h hkey
  obtain rfl := h
  exact registers d' (heff.registered hev) hkey

theorem budgeted_of_calls {calls : List Call} {d : WorkflowDefinition} (run : Calls E db calls db')
    (sound : Sound db) (wf : WellFormed d) (registers : ∀ c ∈ calls, c.Registers d)
    (b : Budgeted (d.workflowName, d.workflowVersion) d (view db)) :
    Budgeted (d.workflowName, d.workflowVersion) d (view db') := by
  have hI := run.always
    (I := fun db => Sound db ∧ Budgeted (d.workflowName, d.workflowVersion) d (view db))
    (P := fun c => c.Registers d) (Q := fun _ => True) ?_ registers ⟨sound, b⟩
  · exact hI.1.2
  intro db c db' ⟨sound, b⟩ registers step
  exact ⟨⟨step.sound sound, step.budgeted sound wf registers b⟩, trivial⟩

theorem Entry.Step.visited {x : Entry} {id : String} {e : WorkflowExecution}
    (step : Entry.Step db x db') (sound : Sound db) (he : (view db).execution id = some e)
    (hx : ¬ x.Completes id) : ∃ evs e', Systems.Run Transition (view db) evs (view db') ∧
      (view db').execution id = some e' ∧ Visited e e' (evs.countP (Event.retries id)) := by
  rcases step.1.cases sound with ⟨r, evs, hr, heff, -⟩ | ⟨-, rfl⟩
  swap
  · exact ⟨[], e, .nil, he, .refl e⟩
  have hevs : ∀ ev ∈ evs, ev.advances id = false := by
    intro ev hev
    by_contra hadvances
    obtain ⟨stepName, workerId, output, delay, hop⟩ :=
      heff.advances hev (Bool.eq_true_of_not_eq_false hadvances)
    exact hx ⟨stepName, workerId, output, delay, r, hop, step.2.trans hr⟩
  obtain ⟨e', he', hvisited⟩ := visited_of_run heff.run sound.lifecycle he hevs
  exact ⟨evs, e', heff.run, he', hvisited⟩

theorem History.visited {h : List Entry} {id : String} {e : WorkflowExecution}
    (run : History E db h db') (sound : Sound db) (he : (view db).execution id = some e)
    (hh : ∀ x ∈ h, ¬ x.Completes id) : ∃ evs e', Systems.Run Transition (view db) evs (view db') ∧
      (view db').execution id = some e' ∧ Visited e e' (evs.countP (Event.retries id)) := by
  induction run with
  | nil => exact ⟨[], e, .nil, he, .refl e⟩
  | @snoc db₁ db₂ h x run last ih =>
    obtain ⟨evs, e₁, hrun, he₁, hvisited⟩ := ih fun x hx => hh x (List.mem_append_left _ hx)
    obtain ⟨evs', e₂, hrun', he₂, hlast⟩ := last.visited (sound_of_calls (History.calls run) sound) he₁
      (hh x (List.mem_append_right _ (List.mem_singleton_self x)))
    refine ⟨evs ++ evs', e₂, hrun.append hrun', he₂, ?_⟩
    rw [List.countP_append]
    exact hvisited.trans hlast

structure RowsWithinBudget (db : E.Db) (id : String) (e : WorkflowExecution) (m : Int32) : Prop where
  nonneg : 0 ≤ e.currentStepAttempt.toInt
  le_maxRetries : e.currentStepAttempt.toInt ≤ m.toInt
  earlier : ∀ k : Int32, 0 ≤ k.toInt → k.toInt < e.currentStepAttempt.toInt →
    ∃ row : WorkflowStepExecutionRow, E.get db .steps (stepExecutionKey id e.currentStepName k) =
      some row ∧ row.fromRow.status = .failed
  failed : e.status = .failed → e.currentStepAttempt = m ∧ ∃ row : WorkflowStepExecutionRow,
    E.get db .steps (stepExecutionKey id e.currentStepName e.currentStepAttempt) = some row ∧
      row.fromRow.status = .failed ∧ row.fromRow.failureReason = e.failureReason

theorem rowsWithinBudget {id : String} {e : WorkflowExecution} {d : WorkflowDefinition}
    {step : WorkflowStep} (found : findStepDefinition d e.currentStepName = .ok step)
    (hid : e.workflowExecutionId = id)
    (b : WithinBudget d (view db) e) : RowsWithinBudget db id e (maxRetriesForStep step) := by
  obtain ⟨step', hstep', hzero, hle⟩ := b.attempt
  obtain rfl := Except.ok.inj (found.symm.trans hstep')
  refine ⟨hzero, hle, ?_, ?_⟩
  · intro k hk hlt
    obtain ⟨s, hs, hfailed⟩ := b.earlier k hk hlt
    obtain ⟨row, hrow, rfl, -⟩ := view_step.mp hs
    exact ⟨row, hid ▸ hrow, hfailed⟩
  · intro hstatus
    obtain ⟨step', s, hstep', hattempt, hs, hfailed, hreason⟩ := b.failed hstatus
    obtain rfl := Except.ok.inj (found.symm.trans hstep')
    obtain ⟨row, hrow, rfl, -⟩ := view_step.mp hs
    exact ⟨hattempt, row, hid ▸ hrow, hfailed, hreason⟩

/-- Every execution of a definition that is not changed keeps within the retries of its step, and a
visit opens at most one attempt more than there are retries. -/
theorem retry_budget {value : Json} {d : WorkflowDefinition} {calls : List Call}
    (parsed : parseWorkflowDefinition value = .ok d) (run : Calls E E.empty calls db)
    (registered : ∀ c ∈ calls, c.Registers d) {id : String} {execution : WorkflowExecutionRow}
    (found : E.get db .executions id = some execution)
    (version : execution.fromRow.versionKey = (d.workflowName, d.workflowVersion)) :
    ∃ step ∈ d.steps, step.name = execution.fromRow.currentStepName ∧
      RowsWithinBudget db id execution.fromRow (step.maxRetries.getD 0) ∧
      ∀ h db', History E db h db' → (∀ x ∈ h, x.call.Registers d ∧ ¬ x.Completes id) →
        ∃ evs execution', Systems.Run Transition (view db) evs (view db') ∧
          E.get db' .executions id = some execution' ∧
          execution'.fromRow.currentStepName = execution.fromRow.currentStepName ∧
          execution'.fromRow.currentStepAttempt.toInt =
            execution.fromRow.currentStepAttempt.toInt + evs.countP (Event.retries id) ∧
          RowsWithinBudget db' id execution'.fromRow (step.maxRetries.getD 0) := by
  have sound : Sound db := sound_of_calls run sound_empty
  have wf := wellFormed_of_parse parsed
  have b := budgeted_of_calls run sound_empty wf registered (view_empty (E := E) ▸ budgeted_empty)
  obtain ⟨he, hid, -⟩ := sound.encoded.execution found
  have hwithin := b.execution id _ he version
  obtain ⟨step, hstep, -⟩ := hwithin.attempt
  obtain ⟨hmem, hname⟩ := findStepDefinition_mem hstep
  refine ⟨step, hmem, hname, rowsWithinBudget hstep hid hwithin, ?_⟩
  intro h db' visit hvisit
  have sound' : Sound db' := sound_of_calls (History.calls visit) sound
  have b' := budgeted_of_calls (History.calls visit) sound wf ?_ b
  · obtain ⟨evs, e', hrun, he', hvisited⟩ :=
      History.visited visit sound he fun x hx => (hvisit x hx).2
    obtain ⟨execution', hget, rfl⟩ := view_execution.mp he'
    obtain ⟨-, hid', -⟩ := sound'.encoded.execution hget
    refine ⟨evs, execution', hrun, hget, hvisited.step, hvisited.attempt, ?_⟩
    refine rowsWithinBudget (hvisited.step ▸ hstep) hid' ?_
    exact b'.execution id _ he' (hvisited.version.trans version)
  · intro c hc
    obtain ⟨x, hx, rfl⟩ := List.mem_map.mp hc
    exact (hvisit x hx).1

theorem retry_budget_lapse : ∃ execution : WorkflowExecutionRow,
    Sample.store.get (Sample.after Sample.lapse) .executions (Sample.id 0) = some execution ∧
    execution.fromRow.currentStepAttempt = 1 ∧
    ∃ step ∈ (Sample.definition false 1).steps, step.name = execution.fromRow.currentStepName ∧
      RowsWithinBudget (Sample.after Sample.lapse) (Sample.id 0) execution.fromRow
        (step.maxRetries.getD 0) := by
  have run : Calls Sample.store Sample.store.empty Sample.lapse (Sample.after Sample.lapse) :=
    calls_play (by decide +kernel)
  have parsed : parseWorkflowDefinition (Sample.definition false 1).toJson =
      .ok (Sample.definition false 1) := by decide +kernel
  have registered : ∀ c ∈ Sample.lapse, c.Registers (Sample.definition false 1) := by
    intro c hc d' hop _
    simp only [Sample.lapse, Sample.begin, List.cons_append, List.nil_append, List.mem_cons,
      List.not_mem_nil, or_false] at hc
    rcases hc with rfl | rfl | rfl | rfl | rfl
    · exact (Operation.registerWorkflowDefinition.inj hop).symm
    · cases hop
    · cases hop
    · cases hop
    · cases hop
  have hrow : (Sample.store.get (Sample.after Sample.lapse) .executions (Sample.id 0)).map
      (fun row : WorkflowExecutionRow => (row.fromRow.versionKey, row.fromRow.currentStepAttempt)) =
      some (("order", 1), 1) := by
    decide +kernel
  obtain ⟨execution, found, hfields⟩ := Option.map_eq_some_iff.mp hrow
  obtain ⟨hversion, hattempt⟩ := Prod.mk.inj hfields
  generalize Sample.after Sample.lapse = db at run found ⊢
  obtain ⟨step, hstep, hname, hwithin, -⟩ := retry_budget parsed run registered found hversion
  exact ⟨execution, found, hattempt, step, hstep, hname, hwithin⟩

end WorkflowEngine
