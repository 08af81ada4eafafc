import WorkflowEngine.Requests

/-!
# What an operation that returns has done

One inversion lemma for each operation: what it has read and checked on the
way, and the rows it has written when it returns.
-/

namespace WorkflowEngine.Orchestrator
open Txn Txn.Program

variable {E : Engine schema} {env : Environment} {tx tx' : Tx E}

theorem registerWorkflowDefinition_cases {d r : WorkflowDefinition}
    (h : Returns env (registerWorkflowDefinition d) tx r tx') :
    r = d ∧ tx'.view = E.put tx.view .definitions d.toRow := by
  simp only [registerWorkflowDefinition, returns_bind, returns_validateWorkflowNameAndVersion,
    returns_putDefinition, returns_pure] at h
  obtain ⟨-, _, ⟨-, -, rfl⟩, -, _, rfl, rfl, rfl⟩ := h
  exact ⟨rfl, Tx.stage_view ..⟩

theorem startWorkflow_cases {name : String} {version : Int32} {input : Json}
    {e : WorkflowExecution} (h : Returns env (startWorkflow name version input) tx e tx') :
    ∃ row id tx₀ tx₁, E.get tx.view .definitions (definitionKey name version) = some row ∧
      Returns env generateExecutionId (tx.noteKey .definitions (definitionKey name version)) id tx₀ ∧
      e = {
        workflowExecutionId := id
        workflowName := name
        workflowVersion := version
        status := .running
        currentStepName := row.fromRow.startWorkflowStepName
        input
        state := .object []
        currentStepAttempt := 0
        startedAt := some (env.answer tx₀.ticks .clock) } ∧
      Returns env (takeSingletonLock row.fromRow.singleton e) tx₀.tick () tx₁ ∧
      tx' = (tx₁.stage .executions e.toRow).tick.stage .steps
        (e.pendingStep input (env.answer tx₁.ticks .clock) none).toRow := by
  simp only [startWorkflow, returns_bind, returns_validateWorkflowNameAndVersion,
    returns_getDefinition, returns_orThrow, returns_nowForStorage, returns_putExecution,
    returns_putStep, returns_pure] at h
  obtain ⟨-, _, ⟨-, -, rfl⟩, _, _, ⟨rfl, rfl⟩, row, _, ⟨hrow, rfl⟩, id, tx₀, hid, startedAt, _,
    ⟨rfl, rfl⟩, _, tx₁, hlock, -, _, rfl, first, tx₂, hfirst, -, _, rfl, rfl, rfl⟩ := h
  obtain ⟨rfl, rfl⟩ := (returns_makeStepExecution rfl rfl).mp hfirst
  exact ⟨row, id, tx₀, tx₁, hrow, hid, rfl, hlock, rfl⟩

theorem pollAndClaimWorkflowSteps_cases {name : String} {version : Int32} {workerId : String}
    {maxResults : ℕ} {claimed : List WorkflowStepExecution}
    (h : Returns env (pollAndClaimWorkflowSteps name version workerId maxResults) tx claimed tx') :
    (name ≠ "" ∧ ¬ version < 1 ∧ workerId ≠ "" ∧ maxResults ≠ 0) ∧
    ∃ row tx₁, E.get tx.view .definitions (definitionKey name version) = some row ∧
      env.answer (tx.ticks + 1) (.reserve maxResults) = .ok () ∧
      tx₁.view = tx.view ∧ tx₁.writes = tx.writes ∧
      Returns env (claimSteps row.fromRow workerId (env.answer tx.ticks .clock) maxResults []
        (sortCandidates
          ((env.arrange .steps (stepQuery name version .pending)
              (E.select tx.view .steps (stepQuery name version .pending)) ++
            env.arrange .steps (stepQuery name version .running)
              (E.select tx.view .steps (stepQuery name version .running))).map
                WorkflowStepExecutionRow.fromRow))) tx₁ claimed tx' := by
  simp only [pollAndClaimWorkflowSteps, validateWorkerId, reserve, returns_bind,
    returns_validateWorkflowNameAndVersion, returns_throwIf, returns_getDefinition,
    returns_orThrow, returns_nowForStorage, returns_querySteps, returns_demand, returns_lift] at h
  obtain ⟨-, _, ⟨hname, hversion, rfl⟩, -, _, ⟨hworker, rfl⟩, -, _, ⟨hmax, rfl⟩, _, _, ⟨rfl, rfl⟩,
    row, _, ⟨hrow, rfl⟩, now, _, ⟨rfl, rfl⟩, pending, _, ⟨rfl, rfl⟩, running, _, ⟨rfl, rfl⟩, _, _,
    ⟨_, _, ⟨rfl, rfl⟩, hreserve, rfl⟩, h⟩ := h
  simp only [Tx.noteKey_ticks, Tx.tick_ticks, Tx.noteQuery_ticks, Tx.tick_view, Tx.noteQuery_view,
    Tx.noteKey_view] at hreserve h
  refine ⟨⟨hname, hversion, hworker, hmax⟩, row, _, hrow, hreserve, ?_, ?_, h⟩
  · exact Tx.noteKey_view ..
  · exact Tx.noteKey_writes ..

theorem keepAliveStep_cases {id name workerId : String} {r : WorkflowStepExecution}
    (h : Returns env (keepAliveStep id name workerId) tx r tx') :
    ∃ e tx₁ d tx₂ s tx₃ step lease, Returns env (getCurrentExecution id name) tx e tx₁ ∧
      Returns env (getDefinitionOf e) tx₁ d tx₂ ∧
      Returns env (getClaimedStep e id name workerId) tx₂ s tx₃ ∧
      findStepDefinition d name = .ok step ∧ leaseDurationForStep step = .ok lease ∧
      r = s.renewedUntil ((env.answer tx₃.ticks .clock).addSeconds lease) ∧
      tx'.view = E.put tx₃.view .steps r.toRow := by
  simp only [keepAliveStep, validateExecutionId, validateStepName, validateWorkerId, returns_bind,
    returns_throwIf, returns_lift, returns_nowForStorage, returns_putStep, returns_pure] at h
  obtain ⟨-, _, ⟨-, rfl⟩, -, _, ⟨-, rfl⟩, -, _, ⟨-, rfl⟩, e, tx₁, he, d, tx₂, hd, s, _, hs, step, tx₃,
    ⟨hstep, rfl⟩, now, _, ⟨rfl, rfl⟩, lease, _, ⟨hlease, rfl⟩, -, _, rfl, rfl, rfl⟩ := h
  exact ⟨e, tx₁, d, tx₂, s, tx₃, step, lease, he, hd, hs, hstep, hlease, rfl, Tx.stage_view ..⟩

theorem advance_cases {d : WorkflowDefinition} {e r : WorkflowExecution} {decision : NextStepDecision}
    {delay : Option Seconds} (h : Returns env (advance d e decision delay) tx r tx') :
    ∃ next n, decision.nextStepName = some next ∧ stepDefinitionExists d next = true ∧
      r = e.movedTo e.state next ∧
      tx'.view = E.put (E.put tx.view .executions r.toRow) .steps
        (r.pendingStep decision.nextStepInput (env.answer n .clock)
          (delay.map (TimePoint.addSeconds (env.answer tx.ticks .clock)))).toRow := by
  simp only [advance, returns_bind, returns_orThrow, returns_throwIf, returns_putExecution,
    returns_putStep, returns_pure] at h
  obtain ⟨next, _, ⟨hnext, rfl⟩, -, tx, ⟨hdefined, rfl⟩, -, _, rfl, scheduledAt, tx₁, hscheduled, s,
    tx₂, hs, -, _, rfl, rfl, rfl⟩ := h
  obtain ⟨rfl, hview⟩ := returns_scheduleAfter hscheduled
  obtain ⟨rfl, rfl⟩ := (returns_makeStepExecution rfl rfl).mp hs
  refine ⟨next, tx₁.ticks, hnext, by simpa using hdefined, rfl, ?_⟩
  rw [Tx.stage_view, Tx.tick_view, hview, Tx.stage_view]
  rfl

theorem completeStep_cases {id name workerId : String} {output : Json} {delay : Option Seconds}
    {r : WorkflowExecution} (h : Returns env (completeStep id name workerId output delay) tx r tx') :
    (∀ seconds ∈ delay, 0 < seconds) ∧ ∃ e tx₁ s tx₂ d tx₃ decision tx₄,
      Returns env (getCurrentExecution id name) tx e tx₁ ∧
      Returns env (getClaimedStep e id name workerId) tx₁ s tx₂ ∧
      Returns env (getDefinitionOf e) tx₂ d tx₃ ∧
      env.answer tx₃.ticks (.decideNextStep {
        workflowName := e.workflowName
        workflowVersion := e.workflowVersion
        workflowExecutionId := e.workflowExecutionId
        completedStepName := name
        input := e.input
        state := e.state
        stepOutput := output }) = .ok decision ∧
      tx₄.view =
        E.put tx₃.view .steps (s.completedWith output (env.answer tx₃.tick.ticks .clock)).toRow ∧
      tx₄.ticks = tx₃.ticks + 2 ∧
      ((∃ n, r = e.completedAtState decision.updatedState (env.answer n .clock) ∧
          tx'.view = E.put tx₄.view .executions r.toRow) ∨
        Returns env (advance d { e with state := decision.updatedState } decision delay) tx₄ r
          tx') := by
  simp only [completeStep, validateExecutionId, validateStepName, validateWorkerId, returns_bind,
    returns_throwIf, returns_decideNextStep, returns_nowForStorage, returns_putStep] at h
  obtain ⟨-, _, ⟨-, rfl⟩, -, _, ⟨-, rfl⟩, -, _, ⟨-, rfl⟩, -, _, ⟨hdelay, rfl⟩, e, tx₁, he, s, tx₂, hs,
    d, tx₃, hd, decision, _, ⟨hdecision, rfl⟩, completedAt, _, ⟨rfl, rfl⟩, -, tx₄, htx₄, h⟩ := h
  have hpositive : ∀ seconds ∈ delay, 0 < seconds :=
    fun seconds hseconds => not_le.mp fun hle => hdelay ⟨seconds, hseconds, hle⟩
  have hview : tx₄.view =
      E.put tx₃.view .steps (s.completedWith output (env.answer tx₃.tick.ticks .clock)).toRow := by
    rw [htx₄]
    rfl
  refine ⟨hpositive, e, tx₁, s, tx₂, d, tx₃, decision, tx₄, he, hs, hd, hdecision, hview,
    htx₄ ▸ rfl, ?_⟩
  split_ifs at h with hcomplete
  · simp only [returns_bind, returns_nowForStorage, returns_putExecution, returns_pure] at h
    obtain ⟨completedAt, _, ⟨rfl, rfl⟩, -, _, rfl, rfl, rfl⟩ := h
    exact .inl ⟨_, rfl, Tx.stage_view ..⟩
  · exact .inr h

theorem failStep_cases {id name workerId reason : String} {r : WorkflowExecution}
    (h : Returns env (failStep id name workerId reason) tx r tx') :
    ∃ e tx₁ s tx₂ d tx₃ step db, Returns env (getCurrentExecution id name) tx e tx₁ ∧
      Returns env (getClaimedStep e id name workerId) tx₁ s tx₂ ∧
      Returns env (getDefinitionOf e) tx₂ d tx₃ ∧ findStepDefinition d name = .ok step ∧
      db = E.put tx₃.view .steps (s.failedFor reason (env.answer tx₃.ticks .clock)).toRow ∧
      ((e.currentStepAttempt < maxRetriesForStep step ∧ r = e.retried ∧ ∃ n,
          tx'.view = E.put (E.put db .executions r.toRow) .steps
            (r.pendingStep s.input (env.answer n .clock) none).toRow) ∨
        (¬ e.currentStepAttempt < maxRetriesForStep step ∧ ∃ n,
          r = e.failedFor reason (env.answer n .clock) ∧
          tx'.view = E.put db .executions r.toRow)) := by
  simp only [failStep, validateExecutionId, validateStepName, validateWorkerId, returns_bind,
    returns_throwIf, returns_lift, returns_nowForStorage, returns_putStep] at h
  obtain ⟨-, _, ⟨-, rfl⟩, -, _, ⟨-, rfl⟩, -, _, ⟨-, rfl⟩, e, tx₁, he, s, tx₂, hs, d, _, hd, step, tx₃,
    ⟨hstep, rfl⟩, completedAt, _, ⟨rfl, rfl⟩, -, _, rfl, h⟩ := h
  refine ⟨e, tx₁, s, tx₂, d, tx₃, step, _, he, hs, hd, hstep, rfl, ?_⟩
  split_ifs at h with hbudget
  · simp only [returns_bind, returns_putExecution, returns_putStep, returns_pure] at h
    obtain ⟨-, _, rfl, retry, tx₄, hretry, -, _, rfl, rfl, rfl⟩ := h
    have hname : e.currentStepName = name := (returns_getCurrentExecution.mp he).2.2.1
    obtain ⟨rfl, rfl⟩ := (returns_makeStepExecution (e := e.retried) hname rfl).mp hretry
    exact .inl ⟨hbudget, rfl, _, rfl⟩
  · simp only [returns_bind, returns_nowForStorage, returns_putExecution, returns_pure] at h
    obtain ⟨completedAt, _, ⟨rfl, rfl⟩, -, _, rfl, rfl, rfl⟩ := h
    exact .inr ⟨hbudget, _, rfl, rfl⟩

theorem cancelWorkflow_cases {id : String} {r : WorkflowExecution}
    (h : Returns env (cancelWorkflow id) tx r tx') :
    ∃ row tx₁ tx₂, E.get tx.view .executions id = some row ∧ row.fromRow.status = .running ∧
      tx₁.view = tx.view ∧
      Returns env (cancelSteps (env.answer tx.ticks .clock)
        (env.arrange .steps (stepsByExecutionQuery id)
          (E.select tx.view .steps (stepsByExecutionQuery id)))) tx₁ () tx₂ ∧
      r = row.fromRow.canceledAt (env.answer tx.ticks .clock) ∧
      tx'.view = E.put tx₂.view .executions r.toRow := by
  simp only [cancelWorkflow, validateExecutionId, returns_bind, returns_throwIf,
    returns_getExecution, returns_orThrow, returns_nowForStorage, returns_querySteps,
    returns_putExecution, returns_pure] at h
  obtain ⟨-, _, ⟨-, rfl⟩, _, _, ⟨rfl, rfl⟩, row, _, ⟨hrow, rfl⟩, -, _, ⟨hrunning, rfl⟩, now, _,
    ⟨rfl, rfl⟩, _, _, ⟨rfl, rfl⟩, _, tx₂, hcancel, -, _, rfl, rfl, rfl⟩ := h
  simp only [Tx.noteKey_ticks, Tx.tick_view, Tx.noteKey_view] at hcancel
  refine ⟨row, _, tx₂, hrow, not_not.mp hrunning, ?_, hcancel, ?_, ?_⟩
  · exact Tx.noteKey_view ..
  · rw [Tx.noteKey_ticks]
    rfl
  · exact Tx.stage_view ..

theorem failExpiredStep_cases {now : TimePoint} {result result' : SweepResult}
    {s : WorkflowStepExecution} {e : WorkflowExecution} {d : WorkflowDefinition}
    (h : Returns env (failExpiredStep now result s e d) tx result' tx') :
    ∃ step tx₁, findStepDefinition d s.stepName = .ok step ∧
      tx₁ = tx.stage .steps (s.failedFor "lease expired" now).toRow ∧
      ((e.currentStepAttempt < maxRetriesForStep step ∧
          result' = { result with retriedCount := result.retriedCount + 1 } ∧ ∃ n retry,
          (e.currentStepName = s.stepName →
            retry = e.retried.pendingStep s.input (env.answer n .clock) none) ∧
          tx' = (tx₁.stage .executions e.retried.toRow).tick.stage .steps retry.toRow) ∨
        (¬ e.currentStepAttempt < maxRetriesForStep step ∧
          result' = { result with failedCount := result.failedCount + 1 } ∧
          tx' = tx₁.stage .executions (e.failedFor "lease expired" now).toRow)) := by
  simp only [failExpiredStep, returns_bind, returns_lift, returns_putStep] at h
  obtain ⟨step, tx, ⟨hstep, rfl⟩, -, _, rfl, h⟩ := h
  refine ⟨step, _, hstep, rfl, ?_⟩
  split_ifs at h with hbudget
  · simp only [returns_bind, returns_putExecution, returns_putStep, returns_pure, makeStepExecution,
      returns_nowForStorage] at h
    obtain ⟨-, _, rfl, retry, _, ⟨createdAt, _, ⟨rfl, rfl⟩, rfl, rfl⟩, -, _, rfl, rfl, rfl⟩ := h
    refine .inl ⟨hbudget, rfl, tx.ticks, _, ?_, rfl⟩
    intro hname
    rw [← hname]
    rfl
  · simp only [returns_bind, returns_putExecution, returns_pure] at h
    obtain ⟨-, _, rfl, rfl, rfl⟩ := h
    exact .inr ⟨hbudget, rfl, rfl⟩

end WorkflowEngine.Orchestrator
