import WorkflowEngine.View
import WorkflowEngine.Operations
import WorkflowEngine.Txn.Effects

/-!
# What the parts of an operation establish

One specification for each helper of the orchestrator: what it has checked
when it returns, in terms of the ledger that the transaction sees.
-/

namespace WorkflowEngine.Orchestrator
open Txn Txn.Program

variable {E : Engine schema} {env : Environment} {tx tx' : Tx E}

@[simp] theorem returns_getDefinition {k : String} {r : Option WorkflowDefinitionRow} :
    Returns env (getDefinition k) tx r tx' ↔
      r = E.get tx.view .definitions k ∧ tx' = tx.noteKey .definitions k := returns_read

@[simp] theorem returns_getExecution {k : String} {r : Option WorkflowExecutionRow} :
    Returns env (getExecution k) tx r tx' ↔
      r = E.get tx.view .executions k ∧ tx' = tx.noteKey .executions k := returns_read

@[simp] theorem returns_getLock {k : String} {r : Option WorkflowSingletonLockRow} :
    Returns env (getLock k) tx r tx' ↔
      r = E.get tx.view .singletonLocks k ∧ tx' = tx.noteKey .singletonLocks k := returns_read

@[simp] theorem returns_getStep {k : String} {r : Option WorkflowStepExecutionRow} :
    Returns env (getStep k) tx r tx' ↔
      r = E.get tx.view .steps k ∧ tx' = tx.noteKey .steps k := returns_read

@[simp] theorem returns_putDefinition {row : WorkflowDefinitionRow} {u : Unit} :
    Returns env (putDefinition row) tx u tx' ↔ tx' = tx.stage .definitions row := returns_store

@[simp] theorem returns_putExecution {row : WorkflowExecutionRow} {u : Unit} :
    Returns env (putExecution row) tx u tx' ↔ tx' = tx.stage .executions row := returns_store

@[simp] theorem returns_putLock {row : WorkflowSingletonLockRow} {u : Unit} :
    Returns env (putLock row) tx u tx' ↔ tx' = tx.stage .singletonLocks row := returns_store

@[simp] theorem returns_putStep {row : WorkflowStepExecutionRow} {u : Unit} :
    Returns env (putStep row) tx u tx' ↔ tx' = tx.stage .steps row := returns_store

@[simp] theorem returns_querySteps {q : QuerySpec} {rows : List WorkflowStepExecutionRow} :
    Returns env (querySteps q) tx rows tx' ↔
      rows = env.arrange .steps q (E.select tx.view .steps q) ∧ tx' = tx.noteQuery .steps q :=
  returns_find

@[simp] theorem returns_nowForStorage {now : TimePoint} :
    Returns env nowForStorage tx now tx' ↔
      now = env.answer tx.ticks Question.clock ∧ tx' = tx.tick := returns_demand

theorem returns_decideNextStep {context : StepCompletionContext} {decision : NextStepDecision} :
    Returns env (decideNextStep context) tx decision tx' ↔
      env.answer tx.ticks (.decideNextStep context) = .ok decision ∧ tx' = tx.tick := by
  simp only [decideNextStep, returns_bind, returns_demand, returns_lift]
  constructor
  · intro h
    obtain ⟨_, _, ⟨rfl, rfl⟩, h, rfl⟩ := h
    exact ⟨h, rfl⟩
  · intro h
    obtain ⟨h, rfl⟩ := h
    exact ⟨_, _, ⟨rfl, rfl⟩, h, rfl⟩

theorem mem_arrange {env : Environment} {db : E.Db} {q : QuerySpec}
    {row : WorkflowStepExecutionRow} :
    row ∈ env.arrange .steps q (E.select db .steps q) ↔
      E.get db .steps row.key = some row ∧ q.holds row.toJson = true := by
  rw [← Multiset.mem_coe, env.arrange_coe]
  exact E.mem_select

theorem nodup_arrange (env : Environment) (db : E.Db) (q : QuerySpec) :
    (env.arrange .steps q (E.select db .steps q)).Nodup := by
  rw [← Multiset.coe_nodup, env.arrange_coe]
  exact E.nodup_select db _ q

theorem stepsByExecutionQuery_holds {id : String} {row : WorkflowStepExecutionRow} :
    (stepsByExecutionQuery id).holds row.toJson = true ↔ row.workflowExecutionId = id := by
  simp [stepsByExecutionQuery, QuerySpec.holds, QueryPredicate.holds,
    WorkflowStepExecutionRow.toJson]

theorem stepQuery_holds {name : String} {version : Int32} {status : StepExecutionStatus}
    {row : WorkflowStepExecutionRow} :
    (stepQuery name version status).holds row.toJson = true ↔
      row.workflowName = name ∧ row.workflowVersion = version.toInt64 ∧
        row.status = status.toString := by
  simp [stepQuery, QuerySpec.holds, QueryPredicate.holds, WorkflowStepExecutionRow.toJson]

theorem expiredRunningStepsQuery_holds {row : WorkflowStepExecutionRow} :
    expiredRunningStepsQuery.holds row.toJson = true ↔
      row.status = StepExecutionStatus.running.toString := by
  simp [expiredRunningStepsQuery, QuerySpec.holds, QueryPredicate.holds,
    WorkflowStepExecutionRow.toJson]

theorem returns_validateWorkflowNameAndVersion {name : String} {version : Int32} {u : Unit} :
    Returns env (validateWorkflowNameAndVersion name version) tx u tx' ↔
      name ≠ "" ∧ ¬ version < 1 ∧ tx' = tx := by
  simp only [validateWorkflowNameAndVersion, returns_bind, returns_throwIf]
  constructor
  · intro h
    obtain ⟨-, _, ⟨hn, rfl⟩, hv, rfl⟩ := h
    exact ⟨hn, hv, rfl⟩
  · intro h
    obtain ⟨hn, hv, rfl⟩ := h
    exact ⟨(), _, ⟨hn, rfl⟩, hv, rfl⟩

theorem returns_getCurrentExecution {id name : String} {e : WorkflowExecution} :
    Returns env (getCurrentExecution id name) tx e tx' ↔
      (∃ row, E.get tx.view .executions id = some row ∧ row.fromRow = e) ∧ e.status = .running ∧
        e.currentStepName = name ∧ tx' = tx.noteKey .executions id := by
  simp only [getCurrentExecution, validateExecutionIsRunning, returns_bind, returns_getExecution,
    returns_orThrow, returns_throwIf, returns_pure, ne_eq, not_not]
  constructor
  · intro h
    obtain ⟨_, _, ⟨rfl, rfl⟩, row, _, ⟨hrow, rfl⟩, -, _, ⟨hrun, rfl⟩, -, _, ⟨hname, rfl⟩, rfl,
      rfl⟩ := h
    exact ⟨⟨row, hrow, rfl⟩, hrun, hname, rfl⟩
  · intro h
    obtain ⟨⟨row, hrow, rfl⟩, hrun, hname, rfl⟩ := h
    exact ⟨_, _, ⟨rfl, rfl⟩, row, _, ⟨hrow, rfl⟩, (), _, ⟨hrun, rfl⟩, (), _, ⟨hname, rfl⟩, rfl, rfl⟩

theorem returns_getDefinitionOf {e : WorkflowExecution} {d : WorkflowDefinition} :
    Returns env (getDefinitionOf e) tx d tx' ↔
      (∃ row, E.get tx.view .definitions (definitionKey e.workflowName e.workflowVersion) =
        some row ∧ row.fromRow = d) ∧
        tx' = tx.noteKey .definitions (definitionKey e.workflowName e.workflowVersion) := by
  simp only [getDefinitionOf, returns_bind, returns_getDefinition, returns_orThrow, returns_pure]
  constructor
  · intro h
    obtain ⟨_, _, ⟨rfl, rfl⟩, row, _, ⟨hrow, rfl⟩, rfl, rfl⟩ := h
    exact ⟨⟨row, hrow, rfl⟩, rfl⟩
  · intro h
    obtain ⟨⟨row, hrow, rfl⟩, rfl⟩ := h
    exact ⟨_, _, ⟨rfl, rfl⟩, row, _, ⟨hrow, rfl⟩, rfl, rfl⟩

theorem returns_validateClaimOwnership {s : WorkflowStepExecution} {workerId : String} {u : Unit} :
    Returns env (validateClaimOwnership s workerId) tx u tx' ↔
      Owned s workerId (env.answer tx.ticks .clock) ∧ tx' = tx.tick := by
  simp only [validateClaimOwnership, returns_bind, returns_nowForStorage, returns_orThrow,
    returns_throwIf, ne_eq, not_not]
  constructor
  · intro h
    obtain ⟨now, _, ⟨rfl, rfl⟩, -, _, ⟨hs, rfl⟩, owner, _, ⟨ho, rfl⟩, -, _, ⟨rfl, rfl⟩, deadline, _,
      ⟨hd, rfl⟩, hl, rfl⟩ := h
    exact ⟨⟨hs, ho, deadline, hd, not_le.mp hl⟩, rfl⟩
  · intro h
    obtain ⟨⟨hs, ho, deadline, hd, hl⟩, rfl⟩ := h
    exact ⟨_, _, ⟨rfl, rfl⟩, (), _, ⟨hs, rfl⟩, workerId, _, ⟨ho, rfl⟩, (), _, ⟨rfl, rfl⟩, deadline, _,
      ⟨hd, rfl⟩, not_le.mpr hl, rfl⟩

theorem returns_getClaimedStep {e : WorkflowExecution} {id name workerId : String}
    {s : WorkflowStepExecution} :
    Returns env (getClaimedStep e id name workerId) tx s tx' ↔
      (∃ row, E.get tx.view .steps (stepExecutionKey id name e.currentStepAttempt) = some row ∧
        row.fromRow = s) ∧ Owned s workerId (env.answer tx.ticks .clock) ∧
        tx' = (tx.noteKey .steps (stepExecutionKey id name e.currentStepAttempt)).tick := by
  simp only [getClaimedStep, returns_bind, returns_getStep, returns_orThrow, returns_pure,
    returns_validateClaimOwnership]
  constructor
  · intro h
    obtain ⟨_, _, ⟨rfl, rfl⟩, row, _, ⟨hrow, rfl⟩, -, _, ⟨hown, rfl⟩, rfl, rfl⟩ := h
    rw [Tx.noteKey_ticks] at hown
    exact ⟨⟨row, hrow, rfl⟩, hown, rfl⟩
  · intro h
    obtain ⟨⟨row, hrow, rfl⟩, hown, rfl⟩ := h
    exact ⟨_, _, ⟨rfl, rfl⟩, row, _, ⟨hrow, rfl⟩, (), _, ⟨by rwa [Tx.noteKey_ticks], rfl⟩, rfl, rfl⟩

theorem getCurrentExecution_spec {id name : String} {e : WorkflowExecution}
    (enc : Encoded tx.view) (h : Returns env (getCurrentExecution id name) tx e tx') :
    (view tx.view).execution id = some e ∧ e.workflowExecutionId = id ∧ PlainId id ∧
      e.status = .running ∧ e.currentStepName = name ∧ tx'.view = tx.view ∧
      tx'.ticks = tx.ticks := by
  obtain ⟨⟨row, hrow, rfl⟩, hrun, hname, rfl⟩ := returns_getCurrentExecution.mp h
  obtain ⟨he, hid, hp⟩ := enc.execution hrow
  exact ⟨he, hid, hp, hrun, hname, Tx.noteKey_view .., Tx.noteKey_ticks ..⟩

theorem getDefinitionOf_spec {e : WorkflowExecution} {d : WorkflowDefinition}
    (h : Returns env (getDefinitionOf e) tx d tx') :
    (view tx.view).definition e.versionKey = some d ∧ tx'.view = tx.view ∧
      tx'.ticks = tx.ticks := by
  obtain ⟨⟨row, hrow, rfl⟩, rfl⟩ := returns_getDefinitionOf.mp h
  exact ⟨Encoded.definition (k := e.versionKey) hrow, Tx.noteKey_view .., Tx.noteKey_ticks ..⟩

theorem getClaimedStep_spec {e : WorkflowExecution} {id name workerId : String}
    {s : WorkflowStepExecution} (enc : Encoded tx.view) (hp : PlainId id)
    (h : Returns env (getClaimedStep e id name workerId) tx s tx') :
    (view tx.view).step ⟨id, name, e.currentStepAttempt⟩ = some s ∧
      s.stepKey = ⟨id, name, e.currentStepAttempt⟩ ∧ Owned s workerId (env.answer tx.ticks .clock) ∧
      tx'.view = tx.view := by
  obtain ⟨⟨row, hrow, rfl⟩, hown, rfl⟩ := returns_getClaimedStep.mp h
  have hstep := enc.step (k := ⟨id, name, e.currentStepAttempt⟩) hp hrow
  exact ⟨hstep.1, hstep.2, hown, Tx.noteKey_view ..⟩

theorem getClaimedStep_ticks {e : WorkflowExecution} {id name workerId : String}
    {s : WorkflowStepExecution} (h : Returns env (getClaimedStep e id name workerId) tx s tx') :
    tx'.ticks = tx.ticks + 1 := by
  obtain ⟨-, -, rfl⟩ := returns_getClaimedStep.mp h
  rw [Tx.tick_ticks, Tx.noteKey_ticks]

theorem returns_makeStepExecution {e : WorkflowExecution} {name : String} {attempt : Int32}
    {input : Json} {scheduledAt : Option TimePoint} {s : WorkflowStepExecution}
    (hname : e.currentStepName = name) (hattempt : e.currentStepAttempt = attempt) :
    Returns env (makeStepExecution e name attempt input scheduledAt) tx s tx' ↔
      s = e.pendingStep input (env.answer tx.ticks .clock) scheduledAt ∧ tx' = tx.tick := by
  subst hname hattempt
  simp only [makeStepExecution, returns_bind, returns_nowForStorage, returns_pure]
  constructor
  · intro h
    obtain ⟨now, _, ⟨rfl, rfl⟩, rfl, rfl⟩ := h
    exact ⟨rfl, rfl⟩
  · intro h
    obtain ⟨rfl, rfl⟩ := h
    exact ⟨_, _, ⟨rfl, rfl⟩, rfl, rfl⟩

theorem returns_scheduleAfter {delay : Option Seconds} {scheduledAt : Option TimePoint}
    (h : Returns env (scheduleAfter delay) tx scheduledAt tx') :
    scheduledAt = delay.map (TimePoint.addSeconds (env.answer tx.ticks .clock)) ∧
      tx'.view = tx.view := by
  cases delay with
  | none =>
    obtain ⟨rfl, rfl⟩ := returns_pure.mp h
    exact ⟨rfl, rfl⟩
  | some delay =>
    simp only [scheduleAfter, returns_bind, returns_nowForStorage, returns_pure] at h
    obtain ⟨now, _, ⟨rfl, rfl⟩, rfl, rfl⟩ := h
    exact ⟨rfl, rfl⟩

end WorkflowEngine.Orchestrator
