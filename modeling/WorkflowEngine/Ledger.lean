import WorkflowEngine.Orchestrator

/-!
# The ledger of executions

The purpose of the engine without its storage: a ledger of definitions,
executions, singleton holders and step executions, each found by its identity,
and the transitions it can make. Key texts, queries and the order in which an
operation reads and writes do not occur here. The ledger keeps rows, since a
time stamp is kept as text, and `execution` and `step` read records off them.
-/

namespace WorkflowEngine

structure StepKey where
  workflowExecutionId : String
  stepName : String
  attempt : Int32
  deriving DecidableEq

abbrev VersionKey := String × Int32

namespace WorkflowStepExecution

def stepKey (s : WorkflowStepExecution) : StepKey := ⟨s.workflowExecutionId, s.stepName, s.attempt⟩

def versionKey (s : WorkflowStepExecution) : VersionKey := (s.workflowName, s.workflowVersion)

@[simp] theorem stored_stepKey (s : WorkflowStepExecution) : s.stored.stepKey = s.stepKey := rfl
@[simp] theorem stored_versionKey (s : WorkflowStepExecution) :
    s.stored.versionKey = s.versionKey := rfl
@[simp] theorem stored_status (s : WorkflowStepExecution) : s.stored.status = s.status := rfl
@[simp] theorem stored_workerId (s : WorkflowStepExecution) : s.stored.workerId = s.workerId := rfl
@[simp] theorem stored_state (s : WorkflowStepExecution) : s.stored.state = s.state := rfl

def claimedBy (s : WorkflowStepExecution) (workerId : String) (now deadline : TimePoint) :
    WorkflowStepExecution :=
  { s with
    status := .running
    workerId := some workerId
    leaseExpiresAt := some deadline
    failureReason := none
    startedAt := some now }

def renewedUntil (s : WorkflowStepExecution) (deadline : TimePoint) : WorkflowStepExecution :=
  { s with leaseExpiresAt := some deadline }

def completedWith (s : WorkflowStepExecution) (output : Json) (at_ : TimePoint) :
    WorkflowStepExecution :=
  { s with
    status := .completed
    output := output
    leaseExpiresAt := none
    completedAt := some at_ }

def failedFor (s : WorkflowStepExecution) (reason : String) (at_ : TimePoint) :
    WorkflowStepExecution :=
  { s with
    status := .failed
    failureReason := some reason
    leaseExpiresAt := none
    completedAt := some at_ }

def canceledAt (s : WorkflowStepExecution) (at_ : TimePoint) : WorkflowStepExecution :=
  { s with
    status := .canceled
    workerId := none
    leaseExpiresAt := none
    completedAt := some at_ }

@[simp] theorem claimedBy_stepKey (s : WorkflowStepExecution) (workerId : String)
    (now deadline : TimePoint) : (s.claimedBy workerId now deadline).stepKey = s.stepKey := rfl
@[simp] theorem renewedUntil_stepKey (s : WorkflowStepExecution) (deadline : TimePoint) :
    (s.renewedUntil deadline).stepKey = s.stepKey := rfl
@[simp] theorem completedWith_stepKey (s : WorkflowStepExecution) (output : Json)
    (at_ : TimePoint) : (s.completedWith output at_).stepKey = s.stepKey := rfl
@[simp] theorem failedFor_stepKey (s : WorkflowStepExecution) (reason : String) (at_ : TimePoint) :
    (s.failedFor reason at_).stepKey = s.stepKey := rfl
@[simp] theorem canceledAt_stepKey (s : WorkflowStepExecution) (at_ : TimePoint) :
    (s.canceledAt at_).stepKey = s.stepKey := rfl

end WorkflowStepExecution

namespace WorkflowExecution

def versionKey (e : WorkflowExecution) : VersionKey := (e.workflowName, e.workflowVersion)

def currentKey (e : WorkflowExecution) : StepKey :=
  ⟨e.workflowExecutionId, e.currentStepName, e.currentStepAttempt⟩

/-- A new attempt at the current step, not yet claimed. -/
def pendingStep (e : WorkflowExecution) (input : Json) (createdAt : TimePoint)
    (scheduledAt : Option TimePoint) : WorkflowStepExecution where
  workflowExecutionId := e.workflowExecutionId
  workflowName := e.workflowName
  workflowVersion := e.workflowVersion
  stepName := e.currentStepName
  attempt := e.currentStepAttempt
  input := input
  state := e.state
  createdAt := some createdAt
  scheduledAt := scheduledAt

@[simp] theorem stored_versionKey (e : WorkflowExecution) : e.stored.versionKey = e.versionKey := rfl
@[simp] theorem stored_currentKey (e : WorkflowExecution) : e.stored.currentKey = e.currentKey := rfl
@[simp] theorem stored_status (e : WorkflowExecution) : e.stored.status = e.status := rfl

@[simp] theorem pendingStep_stepKey (e : WorkflowExecution) (input : Json) (createdAt : TimePoint)
    (scheduledAt : Option TimePoint) :
    (e.pendingStep input createdAt scheduledAt).stepKey = e.currentKey := rfl

def completedAtState (e : WorkflowExecution) (state : Json) (at_ : TimePoint) : WorkflowExecution :=
  { e with state := state, status := .completed, completedAt := some at_ }

def movedTo (e : WorkflowExecution) (state : Json) (stepName : String) : WorkflowExecution :=
  { e with state := state, currentStepName := stepName, currentStepAttempt := 0 }

def retried (e : WorkflowExecution) : WorkflowExecution :=
  { e with currentStepAttempt := e.currentStepAttempt + 1 }

def failedFor (e : WorkflowExecution) (reason : String) (at_ : TimePoint) : WorkflowExecution :=
  { e with status := .failed, failureReason := some reason, completedAt := some at_ }

def canceledAt (e : WorkflowExecution) (at_ : TimePoint) : WorkflowExecution :=
  { e with status := .canceled, completedAt := some at_ }

theorem currentKey_retried_ne (e : WorkflowExecution) : e.retried.currentKey ≠ e.currentKey := by
  intro h
  have hattempt : e.currentStepAttempt + 1 = e.currentStepAttempt := congrArg StepKey.attempt h
  grind

end WorkflowExecution

@[ext] structure Ledger where
  definition : VersionKey → Option WorkflowDefinition
  executionRow : String → Option WorkflowExecutionRow
  lock : VersionKey → Option String
  stepRow : StepKey → Option WorkflowStepExecutionRow

namespace Ledger

def execution (L : Ledger) (id : String) : Option WorkflowExecution :=
  (L.executionRow id).map WorkflowExecutionRow.fromRow

def step (L : Ledger) (k : StepKey) : Option WorkflowStepExecution :=
  (L.stepRow k).map WorkflowStepExecutionRow.fromRow

def empty : Ledger := ⟨fun _ => none, fun _ => none, fun _ => none, fun _ => none⟩

def setDefinition (L : Ledger) (d : WorkflowDefinition) : Ledger :=
  { L with
    definition := Function.update L.definition (d.workflowName, d.workflowVersion) (some d) }

def setExecution (L : Ledger) (e : WorkflowExecution) : Ledger :=
  { L with executionRow := Function.update L.executionRow e.workflowExecutionId (some e.toRow) }

def setStep (L : Ledger) (s : WorkflowStepExecution) : Ledger :=
  { L with stepRow := Function.update L.stepRow s.stepKey (some s.toRow) }

def setLock (L : Ledger) (e : WorkflowExecution) : Ledger :=
  { L with lock := Function.update L.lock e.versionKey (some e.workflowExecutionId) }

def takeLock (L : Ledger) (singleton : Bool) (e : WorkflowExecution) : Ledger :=
  if singleton then L.setLock e else L

def cancelRow (now : TimePoint) (row : WorkflowStepExecutionRow) : WorkflowStepExecutionRow :=
  if row.fromRow.status.Active then (row.fromRow.canceledAt now).toRow else row

def cancelSteps (L : Ledger) (workflowExecutionId : String) (now : TimePoint) : Ledger :=
  { L with
    stepRow := fun k => if k.workflowExecutionId = workflowExecutionId then
        (L.stepRow k).map (cancelRow now)
      else L.stepRow k }

@[simp] theorem setDefinition_executionRow (L : Ledger) (d : WorkflowDefinition) :
    (L.setDefinition d).executionRow = L.executionRow := rfl
@[simp] theorem setDefinition_lock (L : Ledger) (d : WorkflowDefinition) :
    (L.setDefinition d).lock = L.lock := rfl
@[simp] theorem setDefinition_stepRow (L : Ledger) (d : WorkflowDefinition) :
    (L.setDefinition d).stepRow = L.stepRow := rfl
@[simp] theorem setExecution_definition (L : Ledger) (e : WorkflowExecution) :
    (L.setExecution e).definition = L.definition := rfl
@[simp] theorem setExecution_lock (L : Ledger) (e : WorkflowExecution) :
    (L.setExecution e).lock = L.lock := rfl
@[simp] theorem setExecution_stepRow (L : Ledger) (e : WorkflowExecution) :
    (L.setExecution e).stepRow = L.stepRow := rfl
@[simp] theorem setExecution_step (L : Ledger) (e : WorkflowExecution) :
    (L.setExecution e).step = L.step := rfl
@[simp] theorem setStep_definition (L : Ledger) (s : WorkflowStepExecution) :
    (L.setStep s).definition = L.definition := rfl
@[simp] theorem setStep_executionRow (L : Ledger) (s : WorkflowStepExecution) :
    (L.setStep s).executionRow = L.executionRow := rfl
@[simp] theorem setStep_execution (L : Ledger) (s : WorkflowStepExecution) :
    (L.setStep s).execution = L.execution := rfl
@[simp] theorem setStep_lock (L : Ledger) (s : WorkflowStepExecution) :
    (L.setStep s).lock = L.lock := rfl
@[simp] theorem takeLock_definition (L : Ledger) (b : Bool) (e : WorkflowExecution) :
    (L.takeLock b e).definition = L.definition := by
  unfold takeLock
  split_ifs <;> rfl
@[simp] theorem takeLock_executionRow (L : Ledger) (b : Bool) (e : WorkflowExecution) :
    (L.takeLock b e).executionRow = L.executionRow := by
  unfold takeLock
  split_ifs <;> rfl
@[simp] theorem takeLock_stepRow (L : Ledger) (b : Bool) (e : WorkflowExecution) :
    (L.takeLock b e).stepRow = L.stepRow := by
  unfold takeLock
  split_ifs <;> rfl
@[simp] theorem takeLock_step (L : Ledger) (b : Bool) (e : WorkflowExecution) :
    (L.takeLock b e).step = L.step := by
  unfold takeLock
  split_ifs <;> rfl
@[simp] theorem cancelSteps_definition (L : Ledger) (id : String) (now : TimePoint) :
    (L.cancelSteps id now).definition = L.definition := rfl
@[simp] theorem cancelSteps_executionRow (L : Ledger) (id : String) (now : TimePoint) :
    (L.cancelSteps id now).executionRow = L.executionRow := rfl
@[simp] theorem cancelSteps_lock (L : Ledger) (id : String) (now : TimePoint) :
    (L.cancelSteps id now).lock = L.lock := rfl

theorem step_eq_some {L : Ledger} {k : StepKey} {s : WorkflowStepExecution} :
    L.step k = some s ↔ ∃ row, L.stepRow k = some row ∧ row.fromRow = s := by
  simp only [step, Option.map_eq_some_iff]

theorem execution_eq_some {L : Ledger} {id : String} {e : WorkflowExecution} :
    L.execution id = some e ↔ ∃ row, L.executionRow id = some row ∧ row.fromRow = e := by
  simp only [execution, Option.map_eq_some_iff]

theorem setExecution_execution (L : Ledger) (e : WorkflowExecution) (id : String) :
    (L.setExecution e).execution id =
      if id = e.workflowExecutionId then some e.stored else L.execution id := by
  simp only [setExecution, execution, Function.update_apply]
  split_ifs
  · rw [Option.map_some, WorkflowExecution.fromRow_toRow]
  · rfl

theorem setStep_stepRow (L : Ledger) (s : WorkflowStepExecution) (k : StepKey) :
    (L.setStep s).stepRow k = if k = s.stepKey then some s.toRow else L.stepRow k := by
  simp only [setStep, Function.update_apply]

theorem setStep_step (L : Ledger) (s : WorkflowStepExecution) (k : StepKey) :
    (L.setStep s).step k = if k = s.stepKey then some s.stored else L.step k := by
  rw [step, setStep_stepRow]
  split_ifs
  · rw [Option.map_some, WorkflowStepExecution.fromRow_toRow]
  · rfl

theorem setDefinition_definition (L : Ledger) (d : WorkflowDefinition) (k : VersionKey) :
    (L.setDefinition d).definition k =
      if k = (d.workflowName, d.workflowVersion) then some d else L.definition k := by
  simp only [setDefinition, Function.update_apply]

theorem takeLock_lock (L : Ledger) (b : Bool) (e : WorkflowExecution) (k : VersionKey) :
    (L.takeLock b e).lock k =
      if b = true ∧ k = e.versionKey then some e.workflowExecutionId else L.lock k := by
  unfold takeLock
  cases b <;> simp [setLock, Function.update_apply]

theorem fromRow_cancelRow (now : TimePoint) (row : WorkflowStepExecutionRow) :
    (cancelRow now row).fromRow =
      if row.fromRow.status.Active then (row.fromRow.canceledAt now).stored else row.fromRow := by
  unfold cancelRow
  split_ifs
  · rw [WorkflowStepExecution.fromRow_toRow]
  · rfl

theorem cancelSteps_step (L : Ledger) (id : String) (now : TimePoint) (k : StepKey) :
    (L.cancelSteps id now).step k = (L.step k).map fun s =>
      if k.workflowExecutionId = id ∧ s.status.Active then (s.canceledAt now).stored else s := by
  simp only [step, cancelSteps]
  by_cases hk : k.workflowExecutionId = id
  · simp only [hk, if_true, Option.map_map, true_and]
    congr 1
    funext row
    exact fromRow_cancelRow now row
  · simp only [hk, if_false, false_and, Option.map_id']

end Ledger

inductive Event where
  | registered (definition : WorkflowDefinition)
  | started (execution : WorkflowExecution) (singleton : Bool)
  | claimed (step : WorkflowStepExecution) (now : TimePoint)
  | renewed (key : StepKey) (workerId : String) (now : TimePoint)
  | finished (key : StepKey) (workerId : String) (now : TimePoint)
  | advanced (key : StepKey) (workerId : String) (now : TimePoint) (next : String)
  | retried (key : StepKey) (workerId : Option String) (now : TimePoint)
  | exhausted (key : StepKey) (workerId : Option String) (now : TimePoint)
  | canceled (workflowExecutionId : String)

def Event.subject : Event → Option String
  | .registered _ => none
  | .started e _ => some e.workflowExecutionId
  | .claimed s _ => some s.workflowExecutionId
  | .renewed k _ _ | .finished k _ _ | .advanced k _ _ _ | .retried k _ _ | .exhausted k _ _ =>
      some k.workflowExecutionId
  | .canceled id => some id

def WorkflowDefinition.lease (d : WorkflowDefinition) (stepName : String) :
    Except Exception Seconds := do
  Orchestrator.leaseDurationForStep (← Orchestrator.findStepDefinition d stepName)

structure Owned (s : WorkflowStepExecution) (workerId : String) (now : TimePoint) : Prop where
  claimed : s.status = .running
  owner : s.workerId = some workerId
  lease : ∃ deadline, s.leaseExpiresAt = some deadline ∧ now < deadline

namespace Ledger

/-- No Running execution holds the singleton lock of the key. -/
def Unlocked (L : Ledger) (key : VersionKey) : Prop :=
  ∀ id e, L.lock key = some id → L.execution id = some e → e.status ≠ .running

/-- The execution is Running and the row is its current attempt. -/
structure Current (L : Ledger) (e : WorkflowExecution) (s : WorkflowStepExecution) : Prop where
  execution : L.execution e.workflowExecutionId = some e
  running : e.status = .running
  step : L.step e.currentKey = some s

structure Held (L : Ledger) (e : WorkflowExecution) (s : WorkflowStepExecution) (workerId : String)
    (now : TimePoint) : Prop extends L.Current e s, Owned s workerId now

structure Expired (L : Ledger) (e : WorkflowExecution) (s : WorkflowStepExecution)
    (now : TimePoint) : Prop extends L.Current e s where
  claimed : s.status = .running
  lease : ∃ deadline, s.leaseExpiresAt = some deadline ∧ deadline ≤ now

/-- Why a claimed attempt fails: its worker says so, or its lease ran out. -/
inductive Failing (L : Ledger) (e : WorkflowExecution) (s : WorkflowStepExecution)
    (now : TimePoint) : Option String → String → Prop
  | reported {workerId reason : String} (held : L.Held e s workerId now) :
      Failing L e s now (some workerId) reason
  | expired (h : L.Expired e s now) : Failing L e s now none "lease expired"

inductive Transition : Ledger → Event → Ledger → Prop
  | register (L : Ledger) (d : WorkflowDefinition) :
      Transition L (.registered d) (L.setDefinition d)
  | start {L : Ledger} {d : WorkflowDefinition} {e : WorkflowExecution} {createdAt : TimePoint}
      (definition : L.definition e.versionKey = some d)
      (fresh : L.execution e.workflowExecutionId = none)
      (unlocked : d.singleton = true → L.Unlocked e.versionKey)
      (running : e.status = .running) (first : e.currentStepName = d.startWorkflowStepName)
      (attempt : e.currentStepAttempt = 0) (state : e.state = .object []) :
      Transition L (.started e d.singleton)
        (((L.takeLock d.singleton e).setExecution e).setStep
          (e.pendingStep e.input createdAt none))
  | claim {L : Ledger} {s : WorkflowStepExecution} {d : WorkflowDefinition} {workerId : String}
      {now : TimePoint} {lease : Seconds}
      (step : L.step s.stepKey = some s) (claimable : Orchestrator.isClaimable s now = true)
      (definition : L.definition s.versionKey = some d) (duration : d.lease s.stepName = .ok lease) :
      Transition L (.claimed (s.claimedBy workerId now (now.addSeconds lease)) now)
        (L.setStep (s.claimedBy workerId now (now.addSeconds lease)))
  | renew {L : Ledger} {e : WorkflowExecution} {s : WorkflowStepExecution} {d : WorkflowDefinition}
      {workerId : String} {now at_ : TimePoint} {lease : Seconds}
      (held : L.Held e s workerId now) (definition : L.definition e.versionKey = some d)
      (duration : d.lease e.currentStepName = .ok lease) :
      Transition L (.renewed e.currentKey workerId now)
        (L.setStep (s.renewedUntil (at_.addSeconds lease)))
  | finish {L : Ledger} {e : WorkflowExecution} {s : WorkflowStepExecution} {workerId : String}
      {now at_ at' : TimePoint} {output state : Json} (held : L.Held e s workerId now) :
      Transition L (.finished e.currentKey workerId now)
        ((L.setStep (s.completedWith output at_)).setExecution
          (e.completedAtState state at'))
  | advance {L : Ledger} {e : WorkflowExecution} {s : WorkflowStepExecution}
      {d : WorkflowDefinition} {workerId next : String} {now at_ createdAt : TimePoint}
      {scheduledAt : Option TimePoint} {output state input : Json}
      (held : L.Held e s workerId now) (definition : L.definition e.versionKey = some d)
      (defined : Orchestrator.stepDefinitionExists d next = true) :
      Transition L (.advanced e.currentKey workerId now next)
        (((L.setStep (s.completedWith output at_)).setExecution
          (e.movedTo state next)).setStep
            ((e.movedTo state next).pendingStep input createdAt scheduledAt))
  | retry {L : Ledger} {e : WorkflowExecution} {s : WorkflowStepExecution} {d : WorkflowDefinition}
      {step : WorkflowStep} {workerId : Option String} {reason : String}
      {now at_ createdAt : TimePoint} (failing : L.Failing e s now workerId reason)
      (definition : L.definition e.versionKey = some d)
      (found : Orchestrator.findStepDefinition d e.currentStepName = .ok step)
      (budget : e.currentStepAttempt < Orchestrator.maxRetriesForStep step) :
      Transition L (.retried e.currentKey workerId now)
        (((L.setStep (s.failedFor reason at_)).setExecution e.retried).setStep
          (e.retried.pendingStep s.input createdAt none))
  | exhaust {L : Ledger} {e : WorkflowExecution} {s : WorkflowStepExecution}
      {d : WorkflowDefinition} {step : WorkflowStep} {workerId : Option String} {reason : String}
      {now at_ at' : TimePoint} (failing : L.Failing e s now workerId reason)
      (definition : L.definition e.versionKey = some d)
      (found : Orchestrator.findStepDefinition d e.currentStepName = .ok step)
      (spent : ¬ e.currentStepAttempt < Orchestrator.maxRetriesForStep step) :
      Transition L (.exhausted e.currentKey workerId now)
        ((L.setStep (s.failedFor reason at_)).setExecution (e.failedFor reason at'))
  | cancel {L : Ledger} {e : WorkflowExecution} {now : TimePoint}
      (execution : L.execution e.workflowExecutionId = some e) (running : e.status = .running) :
      Transition L (.canceled e.workflowExecutionId)
        ((L.cancelSteps e.workflowExecutionId now).setExecution (e.canceledAt now))

theorem Failing.current {L : Ledger} {e : WorkflowExecution} {s : WorkflowStepExecution}
    {now : TimePoint} {workerId : Option String} {reason : String}
    (h : L.Failing e s now workerId reason) : L.Current e s := by
  cases h with
  | reported held => exact held.toCurrent
  | expired h => exact h.toCurrent

theorem Failing.claimed {L : Ledger} {e : WorkflowExecution} {s : WorkflowStepExecution}
    {now : TimePoint} {workerId : Option String} {reason : String}
    (h : L.Failing e s now workerId reason) : s.status = .running := by
  cases h with
  | reported held => exact held.claimed
  | expired h => exact h.claimed

end Ledger
end WorkflowEngine
