import WorkflowEngine.Orchestrator
import WorkflowEngine.Systems.Run

/-!
# Calls and runs

The public operations as data, one call of an operation together with what its
environment says, and runs of calls. A call outside a caller's transaction is
atomic: it commits what it staged or leaves the store as it was.
-/

namespace WorkflowEngine
open Txn

inductive Operation where
  | registerWorkflowDefinition (definition : WorkflowDefinition)
  | startWorkflow (workflowName : String) (workflowVersion : Int32) (input : Json)
  | pollAndClaimWorkflowSteps (workflowName : String) (workflowVersion : Int32) (workerId : String)
      (maxResults : ℕ)
  | keepAliveStep (workflowExecutionId stepName workerId : String)
  | completeStep (workflowExecutionId stepName workerId : String) (stepOutput : Json)
      (nextStepDelay : Option Seconds)
  | failStep (workflowExecutionId stepName workerId reason : String)
  | cancelWorkflow (workflowExecutionId : String)
  | sweepExpiredLeases

inductive Response where
  | definition (definition : WorkflowDefinition)
  | execution (execution : WorkflowExecution)
  | claimed (steps : List WorkflowStepExecution)
  | step (step : WorkflowStepExecution)
  | swept (result : SweepResult)

def Operation.program : Operation → Op Response
  | .registerWorkflowDefinition definition => do
    return .definition (← Orchestrator.registerWorkflowDefinition definition)
  | .startWorkflow workflowName workflowVersion input => do
    return .execution (← Orchestrator.startWorkflow workflowName workflowVersion input)
  | .pollAndClaimWorkflowSteps workflowName workflowVersion workerId maxResults => do
    return .claimed
      (← Orchestrator.pollAndClaimWorkflowSteps workflowName workflowVersion workerId maxResults)
  | .keepAliveStep workflowExecutionId stepName workerId => do
    return .step (← Orchestrator.keepAliveStep workflowExecutionId stepName workerId)
  | .completeStep workflowExecutionId stepName workerId stepOutput nextStepDelay => do
    return .execution (← Orchestrator.completeStep workflowExecutionId stepName workerId stepOutput
      nextStepDelay)
  | .failStep workflowExecutionId stepName workerId reason => do
    return .execution (← Orchestrator.failStep workflowExecutionId stepName workerId reason)
  | .cancelWorkflow workflowExecutionId => do
    return .execution (← Orchestrator.cancelWorkflow workflowExecutionId)
  | .sweepExpiredLeases => do
    return .swept (← Orchestrator.sweepExpiredLeases)

abbrev Environment := Env schema Question Question.Answer

structure Call where
  operation : Operation
  env : Environment

namespace Call

/-- The n-th reading of the clock, if the n-th question is one. -/
def reading (c : Call) (n : ℕ) : TimePoint := c.env.answer n .clock

/-- The reading that a poll, a sweep and a worker's request decide by: their first question. -/
def now (c : Call) : TimePoint := c.reading 0

variable {E : Engine schema}

def perform (c : Call) (db : E.Db) : Except Exception Response × E.Db :=
  Program.atomic c.env c.operation.program db

def result (c : Call) (db : E.Db) : Except Exception Response := (c.perform db).1

def after (c : Call) (db : E.Db) : E.Db := (c.perform db).2

/-- A started execution gets an identifier that no execution has. -/
def Fresh (c : Call) (db : E.Db) : Prop :=
  ∀ workflowName workflowVersion input e,
    c.operation = .startWorkflow workflowName workflowVersion input →
    c.result db = .ok (.execution e) → E.get db .executions e.workflowExecutionId = none

def Step (db : E.Db) (c : Call) (db' : E.Db) : Prop := c.Fresh db ∧ db' = c.after db

/-- The readings of a call do not go back and start no earlier than `t`. -/
def NondecreasingFrom (t : TimePoint) (c : Call) : Prop := t ≤ c.now ∧ Monotone c.reading

theorem result_ok {c : Call} {db : E.Db} {r : Response} (h : c.result db = .ok r) :
    ∃ tx, Program.Returns c.env c.operation.program (Tx.begin db) r tx ∧ tx.view = c.after db := by
  have hp : c.perform db = (.ok r, c.after db) := Prod.ext h rfl
  exact Program.atomic_ok.mp hp

theorem result_error {c : Call} {db : E.Db} {e : Exception} (h : c.result db = .error e) :
    c.after db = db := by
  have hp : c.perform db = (.error e, c.after db) := Prod.ext h rfl
  exact (Program.atomic_error.mp hp).2

end Call

abbrev Calls (E : Engine schema) := Systems.Run (Call.Step (E := E))

/-- A call and what its caller got. -/
structure Entry where
  call : Call
  result : Except Exception Response

namespace Entry

def Step {E : Engine schema} (db : E.Db) (x : Entry) (db' : E.Db) : Prop :=
  Call.Step db x.call db' ∧ x.result = x.call.result db

def claimed (x : Entry) : List WorkflowStepExecution :=
  match x.result with
  | .ok (.claimed steps) => steps
  | _ => []

def renewed (x : Entry) : Option WorkflowStepExecution :=
  match x.result with
  | .ok (.step step) => some step
  | _ => none

end Entry

abbrev History (E : Engine schema) := Systems.Run (Entry.Step (E := E))

theorem History.calls {E : Engine schema} {db db' : E.Db} {h : List Entry}
    (run : History E db h db') : Calls E db (h.map Entry.call) db' := by
  induction run with
  | nil => exact .nil
  | snoc _ last ih =>
    rw [List.map_append]
    exact ih.snoc last.1

/-- One clock that does not go back serves the calls, from the time `t` on. -/
def ClockFrom : TimePoint → List Call → Prop
  | _, [] => True
  | t, c :: calls => c.NondecreasingFrom t ∧ ∃ t', (∀ n, c.reading n ≤ t') ∧ ClockFrom t' calls

theorem ClockFrom.mono {t t' : TimePoint} (ht : t' ≤ t) {calls : List Call}
    (h : ClockFrom t calls) : ClockFrom t' calls := by
  cases calls with
  | nil => trivial
  | cons c calls => exact ⟨⟨ht.trans h.1.1, h.1.2⟩, h.2⟩

theorem ClockFrom.le_now {t : TimePoint} {calls : List Call} (h : ClockFrom t calls) :
    ∀ c ∈ calls, t ≤ c.now := by
  induction calls generalizing t with
  | nil => simp
  | cons c calls ih =>
    obtain ⟨hc, t', ht', hrest⟩ := h
    have htt' : t ≤ t' := hc.1.trans (ht' 0)
    intro c' hc'
    rcases List.mem_cons.mp hc' with rfl | hc'
    · exact hc.1
    · exact ih (hrest.mono htt') c' hc'

/-- What atomic calls can make of the empty store. -/
def Reachable (E : Engine schema) (db : E.Db) : Prop := ∃ calls, Calls E E.empty calls db

end WorkflowEngine
