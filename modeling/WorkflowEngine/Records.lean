import WorkflowEngine.Json

/-!
# Definitions, executions and step executions
-/

namespace WorkflowEngine

inductive WorkflowExecutionStatus where
  | running | completed | failed | canceled
  deriving DecidableEq, Repr

inductive StepExecutionStatus where
  | pending | running | completed | failed | canceled
  deriving DecidableEq, Repr

structure WorkflowStep where
  name : String
  expectedExecutionTime : Option String := none
  maxRetries : Option Int32 := none
  additionalFields : Json.Object := []
  deriving DecidableEq

structure WorkflowDefinition where
  workflowName : String
  workflowVersion : Int32
  startWorkflowStepName : String
  expectedExecutionTime : String
  singleton : Bool := false
  steps : List WorkflowStep
  deriving DecidableEq

structure WorkflowDefinitionKey where
  workflowName : String
  workflowVersion : Int32
  deriving DecidableEq

structure WorkflowExecution where
  workflowExecutionId : String
  workflowName : String
  workflowVersion : Int32
  status : WorkflowExecutionStatus := .running
  currentStepName : String
  input : Json := .object []
  state : Json := .object []
  currentStepAttempt : Int32 := 0
  failureReason : Option String := none
  startedAt : Option TimePoint := none
  completedAt : Option TimePoint := none
  deriving DecidableEq

structure WorkflowStepExecution where
  workflowExecutionId : String
  workflowName : String
  workflowVersion : Int32
  stepName : String
  attempt : Int32
  status : StepExecutionStatus := .pending
  workerId : Option String := none
  leaseExpiresAt : Option TimePoint := none
  failureReason : Option String := none
  createdAt : Option TimePoint := none
  scheduledAt : Option TimePoint := none
  startedAt : Option TimePoint := none
  completedAt : Option TimePoint := none
  input : Json := .object []
  state : Json := .object []
  output : Json := .object []
  deriving DecidableEq

structure StepCompletionContext where
  workflowName : String
  workflowVersion : Int32
  workflowExecutionId : String
  completedStepName : String
  input : Json
  state : Json
  stepOutput : Json
  deriving DecidableEq

structure NextStepDecision where
  workflowComplete : Bool := false
  nextStepName : Option String := none
  updatedState : Json := .object []
  nextStepInput : Json := .object []
  deriving DecidableEq

structure SweepResult where
  retriedCount : ℕ := 0
  failedCount : ℕ := 0
  deriving DecidableEq, Repr

namespace WorkflowExecutionStatus

def toString : WorkflowExecutionStatus → String
  | .running => "Running"
  | .completed => "Completed"
  | .failed => "Failed"
  | .canceled => "Canceled"

def fromString (s : String) : WorkflowExecutionStatus :=
  if s = "Completed" then .completed
  else if s = "Failed" then .failed
  else if s = "Canceled" then .canceled
  else .running

@[simp] theorem fromString_toString (status : WorkflowExecutionStatus) :
    fromString status.toString = status := by
  cases status <;> decide

end WorkflowExecutionStatus

namespace StepExecutionStatus

def toString : StepExecutionStatus → String
  | .pending => "Pending"
  | .running => "Running"
  | .completed => "Completed"
  | .failed => "Failed"
  | .canceled => "Canceled"

def fromString (s : String) : StepExecutionStatus :=
  if s = "Running" then .running
  else if s = "Completed" then .completed
  else if s = "Failed" then .failed
  else if s = "Canceled" then .canceled
  else .pending

@[simp] theorem fromString_toString (status : StepExecutionStatus) :
    fromString status.toString = status := by
  cases status <;> decide

/-- A step that is waiting for a worker or held by one. -/
def Active (status : StepExecutionStatus) : Prop := status = .pending ∨ status = .running

instance (status : StepExecutionStatus) : Decidable status.Active :=
  inferInstanceAs (Decidable (_ ∨ _))

end StepExecutionStatus
end WorkflowEngine
