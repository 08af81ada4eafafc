import WorkflowEngine.Operations
import WorkflowEngine.WorkflowJson

/-!
# The service and its in-process client

The ten operations of the service, each as one program over the tables, and
the requests and responses that a transport carries. The in-process transport
hands a request to the service as it is.
-/

namespace WorkflowEngine
open Txn Txn.Program WorkflowJson

namespace Orchestrator

def getWorkflowExecution (workflowExecutionId : String) : Op (Option WorkflowExecution) := do
  validateExecutionId workflowExecutionId
  let row ← getExecution workflowExecutionId
  return row.map WorkflowExecutionRow.fromRow

/-- `definitions.list()`, the query that asks for nothing. -/
def listDefinitions : Op (List WorkflowDefinitionRow) :=
  find (σ := schema) .definitions { predicates := [] }

def listWorkflowDefinitions : Op (List WorkflowDefinitionKey) := do
  let definitions ← listDefinitions
  return definitions.map fun definition =>
    { workflowName := definition.workflowName
      workflowVersion := definition.workflowVersion.toInt32 }

end Orchestrator

namespace WorkflowService

def validateWorkflowDefinition (definitionJson : Json) : Op ValidationResult :=
  lift (validateWorkflowJson definitionJson)

def registerWorkflowDefinition (definitionJson : Json) : Op WorkflowDefinition := do
  let definition ← lift (parseWorkflowDefinition definitionJson)
  Orchestrator.registerWorkflowDefinition definition

def listWorkflowDefinitions : Op (List WorkflowDefinitionKey) :=
  Orchestrator.listWorkflowDefinitions

def startWorkflowExecution (workflowName : String) (workflowVersion : Int32) (input : Json) :
    Op WorkflowExecution :=
  Orchestrator.startWorkflow workflowName workflowVersion input

def getWorkflowExecution (workflowExecutionId : String) : Op (Option WorkflowExecution) :=
  Orchestrator.getWorkflowExecution workflowExecutionId

def cancelWorkflow (workflowExecutionId : String) : Op WorkflowExecution :=
  Orchestrator.cancelWorkflow workflowExecutionId

def pollAndClaimWorkflowSteps (workflowName : String) (workflowVersion : Int32) (workerId : String)
    (maxResults : UInt64) : Op (List WorkflowStepExecution) :=
  Orchestrator.pollAndClaimWorkflowSteps workflowName workflowVersion workerId maxResults.toNat

def keepAliveWorkflowStep (workflowExecutionId stepName workerId : String) :
    Op WorkflowStepExecution :=
  Orchestrator.keepAliveStep workflowExecutionId stepName workerId

def completeWorkflowStep (workflowExecutionId stepName workerId : String) (stepOutput : Json)
    (nextStepDelay : Option Int64) : Op WorkflowExecution :=
  Orchestrator.completeStep workflowExecutionId stepName workerId stepOutput
    (nextStepDelay.map Int64.toInt)

def failWorkflowStep (workflowExecutionId stepName workerId reason : String) :
    Op WorkflowExecution :=
  Orchestrator.failStep workflowExecutionId stepName workerId reason

end WorkflowService

namespace Transport

/-- A request to one of the ten operations; a delay is a count of seconds in 64 bits. -/
inductive Request where
  | validateWorkflowDefinition (definitionJson : Json)
  | registerWorkflowDefinition (definitionJson : Json)
  | listWorkflowDefinitions
  | startWorkflowExecution (workflowName : String) (workflowVersion : Int32) (input : Json)
  | getWorkflowExecution (workflowExecutionId : String)
  | cancelWorkflow (workflowExecutionId : String)
  | pollAndClaimWorkflowSteps (workflowName : String) (workflowVersion : Int32) (workerId : String)
      (maxResults : UInt64)
  | keepAliveWorkflowStep (workflowExecutionId stepName workerId : String)
  | completeWorkflowStep (workflowExecutionId stepName workerId : String) (stepOutput : Json)
      (nextStepDelay : Option Int64)
  | failWorkflowStep (workflowExecutionId stepName workerId reason : String)

inductive Response where
  | validation (validation : ValidationResult)
  | definition (definition : WorkflowDefinition)
  | definitions (definitions : List WorkflowDefinitionKey)
  | execution (execution : WorkflowExecution)
  | found (execution : Option WorkflowExecution)
  | steps (steps : List WorkflowStepExecution)
  | step (step : WorkflowStepExecution)
  deriving DecidableEq

end Transport

namespace InProcessTransport
open Transport

def call : Request → Op Transport.Response
  | .validateWorkflowDefinition definitionJson => do
    return .validation (← WorkflowService.validateWorkflowDefinition definitionJson)
  | .registerWorkflowDefinition definitionJson => do
    return .definition (← WorkflowService.registerWorkflowDefinition definitionJson)
  | .listWorkflowDefinitions => do
    return .definitions (← WorkflowService.listWorkflowDefinitions)
  | .startWorkflowExecution workflowName workflowVersion input => do
    return .execution (← WorkflowService.startWorkflowExecution workflowName workflowVersion input)
  | .getWorkflowExecution workflowExecutionId => do
    return .found (← WorkflowService.getWorkflowExecution workflowExecutionId)
  | .cancelWorkflow workflowExecutionId => do
    return .execution (← WorkflowService.cancelWorkflow workflowExecutionId)
  | .pollAndClaimWorkflowSteps workflowName workflowVersion workerId maxResults => do
    return .steps (← WorkflowService.pollAndClaimWorkflowSteps workflowName workflowVersion workerId
      maxResults)
  | .keepAliveWorkflowStep workflowExecutionId stepName workerId => do
    return .step (← WorkflowService.keepAliveWorkflowStep workflowExecutionId stepName workerId)
  | .completeWorkflowStep workflowExecutionId stepName workerId stepOutput nextStepDelay => do
    return .execution (← WorkflowService.completeWorkflowStep workflowExecutionId stepName workerId
      stepOutput nextStepDelay)
  | .failWorkflowStep workflowExecutionId stepName workerId reason => do
    return .execution (← WorkflowService.failWorkflowStep workflowExecutionId stepName workerId
      reason)

end InProcessTransport
end WorkflowEngine
