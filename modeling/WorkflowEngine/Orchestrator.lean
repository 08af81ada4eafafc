import WorkflowEngine.Rows
import WorkflowEngine.Duration
import WorkflowEngine.Txn.Program

/-!
# The orchestrator

Every operation of `WorkflowOrchestrator` that takes a transaction, as a
transactional program over the four tables. Clock readings, random draws,
allocations of a caller-chosen size and routing decisions are questions to the
environment, asked in the order of the source.
-/

namespace WorkflowEngine
open Txn

inductive TableName where
  | definitions | executions | singletonLocks | steps
  deriving DecidableEq

abbrev TableName.Row : TableName → Type
  | .definitions => WorkflowDefinitionRow
  | .executions => WorkflowExecutionRow
  | .singletonLocks => WorkflowSingletonLockRow
  | .steps => WorkflowStepExecutionRow

def TableName.key : (t : TableName) → t.Row → String
  | .definitions => WorkflowDefinitionRow.key
  | .executions => WorkflowExecutionRow.key
  | .singletonLocks => WorkflowSingletonLockRow.key
  | .steps => WorkflowStepExecutionRow.key

def TableName.document : (t : TableName) → t.Row → Json
  | .definitions => WorkflowDefinitionRow.toJson
  | .executions => WorkflowExecutionRow.toJson
  | .singletonLocks => WorkflowSingletonLockRow.toJson
  | .steps => WorkflowStepExecutionRow.toJson

abbrev schema : Schema where
  Table := TableName
  Row := TableName.Row
  key := TableName.key
  Query := QuerySpec
  selects t query row := query.holds (t.document row)

inductive Question where
  | clock
  | draw
  | reserve (n : ℕ)
  | decideNextStep (context : StepCompletionContext)

abbrev Question.Answer : Question → Type
  | .clock => TimePoint
  | .draw => UInt32
  | .reserve _ => Except Exception Unit
  | .decideNextStep _ => Except Exception NextStepDecision

abbrev Op := Program schema Question Question.Answer Exception

namespace Orchestrator
open Program

def getDefinition (key : String) : Op (Option WorkflowDefinitionRow) :=
  read (σ := schema) .definitions key
def putDefinition (row : WorkflowDefinitionRow) : Op Unit :=
  store (σ := schema) .definitions row
def getExecution (key : String) : Op (Option WorkflowExecutionRow) :=
  read (σ := schema) .executions key
def putExecution (row : WorkflowExecutionRow) : Op Unit :=
  store (σ := schema) .executions row
def getLock (key : String) : Op (Option WorkflowSingletonLockRow) :=
  read (σ := schema) .singletonLocks key
def putLock (row : WorkflowSingletonLockRow) : Op Unit :=
  store (σ := schema) .singletonLocks row
def getStep (key : String) : Op (Option WorkflowStepExecutionRow) :=
  read (σ := schema) .steps key
def putStep (row : WorkflowStepExecutionRow) : Op Unit :=
  store (σ := schema) .steps row
def querySteps (query : QuerySpec) : Op (List WorkflowStepExecutionRow) :=
  find (σ := schema) .steps query

def nowForStorage : Op TimePoint := demand Question.clock
def draw : Op UInt32 := demand Question.draw

def reserve (n : ℕ) : Op Unit := do lift (← demand (Question.reserve n))

def decideNextStep (context : StepCompletionContext) : Op NextStepDecision := do
  lift (← demand (Question.decideNextStep context))

/-- `%0Nx` -/
def hex (width : ℕ) (n : UInt32) : List Char :=
  let digits := Nat.toDigits 16 n.toNat
  List.replicate (width - digits.length) '0' ++ digits

def formatExecutionId (a b c d e f : UInt32) : String :=
  String.ofList (hex 8 a ++ '-' :: hex 4 b ++ '-' :: hex 4 c ++ '-' :: hex 4 d ++ '-' :: hex 8 e ++
    hex 4 f)

def generateExecutionId : Op String := do
  let a ← draw
  let b ← draw
  let c ← draw
  let d ← draw
  let e ← draw
  let f ← draw
  return formatExecutionId a (b &&& 0xFFFF) ((c &&& 0x0FFF) ||| 0x4000)
    ((d &&& 0x3FFF) ||| 0x8000) e (f &&& 0xFFFF)

def stepQuery (workflowName : String) (workflowVersion : Int32) (status : StepExecutionStatus) :
    QuerySpec where
  predicates :=
    [⟨"$.workflowName", .string workflowName⟩,
     ⟨"$.workflowVersion", .int64 workflowVersion.toInt64⟩,
     ⟨"$.status", .string status.toString⟩]

def stepsByExecutionQuery (workflowExecutionId : String) : QuerySpec where
  predicates := [⟨"$.workflowExecutionId", .string workflowExecutionId⟩]

def expiredRunningStepsQuery : QuerySpec where
  predicates := [⟨"$.status", .string StepExecutionStatus.running.toString⟩]

def findStepDefinition (definition : WorkflowDefinition) (stepName : String) :
    Except Exception WorkflowStep :=
  match definition.steps.find? fun step => step.name == stepName with
  | some step => .ok step
  | none => .error (.runtimeError ("workflow step is not defined: " ++ stepName))

def stepDefinitionExists (definition : WorkflowDefinition) (stepName : String) : Bool :=
  definition.steps.any fun step => step.name == stepName

def maxRetriesForStep (step : WorkflowStep) : Int32 := step.maxRetries.getD 0

def validateWorkflowNameAndVersion (workflowName : String) (workflowVersion : Int32) : Op Unit := do
  throwIf (workflowName = "") (.invalidArgument "workflowName must not be empty")
  throwIf (workflowVersion < 1)
    (.invalidArgument "workflowVersion must be greater than or equal to 1")

def validateExecutionId (workflowExecutionId : String) : Op Unit :=
  throwIf (workflowExecutionId = "") (.invalidArgument "workflowExecutionId must not be empty")

def validateWorkerId (workerId : String) : Op Unit :=
  throwIf (workerId = "") (.invalidArgument "workerId must not be empty")

def validateStepName (stepName : String) : Op Unit :=
  throwIf (stepName = "") (.invalidArgument "stepName must not be empty")

def validateExecutionIsRunning (execution : WorkflowExecution) : Op Unit :=
  throwIf (execution.status ≠ .running)
    (.runtimeError ("workflow execution is not running: " ++ execution.workflowExecutionId))

def validateClaimOwnership (stepExecution : WorkflowStepExecution) (workerId : String) :
    Op Unit := do
  let now ← nowForStorage
  throwIf (stepExecution.status ≠ .running)
    (.runtimeError ("workflow step execution is not running: " ++ stepExecution.stepName))
  let owner ← orThrow stepExecution.workerId
    (.runtimeError
      ("workflow step execution does not have a worker claim: " ++ stepExecution.stepName))
  throwIf (owner ≠ workerId)
    (.runtimeError
      ("workflow step execution is owned by a different worker: " ++ stepExecution.stepName))
  let leaseExpiresAt ← orThrow stepExecution.leaseExpiresAt
    (.runtimeError
      ("workflow step execution does not have an active lease: " ++ stepExecution.stepName))
  throwIf (leaseExpiresAt ≤ now)
    (.runtimeError ("workflow step execution lease has expired: " ++ stepExecution.stepName))

def leaseDurationForStep (step : WorkflowStep) : Except Exception Seconds :=
  match step.expectedExecutionTime with
  | none =>
    .error (.runtimeError
      ("step expectedExecutionTime is required for lease calculation: " ++ step.name))
  | some expectedExecutionTime => Duration.calculateLeaseDuration expectedExecutionTime

def isClaimable (stepExecution : WorkflowStepExecution) (now : TimePoint) : Bool :=
  if stepExecution.status = .pending then
    match stepExecution.scheduledAt with
    | none => true
    | some scheduledAt => scheduledAt ≤ now
  else
    stepExecution.status = .running &&
      match stepExecution.leaseExpiresAt with
      | none => false
      | some leaseExpiresAt => leaseExpiresAt ≤ now

def makeStepExecution (execution : WorkflowExecution) (stepName : String) (attempt : Int32)
    (input : Json) (scheduledAt : Option TimePoint) : Op WorkflowStepExecution := do
  let createdAt ← nowForStorage
  return {
    workflowExecutionId := execution.workflowExecutionId
    workflowName := execution.workflowName
    workflowVersion := execution.workflowVersion
    stepName
    attempt
    status := .pending
    input
    state := execution.state
    output := .object []
    createdAt := some createdAt
    scheduledAt }

def makeSingletonLock (execution : WorkflowExecution) : WorkflowSingletonLockRow where
  workflowName := execution.workflowName
  workflowVersion := execution.workflowVersion.toInt64
  workflowExecutionId := execution.workflowExecutionId
  createdAt := toStorageTime execution.startedAt

def registerWorkflowDefinition (definition : WorkflowDefinition) : Op WorkflowDefinition := do
  validateWorkflowNameAndVersion definition.workflowName definition.workflowVersion
  putDefinition definition.toRow
  return definition

def rejectIfRunning (workflowName : String) : Option WorkflowExecutionRow → Op Unit
  | some existing =>
    throwIf (existing.fromRow.status = .running)
      (.runtimeError ("singleton workflow execution already running: " ++ workflowName))
  | none => pure ()

def checkSingletonLock (workflowName : String) : Option WorkflowSingletonLockRow → Op Unit
  | some lock => do rejectIfRunning workflowName (← getExecution lock.workflowExecutionId)
  | none => pure ()

def takeSingletonLock (singleton : Bool) (execution : WorkflowExecution) : Op Unit :=
  if singleton then do
    let lock ← getLock (singletonLockKey execution.workflowName execution.workflowVersion)
    checkSingletonLock execution.workflowName lock
    putLock (makeSingletonLock execution)
  else pure ()

def startWorkflow (workflowName : String) (workflowVersion : Int32) (input : Json) :
    Op WorkflowExecution := do
  validateWorkflowNameAndVersion workflowName workflowVersion
  let definition ← orThrow (← getDefinition (definitionKey workflowName workflowVersion))
    (.runtimeError ("workflow definition not found: " ++ workflowName))
  let workflowDefinition := definition.fromRow
  let workflowExecutionId ← generateExecutionId
  let startedAt ← nowForStorage
  let execution : WorkflowExecution := {
    workflowExecutionId
    workflowName
    workflowVersion
    status := .running
    currentStepName := workflowDefinition.startWorkflowStepName
    input
    state := .object []
    currentStepAttempt := 0
    startedAt := some startedAt }
  takeSingletonLock workflowDefinition.singleton execution
  putExecution execution.toRow
  let first ← makeStepExecution execution workflowDefinition.startWorkflowStepName 0
    execution.input none
  putStep first.toRow
  return execution

/-- `operator<` on `std::optional`: no value comes before any value. -/
def optionalLess : Option TimePoint → Option TimePoint → Bool
  | none, some _ => true
  | some a, some b => a < b
  | _, none => false

/-- The comparator handed to `std::sort`. -/
def claimsBefore (lhs rhs : WorkflowStepExecution) : Bool :=
  if lhs.createdAt ≠ rhs.createdAt then optionalLess lhs.createdAt rhs.createdAt
  else if lhs.workflowExecutionId ≠ rhs.workflowExecutionId then
    lhs.workflowExecutionId < rhs.workflowExecutionId
  else if lhs.stepName ≠ rhs.stepName then lhs.stepName < rhs.stepName
  else lhs.attempt < rhs.attempt

def sortCandidates (candidates : List WorkflowStepExecution) : List WorkflowStepExecution :=
  candidates.insertionSort fun a b => claimsBefore b a = false

def claimStep (definition : WorkflowDefinition) (workerId : String) (now : TimePoint)
    (claimed : List WorkflowStepExecution) :
    Option WorkflowStepExecutionRow → Op (List WorkflowStepExecution)
  | none => pure claimed
  | some current =>
    let currentStep := current.fromRow
    if isClaimable currentStep now then do
      let stepDefinition ← lift (findStepDefinition definition currentStep.stepName)
      let leaseDuration ← lift (leaseDurationForStep stepDefinition)
      let claimedStep := { currentStep with
        status := .running
        workerId := some workerId
        leaseExpiresAt := some (now.addSeconds leaseDuration)
        failureReason := none
        startedAt := some now }
      putStep claimedStep.toRow
      return claimed ++ [claimedStep]
    else pure claimed

def claimSteps (definition : WorkflowDefinition) (workerId : String) (now : TimePoint)
    (maxResults : ℕ) :
    List WorkflowStepExecution → List WorkflowStepExecution → Op (List WorkflowStepExecution)
  | claimed, [] => pure claimed
  | claimed, candidate :: candidates =>
    if maxResults ≤ claimed.length then pure claimed
    else do
      let current ← getStep
        (stepExecutionKey candidate.workflowExecutionId candidate.stepName candidate.attempt)
      let claimed ← claimStep definition workerId now claimed current
      claimSteps definition workerId now maxResults claimed candidates

def pollAndClaimWorkflowSteps (workflowName : String) (workflowVersion : Int32) (workerId : String)
    (maxResults : ℕ) : Op (List WorkflowStepExecution) := do
  validateWorkflowNameAndVersion workflowName workflowVersion
  validateWorkerId workerId
  throwIf (maxResults = 0) (.invalidArgument "maxResults must be greater than 0")
  let definition ← orThrow (← getDefinition (definitionKey workflowName workflowVersion))
    (.runtimeError ("workflow definition not found: " ++ workflowName))
  let now ← nowForStorage
  let pendingRows ← querySteps (stepQuery workflowName workflowVersion .pending)
  let runningRows ← querySteps (stepQuery workflowName workflowVersion .running)
  let candidates := (pendingRows ++ runningRows).map WorkflowStepExecutionRow.fromRow
  reserve maxResults
  claimSteps definition.fromRow workerId now maxResults [] (sortCandidates candidates)

/-- The execution a worker's request is about, if it is at that step. -/
def getCurrentExecution (workflowExecutionId stepName : String) : Op WorkflowExecution := do
  let execution ← orThrow (← getExecution workflowExecutionId)
    (.runtimeError ("workflow execution not found: " ++ workflowExecutionId))
  let workflowExecution := execution.fromRow
  validateExecutionIsRunning workflowExecution
  throwIf (workflowExecution.currentStepName ≠ stepName)
    (.runtimeError ("step does not match current workflow step: " ++ stepName))
  return workflowExecution

def getDefinitionOf (execution : WorkflowExecution) : Op WorkflowDefinition := do
  let definition ← orThrow
    (← getDefinition (definitionKey execution.workflowName execution.workflowVersion))
    (.runtimeError ("workflow definition not found: " ++ execution.workflowName))
  return definition.fromRow

/-- The row of the execution's current attempt, if the worker holds it. -/
def getClaimedStep (execution : WorkflowExecution) (workflowExecutionId stepName workerId : String) :
    Op WorkflowStepExecution := do
  let stepExecution ← orThrow
    (← getStep (stepExecutionKey workflowExecutionId stepName execution.currentStepAttempt))
    (.runtimeError ("workflow step execution not found: " ++ stepName))
  let workflowStepExecution := stepExecution.fromRow
  validateClaimOwnership workflowStepExecution workerId
  return workflowStepExecution

def keepAliveStep (workflowExecutionId stepName workerId : String) : Op WorkflowStepExecution := do
  validateExecutionId workflowExecutionId
  validateStepName stepName
  validateWorkerId workerId
  let workflowExecution ← getCurrentExecution workflowExecutionId stepName
  let workflowDefinition ← getDefinitionOf workflowExecution
  let workflowStepExecution ← getClaimedStep workflowExecution workflowExecutionId stepName workerId
  let stepDefinition ← lift (findStepDefinition workflowDefinition stepName)
  let now ← nowForStorage
  let leaseDuration ← lift (leaseDurationForStep stepDefinition)
  let renewed := { workflowStepExecution with
    leaseExpiresAt := some (now.addSeconds leaseDuration) }
  putStep renewed.toRow
  return renewed

def scheduleAfter : Option Seconds → Op (Option TimePoint)
  | none => pure none
  | some delay => do
    let now ← nowForStorage
    return some (now.addSeconds delay)

def advance (definition : WorkflowDefinition) (updatedExecution : WorkflowExecution)
    (decision : NextStepDecision) (nextStepDelay : Option Seconds) : Op WorkflowExecution := do
  let nextStepName ← orThrow decision.nextStepName
    (.runtimeError "next step decision must provide nextStepName or workflowComplete")
  throwIf (stepDefinitionExists definition nextStepName = false)
    (.runtimeError ("next step is not defined: " ++ nextStepName))
  let updatedExecution := { updatedExecution with
    currentStepName := nextStepName
    currentStepAttempt := 0 }
  putExecution updatedExecution.toRow
  let scheduledAt ← scheduleAfter nextStepDelay
  let next ← makeStepExecution updatedExecution nextStepName 0 decision.nextStepInput scheduledAt
  putStep next.toRow
  return updatedExecution

def completeStep (workflowExecutionId stepName workerId : String) (stepOutput : Json)
    (nextStepDelay : Option Seconds) : Op WorkflowExecution := do
  validateExecutionId workflowExecutionId
  validateStepName stepName
  validateWorkerId workerId
  throwIf (∃ delay ∈ nextStepDelay, delay ≤ 0)
    (.invalidArgument "nextStepDelay must be greater than zero")
  let execution ← getCurrentExecution workflowExecutionId stepName
  let stepExecution ← getClaimedStep execution workflowExecutionId stepName workerId
  let definition ← getDefinitionOf execution
  let decision ← decideNextStep {
    workflowName := execution.workflowName
    workflowVersion := execution.workflowVersion
    workflowExecutionId := execution.workflowExecutionId
    completedStepName := stepName
    input := execution.input
    state := execution.state
    stepOutput }
  let completedAt ← nowForStorage
  let updatedStepExecution := { stepExecution with
    status := .completed
    output := stepOutput
    leaseExpiresAt := none
    completedAt := some completedAt }
  putStep updatedStepExecution.toRow
  let updatedExecution := { execution with state := decision.updatedState }
  if decision.workflowComplete then do
    let completedAt ← nowForStorage
    let updatedExecution := { updatedExecution with
      status := .completed
      completedAt := some completedAt }
    putExecution updatedExecution.toRow
    return updatedExecution
  else advance definition updatedExecution decision nextStepDelay

def failStep (workflowExecutionId stepName workerId : String) (reason : String) :
    Op WorkflowExecution := do
  validateExecutionId workflowExecutionId
  validateStepName stepName
  validateWorkerId workerId
  let execution ← getCurrentExecution workflowExecutionId stepName
  let stepExecution ← getClaimedStep execution workflowExecutionId stepName workerId
  let workflowDefinition ← getDefinitionOf execution
  let stepDefinition ← lift (findStepDefinition workflowDefinition stepName)
  let completedAt ← nowForStorage
  let updatedStepExecution := { stepExecution with
    status := .failed
    failureReason := some reason
    leaseExpiresAt := none
    completedAt := some completedAt }
  putStep updatedStepExecution.toRow
  if execution.currentStepAttempt < maxRetriesForStep stepDefinition then do
    let updatedExecution := { execution with
      currentStepAttempt := execution.currentStepAttempt + 1 }
    putExecution updatedExecution.toRow
    let retry ← makeStepExecution updatedExecution stepName updatedExecution.currentStepAttempt
      updatedStepExecution.input none
    putStep retry.toRow
    return updatedExecution
  else do
    let completedAt ← nowForStorage
    let updatedExecution := { execution with
      status := .failed
      failureReason := some reason
      completedAt := some completedAt }
    putExecution updatedExecution.toRow
    return updatedExecution

def cancelSteps (now : TimePoint) : List WorkflowStepExecutionRow → Op Unit
  | [] => pure ()
  | stepRow :: stepRows =>
    let step := stepRow.fromRow
    if step.status.Active then do
      putStep { step with
        status := .canceled
        workerId := none
        leaseExpiresAt := none
        completedAt := some now }.toRow
      cancelSteps now stepRows
    else cancelSteps now stepRows

def cancelWorkflow (workflowExecutionId : String) : Op WorkflowExecution := do
  validateExecutionId workflowExecutionId
  let execution ← orThrow (← getExecution workflowExecutionId)
    (.runtimeError ("workflow execution not found: " ++ workflowExecutionId))
  let workflowExecution := execution.fromRow
  throwIf (workflowExecution.status ≠ .running)
    (.runtimeError ("workflow execution is not running: " ++ workflowExecutionId))
  let now ← nowForStorage
  let stepRows ← querySteps (stepsByExecutionQuery workflowExecutionId)
  cancelSteps now stepRows
  let canceled := { workflowExecution with status := .canceled, completedAt := some now }
  putExecution canceled.toRow
  return canceled

def leaseExpired (step : WorkflowStepExecution) (now : TimePoint) : Bool :=
  match step.leaseExpiresAt with
  | none => false
  | some leaseExpiresAt => leaseExpiresAt ≤ now

def failExpiredStep (now : TimePoint) (result : SweepResult) (expiredStep : WorkflowStepExecution)
    (workflowExecution : WorkflowExecution) (definition : WorkflowDefinition) : Op SweepResult := do
  let stepDefinition ← lift (findStepDefinition definition expiredStep.stepName)
  let failedStep := { expiredStep with
    status := .failed
    failureReason := some "lease expired"
    leaseExpiresAt := none
    completedAt := some now }
  putStep failedStep.toRow
  if workflowExecution.currentStepAttempt < maxRetriesForStep stepDefinition then do
    let updatedExecution := { workflowExecution with
      currentStepAttempt := workflowExecution.currentStepAttempt + 1 }
    putExecution updatedExecution.toRow
    let retry ← makeStepExecution updatedExecution expiredStep.stepName
      updatedExecution.currentStepAttempt expiredStep.input none
    putStep retry.toRow
    return { result with retriedCount := result.retriedCount + 1 }
  else do
    let updatedExecution := { workflowExecution with
      status := .failed
      failureReason := some "lease expired"
      completedAt := some now }
    putExecution updatedExecution.toRow
    return { result with failedCount := result.failedCount + 1 }

/-- One row of the sweep; every `continue` of the source is a `pure result`. -/
def sweepStep (now : TimePoint) (result : SweepResult) (expiredStepRow : WorkflowStepExecutionRow) :
    Op SweepResult :=
  let expiredStep := expiredStepRow.fromRow
  if leaseExpired expiredStep now = false then pure result
  else do
    match ← getExecution expiredStep.workflowExecutionId with
    | none => pure result
    | some execution =>
      let workflowExecution := execution.fromRow
      if workflowExecution.status ≠ .running then pure result
      else if workflowExecution.currentStepName ≠ expiredStep.stepName ∨
          workflowExecution.currentStepAttempt ≠ expiredStep.attempt then pure result
      else do
        match ← getDefinition
            (definitionKey workflowExecution.workflowName workflowExecution.workflowVersion) with
        | none => pure result
        | some definition =>
          failExpiredStep now result expiredStep workflowExecution definition.fromRow

def sweepSteps (now : TimePoint) : SweepResult → List WorkflowStepExecutionRow → Op SweepResult
  | result, [] => pure result
  | result, row :: rows => do
    let result ← sweepStep now result row
    sweepSteps now result rows

def sweepExpiredLeases : Op SweepResult := do
  let now ← nowForStorage
  let runningSteps ← querySteps expiredRunningStepsQuery
  sweepSteps now {} runningSteps

end Orchestrator
end WorkflowEngine
