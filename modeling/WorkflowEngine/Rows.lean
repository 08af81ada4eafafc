import WorkflowEngine.Records
import WorkflowEngine.Iso8601

/-!
# Rows and their keys

The rows of the four tables, the key each is stored under, the document a
query looks into, and the conversions between rows and the records of the
public interface. Numbers widen to 64 bits in a row and are cut back to 32
when it is read; times and statuses are held as text.
-/

namespace WorkflowEngine

structure WorkflowDefinitionStepRow where
  name : String
  expectedExecutionTime : Option String
  maxRetries : Option Int64
  additionalFields : Json := .object []
  deriving DecidableEq

structure WorkflowDefinitionRow where
  workflowName : String
  workflowVersion : Int64
  startWorkflowStepName : String
  expectedExecutionTime : String
  singleton : Option Bool
  steps : List WorkflowDefinitionStepRow
  deriving DecidableEq

structure WorkflowExecutionRow where
  workflowExecutionId : String
  workflowName : String
  workflowVersion : Int64
  status : String
  currentStepName : String
  input : Json := .object []
  state : Json := .object []
  currentStepAttempt : Int64 := 0
  failureReason : Option String
  startedAt : Option String
  completedAt : Option String
  deriving DecidableEq

structure WorkflowSingletonLockRow where
  workflowName : String
  workflowVersion : Int64
  workflowExecutionId : String
  createdAt : Option String
  deriving DecidableEq

structure WorkflowStepExecutionRow where
  workflowExecutionId : String
  workflowName : String
  workflowVersion : Int64
  stepName : String
  attempt : Int64
  status : String
  workerId : Option String
  leaseExpiresAt : Option String
  failureReason : Option String
  createdAt : Option String
  scheduledAt : Option String
  startedAt : Option String
  completedAt : Option String
  input : Json := .object []
  state : Json := .object []
  output : Json := .object []
  deriving DecidableEq

/-- `std::to_string`. -/
def toDecimal (n : ℤ) : String := toString n

def definitionKey (workflowName : String) (workflowVersion : Int32) : String :=
  workflowName ++ ":" ++ toDecimal workflowVersion.toInt

def singletonLockKey (workflowName : String) (workflowVersion : Int32) : String :=
  workflowName ++ ":" ++ toDecimal workflowVersion.toInt

def stepExecutionKey (workflowExecutionId stepName : String) (attempt : Int32) : String :=
  workflowExecutionId ++ ":" ++ stepName ++ ":" ++ toDecimal attempt.toInt

def WorkflowDefinitionRow.key (row : WorkflowDefinitionRow) : String :=
  row.workflowName ++ ":" ++ toDecimal row.workflowVersion.toInt

def WorkflowExecutionRow.key (row : WorkflowExecutionRow) : String := row.workflowExecutionId

def WorkflowSingletonLockRow.key (row : WorkflowSingletonLockRow) : String :=
  row.workflowName ++ ":" ++ toDecimal row.workflowVersion.toInt

def WorkflowStepExecutionRow.key (row : WorkflowStepExecutionRow) : String :=
  row.workflowExecutionId ++ ":" ++ row.stepName ++ ":" ++ toDecimal row.attempt.toInt

def optionalString : Option String → Json
  | some s => .string s
  | none => .null

def WorkflowDefinitionStepRow.toJson (row : WorkflowDefinitionStepRow) : Json := .object
  [("name", .string row.name),
   ("expectedExecutionTime", optionalString row.expectedExecutionTime),
   ("maxRetries", match row.maxRetries with | some n => .int64 n | none => .null),
   ("additionalFields", row.additionalFields)]

def WorkflowDefinitionRow.toJson (row : WorkflowDefinitionRow) : Json := .object
  [("workflowName", .string row.workflowName),
   ("workflowVersion", .int64 row.workflowVersion),
   ("startWorkflowStepName", .string row.startWorkflowStepName),
   ("expectedExecutionTime", .string row.expectedExecutionTime),
   ("singleton", match row.singleton with | some b => .bool b | none => .null),
   ("steps", .array (row.steps.map WorkflowDefinitionStepRow.toJson))]

def WorkflowExecutionRow.toJson (row : WorkflowExecutionRow) : Json := .object
  [("workflowExecutionId", .string row.workflowExecutionId),
   ("workflowName", .string row.workflowName),
   ("workflowVersion", .int64 row.workflowVersion),
   ("status", .string row.status),
   ("currentStepName", .string row.currentStepName),
   ("input", row.input),
   ("state", row.state),
   ("currentStepAttempt", .int64 row.currentStepAttempt),
   ("failureReason", optionalString row.failureReason),
   ("startedAt", optionalString row.startedAt),
   ("completedAt", optionalString row.completedAt)]

def WorkflowSingletonLockRow.toJson (row : WorkflowSingletonLockRow) : Json := .object
  [("workflowName", .string row.workflowName),
   ("workflowVersion", .int64 row.workflowVersion),
   ("workflowExecutionId", .string row.workflowExecutionId),
   ("createdAt", optionalString row.createdAt)]

def WorkflowStepExecutionRow.toJson (row : WorkflowStepExecutionRow) : Json := .object
  [("workflowExecutionId", .string row.workflowExecutionId),
   ("workflowName", .string row.workflowName),
   ("workflowVersion", .int64 row.workflowVersion),
   ("stepName", .string row.stepName),
   ("attempt", .int64 row.attempt),
   ("status", .string row.status),
   ("workerId", optionalString row.workerId),
   ("leaseExpiresAt", optionalString row.leaseExpiresAt),
   ("failureReason", optionalString row.failureReason),
   ("createdAt", optionalString row.createdAt),
   ("scheduledAt", optionalString row.scheduledAt),
   ("startedAt", optionalString row.startedAt),
   ("completedAt", optionalString row.completedAt),
   ("input", row.input),
   ("state", row.state),
   ("output", row.output)]

/-- `JsonEquals`, the one operator the queries use: the path leads to this value. -/
structure QueryPredicate where
  path : String
  value : Json
  deriving DecidableEq

structure QuerySpec where
  predicates : List QueryPredicate
  deriving DecidableEq

def QueryPredicate.holds (p : QueryPredicate) (document : Json) : Bool :=
  match document with
  | .object fields => fields.any fun f => "$." ++ f.1 == p.path && f.2 == p.value
  | _ => false

def QuerySpec.holds (query : QuerySpec) (document : Json) : Bool :=
  query.predicates.all fun p => p.holds document

def toStorageTime (value : Option TimePoint) : Option String := value.map Iso8601.toIso8601

def fromStorageTime (value : Option String) : Option TimePoint := value.map Iso8601.fromIso8601

def WorkflowStep.toRow (step : WorkflowStep) : WorkflowDefinitionStepRow where
  name := step.name
  expectedExecutionTime := step.expectedExecutionTime
  maxRetries := step.maxRetries.map Int32.toInt64
  additionalFields := .object step.additionalFields

def WorkflowDefinitionStepRow.fromRow (row : WorkflowDefinitionStepRow) : WorkflowStep where
  name := row.name
  expectedExecutionTime := row.expectedExecutionTime
  maxRetries := row.maxRetries.map Int64.toInt32
  additionalFields := match row.additionalFields with
    | .object fields => fields
    | _ => []

def WorkflowDefinition.toRow (definition : WorkflowDefinition) : WorkflowDefinitionRow where
  workflowName := definition.workflowName
  workflowVersion := definition.workflowVersion.toInt64
  startWorkflowStepName := definition.startWorkflowStepName
  expectedExecutionTime := definition.expectedExecutionTime
  singleton := some definition.singleton
  steps := definition.steps.map WorkflowStep.toRow

def WorkflowDefinitionRow.fromRow (row : WorkflowDefinitionRow) : WorkflowDefinition where
  workflowName := row.workflowName
  workflowVersion := row.workflowVersion.toInt32
  startWorkflowStepName := row.startWorkflowStepName
  expectedExecutionTime := row.expectedExecutionTime
  singleton := row.singleton.getD false
  steps := row.steps.map WorkflowDefinitionStepRow.fromRow

def WorkflowExecution.toRow (execution : WorkflowExecution) : WorkflowExecutionRow where
  workflowExecutionId := execution.workflowExecutionId
  workflowName := execution.workflowName
  workflowVersion := execution.workflowVersion.toInt64
  status := execution.status.toString
  currentStepName := execution.currentStepName
  input := execution.input
  state := execution.state
  currentStepAttempt := execution.currentStepAttempt.toInt64
  failureReason := execution.failureReason
  startedAt := toStorageTime execution.startedAt
  completedAt := toStorageTime execution.completedAt

def WorkflowExecutionRow.fromRow (row : WorkflowExecutionRow) : WorkflowExecution where
  workflowExecutionId := row.workflowExecutionId
  workflowName := row.workflowName
  workflowVersion := row.workflowVersion.toInt32
  status := .fromString row.status
  currentStepName := row.currentStepName
  input := row.input
  state := row.state
  currentStepAttempt := row.currentStepAttempt.toInt32
  failureReason := row.failureReason
  startedAt := fromStorageTime row.startedAt
  completedAt := fromStorageTime row.completedAt

def WorkflowStepExecution.toRow (stepExecution : WorkflowStepExecution) :
    WorkflowStepExecutionRow where
  workflowExecutionId := stepExecution.workflowExecutionId
  workflowName := stepExecution.workflowName
  workflowVersion := stepExecution.workflowVersion.toInt64
  stepName := stepExecution.stepName
  attempt := stepExecution.attempt.toInt64
  status := stepExecution.status.toString
  workerId := stepExecution.workerId
  leaseExpiresAt := toStorageTime stepExecution.leaseExpiresAt
  failureReason := stepExecution.failureReason
  createdAt := toStorageTime stepExecution.createdAt
  scheduledAt := toStorageTime stepExecution.scheduledAt
  startedAt := toStorageTime stepExecution.startedAt
  completedAt := toStorageTime stepExecution.completedAt
  input := stepExecution.input
  state := stepExecution.state
  output := stepExecution.output

def WorkflowStepExecutionRow.fromRow (row : WorkflowStepExecutionRow) : WorkflowStepExecution where
  workflowExecutionId := row.workflowExecutionId
  workflowName := row.workflowName
  workflowVersion := row.workflowVersion.toInt32
  stepName := row.stepName
  attempt := row.attempt.toInt32
  status := .fromString row.status
  workerId := row.workerId
  leaseExpiresAt := fromStorageTime row.leaseExpiresAt
  failureReason := row.failureReason
  createdAt := fromStorageTime row.createdAt
  scheduledAt := fromStorageTime row.scheduledAt
  startedAt := fromStorageTime row.startedAt
  completedAt := fromStorageTime row.completedAt
  input := row.input
  state := row.state
  output := row.output

/-- A time stamp as it comes back. -/
def storedTime (value : Option TimePoint) : Option TimePoint := value.map Iso8601.stored

@[simp] theorem fromStorageTime_toStorageTime (value : Option TimePoint) :
    fromStorageTime (toStorageTime value) = storedTime value := by
  cases value <;> rfl

theorem WorkflowStep.fromRow_toRow (step : WorkflowStep) : step.toRow.fromRow = step := by
  cases step
  simp [toRow, WorkflowDefinitionStepRow.fromRow, Option.map_map, Function.comp_def]

theorem WorkflowDefinition.fromRow_toRow (definition : WorkflowDefinition) :
    definition.toRow.fromRow = definition := by
  cases definition
  simp [toRow, WorkflowDefinitionRow.fromRow, List.map_map, Function.comp_def,
    WorkflowStep.fromRow_toRow]

def WorkflowExecution.stored (e : WorkflowExecution) : WorkflowExecution :=
  { e with startedAt := storedTime e.startedAt, completedAt := storedTime e.completedAt }

def WorkflowStepExecution.stored (s : WorkflowStepExecution) : WorkflowStepExecution :=
  { s with
    leaseExpiresAt := storedTime s.leaseExpiresAt
    createdAt := storedTime s.createdAt
    scheduledAt := storedTime s.scheduledAt
    startedAt := storedTime s.startedAt
    completedAt := storedTime s.completedAt }

@[simp] theorem WorkflowExecution.fromRow_toRow (e : WorkflowExecution) :
    e.toRow.fromRow = e.stored := by
  simp [toRow, WorkflowExecutionRow.fromRow, stored]

@[simp] theorem WorkflowStepExecution.fromRow_toRow (s : WorkflowStepExecution) :
    s.toRow.fromRow = s.stored := by
  simp [toRow, WorkflowStepExecutionRow.fromRow, stored]

end WorkflowEngine
