import WorkflowEngine.DefinitionJson
import WorkflowEngine.Rows

/-!
# Executions as JSON

The public JSON of executions, step executions, definition keys and validation
results. An optional field is written as null when it has no value, and read
back if it is there and not null. What is written is read back as it was, with
its time stamps as their text gives them back.
-/

namespace WorkflowEngine
open OrderedMap

/-- `value.has_value() ? mt::Json(encode(value.value())) : mt::Json{}` -/
def Json.nullable {α : Type} (encode : α → Json) : Option α → Json
  | some a => encode a
  | none => .null

def Json.time (t : TimePoint) : Json := .string (Iso8601.toIso8601 t)

def WorkflowDefinitionKey.toJson (key : WorkflowDefinitionKey) : Json := .object (setAll [] [
  ("workflowName", .string key.workflowName),
  ("workflowVersion", .int64 key.workflowVersion.toInt64)])

def WorkflowExecution.toJson (exec : WorkflowExecution) : Json := .object (setAll [] [
  ("workflowExecutionId", .string exec.workflowExecutionId),
  ("workflowName", .string exec.workflowName),
  ("workflowVersion", .int64 exec.workflowVersion.toInt64),
  ("status", .string exec.status.toString),
  ("currentStepName", .string exec.currentStepName),
  ("input", exec.input),
  ("state", exec.state),
  ("currentStepAttempt", .int64 exec.currentStepAttempt.toInt64),
  ("failureReason", .nullable .string exec.failureReason),
  ("startedAt", .nullable .time exec.startedAt),
  ("completedAt", .nullable .time exec.completedAt)])

def WorkflowStepExecution.toJson (step : WorkflowStepExecution) : Json := .object (setAll [] [
  ("workflowExecutionId", .string step.workflowExecutionId),
  ("workflowName", .string step.workflowName),
  ("workflowVersion", .int64 step.workflowVersion.toInt64),
  ("stepName", .string step.stepName),
  ("attempt", .int64 step.attempt.toInt64),
  ("status", .string step.status.toString),
  ("workerId", .nullable .string step.workerId),
  ("leaseExpiresAt", .nullable .time step.leaseExpiresAt),
  ("failureReason", .nullable .string step.failureReason),
  ("createdAt", .nullable .time step.createdAt),
  ("scheduledAt", .nullable .time step.scheduledAt),
  ("startedAt", .nullable .time step.startedAt),
  ("completedAt", .nullable .time step.completedAt),
  ("input", step.input),
  ("state", step.state),
  ("output", step.output)])

def ValidationResult.toJson (result : ValidationResult) : Json := .object (setAll [] [
  ("valid", .bool result.valid),
  ("errors", .array (result.errors.map .string))])

def WorkflowExecution.mapTimes (f : TimePoint → TimePoint) (exec : WorkflowExecution) :
    WorkflowExecution :=
  { exec with startedAt := exec.startedAt.map f, completedAt := exec.completedAt.map f }

def WorkflowStepExecution.mapTimes (f : TimePoint → TimePoint) (step : WorkflowStepExecution) :
    WorkflowStepExecution :=
  { step with
    leaseExpiresAt := step.leaseExpiresAt.map f
    createdAt := step.createdAt.map f
    scheduledAt := step.scheduledAt.map f
    startedAt := step.startedAt.map f
    completedAt := step.completedAt.map f }

namespace WorkflowJson

/-- A field that is read if it is there and not null. -/
def readNullable {α : Type} (value : Json) (fieldName : String)
    (read : Json → Except Exception α) : Except Exception (Option α) := do
  if ← value.has fieldName then
    if !(← value.at fieldName).isNull then
      return some (← read (← value.at fieldName))
  return none

def readTime (value : Json) : Except Exception TimePoint := do
  return Iso8601.fromIso8601 (← value.asString)

def workflowDefinitionKeyFromJson (v : Json) : Except Exception WorkflowDefinitionKey := do
  let workflowName ← (← v.at "workflowName").asString
  let workflowVersion ← (← v.at "workflowVersion").asInt64
  return { workflowName, workflowVersion := workflowVersion.toInt32 }

def workflowExecutionFromJson (v : Json) : Except Exception WorkflowExecution := do
  let workflowExecutionId ← (← v.at "workflowExecutionId").asString
  let workflowName ← (← v.at "workflowName").asString
  let workflowVersion ← (← v.at "workflowVersion").asInt64
  let status ← (← v.at "status").asString
  let currentStepName ← (← v.at "currentStepName").asString
  let input ← v.at "input"
  let state ← v.at "state"
  let currentStepAttempt ← (← v.at "currentStepAttempt").asInt64
  let failureReason ← readNullable v "failureReason" Json.asString
  let startedAt ← readNullable v "startedAt" readTime
  let completedAt ← readNullable v "completedAt" readTime
  return {
    workflowExecutionId, workflowName
    workflowVersion := workflowVersion.toInt32
    status := .fromString status
    currentStepName, input, state
    currentStepAttempt := currentStepAttempt.toInt32
    failureReason, startedAt, completedAt }

def workflowStepExecutionFromJson (v : Json) : Except Exception WorkflowStepExecution := do
  let workflowExecutionId ← (← v.at "workflowExecutionId").asString
  let workflowName ← (← v.at "workflowName").asString
  let workflowVersion ← (← v.at "workflowVersion").asInt64
  let stepName ← (← v.at "stepName").asString
  let attempt ← (← v.at "attempt").asInt64
  let status ← (← v.at "status").asString
  let workerId ← readNullable v "workerId" Json.asString
  let leaseExpiresAt ← readNullable v "leaseExpiresAt" readTime
  let failureReason ← readNullable v "failureReason" Json.asString
  let createdAt ← readNullable v "createdAt" readTime
  let scheduledAt ← readNullable v "scheduledAt" readTime
  let startedAt ← readNullable v "startedAt" readTime
  let completedAt ← readNullable v "completedAt" readTime
  let input ← readOptional v "input" pure
  let state ← readOptional v "state" pure
  let output ← readOptional v "output" pure
  return {
    workflowExecutionId, workflowName
    workflowVersion := workflowVersion.toInt32
    stepName
    attempt := attempt.toInt32
    status := .fromString status
    workerId, leaseExpiresAt, failureReason, createdAt, scheduledAt, startedAt, completedAt
    input := input.getD (.object [])
    state := state.getD (.object [])
    output := output.getD (.object []) }

def validationResultFromJson (v : Json) : Except Exception ValidationResult := do
  let valid ← (← v.at "valid").asBool
  let errors ← (← (← v.at "errors").asArray).mapM Json.asString
  return { valid, errors }

variable {o : Json.Object} {fields : List (String × Json)}

theorem of_fields {P : Json → Prop} (hkeys : (fields.map Prod.fst).Nodup)
    (h : ∀ o : Json.Object, (∀ f ∈ fields, o.get? f.1 = some f.2) → P (.object o)) :
    P (.object (setAll [] fields)) := by
  apply h
  intro f hf
  rw [get?_eq, lookup_setAll_of_nodup hkeys, lookup_of_mem hkeys hf]
  rfl

theorem readOptional_pure {fieldName : String} {v : Json} (h : o.get? fieldName = some v) :
    readOptional (.object o) fieldName pure = .ok (some v) := by
  rw [readOptional, has_of_get h, Json.at_object _ _ h]
  rfl

theorem readNullable_eq {α β : Type} {fieldName : String} {encode : α → Json}
    {read : Json → Except Exception β} {f : α → β} {value : Option α}
    (hnull : ∀ a, (encode a).isNull = false) (hread : ∀ a, read (encode a) = .ok (f a))
    (h : o.get? fieldName = some (.nullable encode value)) :
    readNullable (.object o) fieldName read = .ok (value.map f) := by
  rw [readNullable, has_of_get h, Json.at_object _ _ h]
  cases value with
  | none => rfl
  | some a => simp [Json.nullable, hnull, hread, bind, Except.bind, pure, Except.pure]

theorem readNullable_string {fieldName : String} {value : Option String}
    (h : o.get? fieldName = some (.nullable .string value)) :
    readNullable (.object o) fieldName Json.asString = .ok value := by
  have hread := @readNullable_eq o _ _ _ Json.string Json.asString id _ (fun _ => rfl)
    (fun _ => rfl) h
  rwa [Option.map_id] at hread

theorem readNullable_time {fieldName : String} {value : Option TimePoint}
    (h : o.get? fieldName = some (.nullable .time value)) :
    readNullable (.object o) fieldName readTime = .ok (storedTime value) :=
  readNullable_eq (fun _ => rfl) (fun _ => rfl) h

theorem mapM_map_eq_ok {α β γ : Type} {encode : α → β} {read : β → Except Exception γ} {f : α → γ}
    (h : ∀ a, read (encode a) = .ok (f a)) (as : List α) :
    (as.map encode).mapM read = .ok (as.map f) := by
  rw [mapM_eq_ok, List.forall₂_map_left_iff, List.forall₂_map_right_iff, List.forall₂_same]
  exact fun a _ => h a

theorem workflowDefinitionKeyFromJson_toJson (key : WorkflowDefinitionKey) :
    workflowDefinitionKeyFromJson key.toJson = .ok key := by
  refine of_fields (P := fun v => workflowDefinitionKeyFromJson v = _) (by simp) ?_
  intro o hfields
  simp only [List.forall_mem_cons] at hfields
  obtain ⟨hname, hversion, -⟩ := hfields
  rw [workflowDefinitionKeyFromJson, Json.at_object _ _ hname, Json.at_object _ _ hversion]
  cases key
  simp [Json.asString, Json.asInt64, bind, Except.bind, pure, Except.pure]

theorem workflowExecutionFromJson_toJson (e : WorkflowExecution) :
    workflowExecutionFromJson e.toJson = .ok e.stored := by
  refine of_fields (P := fun v => workflowExecutionFromJson v = _) (by simp) ?_
  intro o hfields
  simp only [List.forall_mem_cons] at hfields
  obtain ⟨hid, hname, hversion, hstatus, hstep, hinput, hstate, hattempt, hreason, hstarted,
    hcompleted, -⟩ := hfields
  rw [workflowExecutionFromJson, Json.at_object _ _ hid, Json.at_object _ _ hname,
    Json.at_object _ _ hversion, Json.at_object _ _ hstatus, Json.at_object _ _ hstep,
    Json.at_object _ _ hinput, Json.at_object _ _ hstate, Json.at_object _ _ hattempt,
    readNullable_string hreason, readNullable_time hstarted, readNullable_time hcompleted]
  simp [Json.asString, Json.asInt64, bind, Except.bind, pure, Except.pure, WorkflowExecution.stored]

theorem workflowStepExecutionFromJson_toJson (s : WorkflowStepExecution) :
    workflowStepExecutionFromJson s.toJson = .ok s.stored := by
  refine of_fields (P := fun v => workflowStepExecutionFromJson v = _) (by simp) ?_
  intro o hfields
  simp only [List.forall_mem_cons] at hfields
  obtain ⟨hid, hname, hversion, hstep, hattempt, hstatus, hworker, hlease, hreason, hcreated,
    hscheduled, hstarted, hcompleted, hinput, hstate, houtput, -⟩ := hfields
  rw [workflowStepExecutionFromJson, Json.at_object _ _ hid, Json.at_object _ _ hname,
    Json.at_object _ _ hversion, Json.at_object _ _ hstep, Json.at_object _ _ hattempt,
    Json.at_object _ _ hstatus, readNullable_string hworker, readNullable_time hlease,
    readNullable_string hreason, readNullable_time hcreated, readNullable_time hscheduled,
    readNullable_time hstarted, readNullable_time hcompleted, readOptional_pure hinput,
    readOptional_pure hstate, readOptional_pure houtput]
  simp [Json.asString, Json.asInt64, bind, Except.bind, pure, Except.pure,
    WorkflowStepExecution.stored]

theorem validationResultFromJson_toJson (result : ValidationResult) :
    validationResultFromJson result.toJson = .ok result := by
  refine of_fields (P := fun v => validationResultFromJson v = _) (by simp) ?_
  intro o hfields
  simp only [List.forall_mem_cons] at hfields
  obtain ⟨hvalid, herrors, -⟩ := hfields
  have hmap := @mapM_map_eq_ok _ _ _ Json.string Json.asString id (fun _ => rfl) result.errors
  rw [List.map_id] at hmap
  rw [validationResultFromJson, Json.at_object _ _ hvalid, Json.at_object _ _ herrors]
  simp [Json.asBool, Json.asArray, bind, Except.bind, pure, Except.pure, hmap]

end WorkflowJson
end WorkflowEngine
