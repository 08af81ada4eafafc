import WorkflowEngine.Duration
import WorkflowEngine.Records

/-!
# Workflow definitions as JSON

The validator collects every error it finds, each with the path of the field it
is about; the parser refuses what the validator found fault with. Both read the
value through accessors that can fail.
-/

namespace WorkflowEngine

structure ValidationResult where
  valid : Bool := true
  errors : List String := []
  deriving DecidableEq

namespace ValidationResult

def addError (result : ValidationResult) (error : String) : ValidationResult :=
  { valid := false, errors := result.errors ++ [error] }

def addErrors (result : ValidationResult) (errors : List String) : ValidationResult :=
  errors.foldl addError result

@[simp] theorem addErrors_nil (result : ValidationResult) : result.addErrors [] = result := rfl

theorem addErrors_append (result : ValidationResult) (es es' : List String) :
    result.addErrors (es ++ es') = (result.addErrors es).addErrors es' :=
  List.foldl_append

theorem addErrors_valid {result : ValidationResult} {es : List String} :
    (result.addErrors es).valid = true ↔ result.valid = true ∧ es = [] := by
  induction es generalizing result with
  | nil => simp
  | cons e es ih =>
    rw [show result.addErrors (e :: es) = (result.addError e).addErrors es from rfl, ih]
    simp [addError]

end ValidationResult

namespace WorkflowJson
open Text Text.Regex

def isLetter (c : Char) : Bool := ('A' ≤ c && c ≤ 'Z') || ('a' ≤ c && c ≤ 'z')

def isNameChar (c : Char) : Bool := isLetter c || Duration.isDigit c || c == '_' || c == '-'

/-- `^[A-Za-z][A-Za-z0-9_-]*$` -/
def NAME_PATTERN : Regex := .seq (.chr isLetter) (.star isNameChar)

def NAME_PATTERN_STRING : String := "^[A-Za-z][A-Za-z0-9_-]*$"

/-- `(\d+X)` -/
def component (unit : Char) : Regex := .capture (.seq (.plus Duration.isDigit) (lit unit))

/-- `^P(?!$)(\d+Y)?(\d+M)?(\d+W)?(\d+D)?(T(?!$)(\d+H)?(\d+M)?(\d+S)?)?$` -/
def ISO_8601_DURATION_PATTERN : Regex :=
  sequence [lit 'P', .notAtEnd, .opt (component 'Y'), .opt (component 'M'), .opt (component 'W'),
    .opt (component 'D'), .opt (.capture (sequence [lit 'T', .notAtEnd, .opt (component 'H'),
      .opt (component 'M'), .opt (component 'S')]))]

def isNonEmptyString (value : Json) : Except Exception Bool := do
  if value.isString then
    return (← value.asString) != ""
  return false

def isValidName (value : String) : Bool := NAME_PATTERN.isFullMatch value

def isValidDuration (value : String) : Bool := ISO_8601_DURATION_PATTERN.isFullMatch value

def requireField (value : Json) (result : ValidationResult) (fieldName path : String) :
    Except Exception ValidationResult := do
  if !(← value.has fieldName) then
    return result.addError (path ++ "." ++ fieldName ++ " is required")
  return result

def validateRequiredStringField (value : Json) (result : ValidationResult)
    (fieldName path : String) : Except Exception ValidationResult := do
  let result ← requireField value result fieldName path
  if !(← value.has fieldName) then
    return result
  if !(← isNonEmptyString (← value.at fieldName)) then
    return result.addError (path ++ "." ++ fieldName ++ " must be a non-empty string")
  return result

/-- A required text that passes a check: a name or a duration. -/
def validateRequiredTextField (passes : String → Bool) (message : String) (value : Json)
    (result : ValidationResult) (fieldName path : String) : Except Exception ValidationResult := do
  let result ← validateRequiredStringField value result fieldName path
  if !(← value.has fieldName) then
    return result
  if !(← value.at fieldName).isString then
    return result
  if !passes (← (← value.at fieldName).asString) then
    return result.addError (path ++ "." ++ fieldName ++ message)
  return result

def validateRequiredNameField : Json → ValidationResult → String → String →
    Except Exception ValidationResult :=
  validateRequiredTextField isValidName (" must match pattern " ++ NAME_PATTERN_STRING)

def validateRequiredDurationField : Json → ValidationResult → String → String →
    Except Exception ValidationResult :=
  validateRequiredTextField isValidDuration " must be an ISO-8601 duration"

def validateOptionalDurationField (value : Json) (result : ValidationResult)
    (fieldName path : String) : Except Exception ValidationResult := do
  if !(← value.has fieldName) then
    return result
  if !(← value.at fieldName).isString then
    return result.addError (path ++ "." ++ fieldName ++ " must be a string")
  if !isValidDuration (← (← value.at fieldName).asString) then
    return result.addError (path ++ "." ++ fieldName ++ " must be an ISO-8601 duration")
  return result

def validateOptionalNonNegativeIntegerField (value : Json) (result : ValidationResult)
    (fieldName path : String) : Except Exception ValidationResult := do
  if !(← value.has fieldName) then
    return result
  if !(← value.at fieldName).isInt64 then
    return result.addError (path ++ "." ++ fieldName ++ " must be an integer")
  if (← (← value.at fieldName).asInt64).toInt32 < 0 then
    return result.addError (path ++ "." ++ fieldName ++ " must be greater than or equal to 0")
  return result

def validateOptionalBooleanField (value : Json) (result : ValidationResult)
    (fieldName path : String) : Except Exception ValidationResult := do
  if !(← value.has fieldName) then
    return result
  if !(← value.at fieldName).isBool then
    return result.addError (path ++ "." ++ fieldName ++ " must be a boolean")
  return result

def allowedFields : List String :=
  ["workflowName", "workflowVersion", "startWorkflowStepName", "expectedExecutionTime",
    "singleton", "steps"]

def validateNoAdditionalTopLevelFields (value : Json) (result : ValidationResult) :
    Except Exception ValidationResult := do
  let fields ← value.asObject
  return fields.foldl (fun result field =>
    if !allowedFields.contains field.1 then
      result.addError ("top-level field '" ++ field.1 ++ "' is not allowed")
    else result) result

def validateWorkflowVersion (value : Json) (result : ValidationResult) :
    Except Exception ValidationResult := do
  if !(← value.has "workflowVersion") then
    return result
  if !(← value.at "workflowVersion").isInt64 then
    return result.addError "$.workflowVersion must be an integer"
  if (← (← value.at "workflowVersion").asInt64).toInt32 < 1 then
    return result.addError "$.workflowVersion must be greater than or equal to 1"
  return result

/-- The end of a pass of the loop over the steps: the name must not have been seen before. -/
def noteStepName (step : Json) (path : String) (result : ValidationResult)
    (stepNames : List String) : Except Exception (ValidationResult × List String) := do
  if !(← step.has "name") then
    return (result, stepNames)
  if !(← step.at "name").isString then
    return (result, stepNames)
  let name ← (← step.at "name").asString
  if stepNames.contains name then
    return (result.addError (path ++ ".name duplicates another step name: " ++ name), stepNames)
  return (result, name :: stepNames)

def validateStep (i : ℕ) (step : Json) (result : ValidationResult) (stepNames : List String) :
    Except Exception (ValidationResult × List String) := do
  let path := "$.steps[" ++ toString i ++ "]"
  if !step.isObject then
    return (result.addError (path ++ " must be an object"), stepNames)
  let result ← validateRequiredNameField step result "name" path
  let result ← validateOptionalDurationField step result "expectedExecutionTime" path
  let result ← validateOptionalNonNegativeIntegerField step result "maxRetries" path
  noteStepName step path result stepNames

def validateSteps : ℕ → List Json → ValidationResult → List String →
    Except Exception (ValidationResult × List String)
  | _, [], result, stepNames => return (result, stepNames)
  | i, step :: steps, result, stepNames => do
    let (result, stepNames) ← validateStep i step result stepNames
    validateSteps (i + 1) steps result stepNames

def validateStartStepName (value : Json) (result : ValidationResult) (stepNames : List String) :
    Except Exception ValidationResult := do
  if !(← value.has "startWorkflowStepName") then
    return result
  if !(← value.at "startWorkflowStepName").isString then
    return result
  if !stepNames.contains (← (← value.at "startWorkflowStepName").asString) then
    return result.addError "$.startWorkflowStepName must match one of the workflow step names"
  return result

/-- The first part of `validateWorkflowJson`: the fields and whether `steps` is there. -/
def validateFields (value : Json) (result : ValidationResult) :
    Except Exception ValidationResult := do
  let result ← validateNoAdditionalTopLevelFields value result
  let result ← validateRequiredNameField value result "workflowName" "$"
  let result ← validateRequiredStringField value result "startWorkflowStepName" "$"
  let result ← validateRequiredDurationField value result "expectedExecutionTime" "$"
  let result ← validateOptionalBooleanField value result "singleton" "$"
  let result ← requireField value result "workflowVersion" "$"
  let result ← validateWorkflowVersion value result
  requireField value result "steps" "$"

/-- The second part of `validateWorkflowJson`: the steps and the name of the first one. -/
def validateStepList (value : Json) (result : ValidationResult) :
    Except Exception ValidationResult := do
  if !(← value.has "steps") then
    return result
  if !(← value.at "steps").isArray then
    return result.addError "$.steps must be an array"
  let steps ← (← value.at "steps").asArray
  if steps.isEmpty then
    return result.addError "$.steps must contain at least one step"
  let (result, stepNames) ← validateSteps 0 steps result []
  validateStartStepName value result stepNames

def validateWorkflowJson (value : Json) : Except Exception ValidationResult := do
  let result : ValidationResult := {}
  if !value.isObject then
    return result.addError "$ must be an object"
  let result ← validateFields value result
  validateStepList value result

/-- A field that is read if it is there. -/
def readOptional {α : Type} (value : Json) (fieldName : String)
    (read : Json → Except Exception α) : Except Exception (Option α) := do
  if ← value.has fieldName then
    return some (← read (← value.at fieldName))
  return none

def parseStep (stepValue : Json) : Except Exception WorkflowStep := do
  let name ← (← stepValue.at "name").asString
  let expectedExecutionTime ← readOptional stepValue "expectedExecutionTime" Json.asString
  let maxRetries ← readOptional stepValue "maxRetries" Json.asInt64
  let fields ← stepValue.asObject
  return {
    name := name
    expectedExecutionTime := expectedExecutionTime
    maxRetries := maxRetries.map Int64.toInt32
    additionalFields := fields.filter fun field =>
      field.1 != "name" && field.1 != "expectedExecutionTime" && field.1 != "maxRetries" }

def parseWorkflowDefinition (value : Json) : Except Exception WorkflowDefinition := do
  let validation ← validateWorkflowJson value
  if !validation.valid then
    throw (.invalidArgument (validation.errors.foldl (fun message error =>
      message ++ "\n- " ++ error) "Invalid workflow definition:"))
  let workflowName ← (← value.at "workflowName").asString
  let workflowVersion ← (← value.at "workflowVersion").asInt64
  let startWorkflowStepName ← (← value.at "startWorkflowStepName").asString
  let expectedExecutionTime ← (← value.at "expectedExecutionTime").asString
  let singleton ← readOptional value "singleton" Json.asBool
  let steps ← (← (← value.at "steps").asArray).mapM parseStep
  return {
    workflowName := workflowName
    workflowVersion := workflowVersion.toInt32
    startWorkflowStepName := startWorkflowStepName
    expectedExecutionTime := expectedExecutionTime
    singleton := singleton.getD false
    steps := steps }

end WorkflowJson
end WorkflowEngine
