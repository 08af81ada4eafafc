import WorkflowEngine.Duration
import WorkflowEngine.ExecutionJson
import WorkflowEngine.Service

/-!
# The HTTP server

Requests and responses as the HTTP library delivers them, the routes, and the
ten handlers: each reads its request from the path or the body, calls the
service and writes what it answers. An exception becomes a problem whose
status depends on its class. The text of a body and the class of what a failing
accessor raises are the JSON library's own.
-/

namespace WorkflowEngine
open OrderedMap Txn Txn.Program WorkflowJson

/-- The classes that `handleException` tells apart, in its order. -/
inductive ExceptionClass where
  | backendError | invalidArgument | runtimeError | exception
  deriving DecidableEq

/-- The texts that the JSON library writes and reads, and what its accessors raise. -/
structure Wire where
  Text : Type
  /-- The body of a message without one. -/
  empty : Text
  toString : Text → String
  canonicalString : Json → Text
  parse : Text → Except Exception Json
  accessError : ExceptionClass
  parse_canonicalString : ∀ value, parse (canonicalString value) = .ok value

inductive Method where
  | get | post | delete
  deriving DecidableEq

structure HttpRequest (wire : Wire) where
  method : Method
  path : String
  body : wire.Text

structure HttpResponse (wire : Wire) where
  status : ℕ
  body : wire.Text

namespace WorkflowHttpServer

variable {wire : Wire}

abbrev Reply := ℕ × Json

def sendProblem (status : ℕ) (type title detail : String) : Reply :=
  (status, .object (setAll [] [
    ("type", .string type),
    ("title", .string title),
    ("status", .int64 (Int64.ofNat status)),
    ("detail", .string detail)]))

/-- `msg.find("not found") != std::string::npos` -/
def saysNotFound (msg : String) : Bool := decide ("not found".toList <:+: msg.toList)

/-- The class of an exception and its `what()`. -/
def caught (wire : Wire) : Exception → Option (ExceptionClass × String)
  | .storage what => some (.backendError, what)
  | .access what => some (wire.accessError, what)
  | .invalidArgument what => some (.invalidArgument, what)
  | .runtimeError what => some (.runtimeError, what)
  | .outOfRange what | .other what => some (.exception, what)
  | .undefined => none

def handleException (wire : Wire) (e : Exception) : Except Exception Reply :=
  match caught wire e with
  | some (.backendError, what) =>
    .ok (sendProblem 400 "invalid-argument" "Invalid Argument" what)
  | some (.invalidArgument, what) =>
    .ok (sendProblem 400 "invalid-argument" "Invalid Argument" what)
  | some (.runtimeError, what) =>
    if saysNotFound what then .ok (sendProblem 404 "not-found" "Not Found" what)
    else .ok (sendProblem 409 "conflict" "Conflict" what)
  | some (.exception, what) =>
    .ok (sendProblem 500 "internal-error" "Internal Server Error" what)
  | none => .error .undefined

def parseBody (req : HttpRequest wire) : Except Exception Json := wire.parse req.body

def requirePresent {α : Type} (read : Json → Except Exception α) (obj : Json) (key : String) :
    Except Exception α := do
  if !(← obj.has key) then
    throw (.invalidArgument ("missing required field: " ++ key))
  read (← obj.at key)

def requireString : Json → String → Except Exception String := requirePresent Json.asString

def requireInt : Json → String → Except Exception Int32 :=
  requirePresent fun value => return (← value.asInt64).toInt32

def optionalJson (obj : Json) (key : String) : Except Exception Json := do
  return (← readOptional obj key pure).getD (.object [])

/-- The number of results asked for goes through an `int`. -/
def readMaxResults (body : Json) : Except Exception UInt64 := do
  let maxResults ← readOptional body "maxResults" Json.asInt64
  return (maxResults.map fun n => n.toInt32.toInt64.toUInt64).getD 1

def readNextStepDelay (body : Json) : Except Exception (Option Int64) := do
  let seconds ← readNullable body "nextStepDelay" fun value => do
    Duration.parseIso8601DurationToSeconds (← value.asString)
  return seconds.map Int64.ofInt

def handleValidate (req : HttpRequest wire) : Op Reply := do
  let body ← lift (parseBody req)
  let validation ← WorkflowService.validateWorkflowDefinition body
  return (200, .object [("validation", validation.toJson)])

def handleList : Op Reply := do
  let definitions ← WorkflowService.listWorkflowDefinitions
  return (200, .object [("definitions", .array (definitions.map WorkflowDefinitionKey.toJson))])

def handleRegister (req : HttpRequest wire) : Op Reply := do
  let body ← lift (parseBody req)
  let definition ← WorkflowService.registerWorkflowDefinition body
  return (201, .object [("definition", definition.toJson)])

def handleStart (req : HttpRequest wire) : Op Reply := do
  let body ← lift (parseBody req)
  let workflowName ← lift (requireString body "workflowName")
  let workflowVersion ← lift (requireInt body "workflowVersion")
  let input ← lift (optionalJson body "input")
  let execution ← WorkflowService.startWorkflowExecution workflowName workflowVersion input
  return (201, .object [("execution", execution.toJson)])

def handleGet (id : String) : Op Reply := do
  match ← WorkflowService.getWorkflowExecution id with
  | none => return sendProblem 404 "not-found" "Not Found" ("workflow execution not found: " ++ id)
  | some execution => return (200, .object [("execution", execution.toJson)])

def handleCancel (id : String) : Op Reply := do
  let execution ← WorkflowService.cancelWorkflow id
  return (200, .object [("execution", execution.toJson)])

def handlePollAndClaim (req : HttpRequest wire) : Op Reply := do
  let body ← lift (parseBody req)
  let workflowName ← lift (requireString body "workflowName")
  let workflowVersion ← lift (requireInt body "workflowVersion")
  let workerId ← lift (requireString body "workerId")
  let maxResults ← lift (readMaxResults body)
  let steps ← WorkflowService.pollAndClaimWorkflowSteps workflowName workflowVersion workerId
    maxResults
  return (200, .object [("steps", .array (steps.map WorkflowStepExecution.toJson))])

def handleKeepAlive (req : HttpRequest wire) : Op Reply := do
  let body ← lift (parseBody req)
  let workflowExecutionId ← lift (requireString body "workflowExecutionId")
  let stepName ← lift (requireString body "stepName")
  let workerId ← lift (requireString body "workerId")
  let step ← WorkflowService.keepAliveWorkflowStep workflowExecutionId stepName workerId
  return (200, .object [("step", step.toJson)])

def handleComplete (req : HttpRequest wire) : Op Reply := do
  let body ← lift (parseBody req)
  let workflowExecutionId ← lift (requireString body "workflowExecutionId")
  let stepName ← lift (requireString body "stepName")
  let workerId ← lift (requireString body "workerId")
  let stepOutput ← lift (optionalJson body "stepOutput")
  let nextStepDelay ← lift (readNextStepDelay body)
  let execution ← WorkflowService.completeWorkflowStep workflowExecutionId stepName workerId
    stepOutput nextStepDelay
  return (200, .object [("execution", execution.toJson)])

def handleFail (req : HttpRequest wire) : Op Reply := do
  let body ← lift (parseBody req)
  let workflowExecutionId ← lift (requireString body "workflowExecutionId")
  let stepName ← lift (requireString body "stepName")
  let workerId ← lift (requireString body "workerId")
  let reason ← lift (requireString body "reason")
  let execution ← WorkflowService.failWorkflowStep workflowExecutionId stepName workerId reason
  return (200, .object [("execution", execution.toJson)])

/-- The parameter after a fragment of a path: what is before the next slash, which ends the path. -/
def matchParam (fragment path : List Char) : Option (List Char) :=
  match path.dropPrefix? fragment with
  | some rest =>
    let param := rest.takeWhile (· != '/')
    if rest.length ≤ param.length + 1 then some param else none
  | none => none

/-- `:id` in `/v1/workflow-executions/:id`. -/
def pathId (path : String) : Option String :=
  (matchParam "/v1/workflow-executions/".toList path.toList).map String.ofList

def route (req : HttpRequest wire) : Option (Op Reply) :=
  match req.method with
  | .post =>
    if req.path = "/v1/workflow-definitions/validate" then some (handleValidate req)
    else if req.path = "/v1/workflow-definitions" then some (handleRegister req)
    else if req.path = "/v1/workflow-executions" then some (handleStart req)
    else if req.path = "/v1/workflow-step-executions/poll-and-claim" then
      some (handlePollAndClaim req)
    else if req.path = "/v1/workflow-step-executions/keep-alive" then some (handleKeepAlive req)
    else if req.path = "/v1/workflow-step-executions/complete" then some (handleComplete req)
    else if req.path = "/v1/workflow-step-executions/fail" then some (handleFail req)
    else none
  | .get =>
    if req.path = "/v1/workflow-definitions" then some handleList
    else (pathId req.path).map handleGet
  | .delete => (pathId req.path).map handleCancel

variable {E : Engine schema}

def respond (reply : Reply) : HttpResponse wire := ⟨reply.1, wire.canonicalString reply.2⟩

def serve (env : Environment) (req : HttpRequest wire) (db : E.Db) :
    Except Exception (HttpResponse wire) × E.Db :=
  match route req with
  | none => (.ok ⟨404, wire.empty⟩, db)
  | some handler =>
    match atomic env handler db with
    | (.ok reply, db') => (.ok (respond reply), db')
    | (.error e, db') => ((handleException wire e).map respond, db')

def statusOf (wire : Wire) (e : Exception) : Option ℕ :=
  match caught wire e with
  | some (.backendError, _) | some (.invalidArgument, _) => some 400
  | some (.runtimeError, what) => some (if saysNotFound what then 404 else 409)
  | some (.exception, _) => some 500
  | none => none

def status (answer : Except Exception (HttpResponse wire)) : Option ℕ :=
  answer.toOption.map HttpResponse.status

theorem status_handleException (e : Exception) :
    status ((handleException wire e).map respond : Except Exception (HttpResponse wire)) =
      statusOf wire e := by
  rw [handleException, statusOf]
  rcases caught wire e with _ | ⟨_ | _ | _ | _, what⟩
  case some.runtimeError =>
    simp only
    split_ifs
    · rfl
    · rfl
  all_goals rfl

variable {env : Environment} {req : HttpRequest wire} {db db' : E.Db} {handler : Op Reply}

theorem serve_returns {reply : Reply} (h : route req = some handler)
    (ha : atomic env handler db = (.ok reply, db')) :
    serve env req db = (.ok (respond reply), db') := by
  simp only [serve, h, ha]

theorem serve_throws {e : Exception} (h : route req = some handler)
    (ha : atomic env handler db = (.error e, db')) :
    status (serve env req db).1 = statusOf wire e ∧ (serve env req db).2 = db := by
  obtain ⟨-, rfl⟩ := atomic_error.mp ha
  simp only [serve, h, ha]
  exact ⟨status_handleException e, trivial⟩

end WorkflowHttpServer
end WorkflowEngine
