import WorkflowEngine.Executable
import WorkflowEngine.Integers
import WorkflowEngine.Txn.Refusal

/-!
# What the service refuses, and with which status

Every check of the operations that a client of the HTTP service can reach, with
the text of its message, and what it means that a request does not meet it. The
status of a refusal is a matter of the kind of check, except that a conflict is
reported as a missing row when the name that its message quotes says so.
-/

namespace WorkflowEngine
open OrderedMap Txn Txn.Program Orchestrator WorkflowJson WorkflowHttpServer

inductive Kind where
  | argument
  /-- A duration's text, an argument or a field of the stored definition. -/
  | duration
  /-- A row that is not there. -/
  | absence
  | conflict
  deriving DecidableEq

inductive Site where
  | workflowName | workflowVersion | workflowExecutionId | stepName | workerId | maxResults
  | nextStepDelay
  | duration | positiveDuration
  | definition | execution | stepExecution
  | singleton | executionRunning | currentStep | stepRunning | workerClaim | owner | lease
  | leaseTime | stepDefined | expectedTime | nextStep | nextStepDefined
  deriving DecidableEq

def Site.kind : Site → Kind
  | .workflowName | .workflowVersion | .workflowExecutionId | .stepName | .workerId | .maxResults
  | .nextStepDelay => .argument
  | .duration | .positiveDuration => .duration
  | .definition | .execution | .stepExecution => .absence
  | _ => .conflict

/-- What a message says before it quotes a name. -/
def Site.text : Site → String
  | .workflowName => "workflowName must not be empty"
  | .workflowVersion => "workflowVersion must be greater than or equal to 1"
  | .workflowExecutionId => "workflowExecutionId must not be empty"
  | .stepName => "stepName must not be empty"
  | .workerId => "workerId must not be empty"
  | .maxResults => "maxResults must be greater than 0"
  | .nextStepDelay => "nextStepDelay must be greater than zero"
  | .duration => "invalid ISO-8601 duration: "
  | .positiveDuration => "duration must be greater than zero: "
  | .definition => "workflow definition not found: "
  | .execution => "workflow execution not found: "
  | .stepExecution => "workflow step execution not found: "
  | .singleton => "singleton workflow execution already running: "
  | .executionRunning => "workflow execution is not running: "
  | .currentStep => "step does not match current workflow step: "
  | .stepRunning => "workflow step execution is not running: "
  | .workerClaim => "workflow step execution does not have a worker claim: "
  | .owner => "workflow step execution is owned by a different worker: "
  | .lease => "workflow step execution does not have an active lease: "
  | .leaseTime => "workflow step execution lease has expired: "
  | .stepDefined => "workflow step is not defined: "
  | .expectedTime => "step expectedExecutionTime is required for lease calculation: "
  | .nextStep => "next step decision must provide nextStepName or workflowComplete"
  | .nextStepDefined => "next step is not defined: "

/-- A check, and the name that its message quotes. -/
structure Check where
  site : Site
  quoted : String

def Check.exception (c : Check) : Exception :=
  match c.site.kind with
  | .argument | .duration => .invalidArgument (c.site.text ++ c.quoted)
  | .absence | .conflict => .runtimeError (c.site.text ++ c.quoted)

/-- The exceptions of the service's own, neither the language's nor the storage library's. -/
def Exception.Own : Exception → Prop
  | .invalidArgument _ | .runtimeError _ => True
  | _ => False

/-- A request as its endpoint reads it; a delay is still a text. -/
inductive Endpoint where
  | start (workflowName : String) (workflowVersion : Int32) (input : Json)
  | cancel (workflowExecutionId : String)
  | pollAndClaim (workflowName : String) (workflowVersion : Int32) (workerId : String)
      (maxResults : UInt64)
  | keepAlive (workflowExecutionId stepName workerId : String)
  | complete (workflowExecutionId stepName workerId : String) (stepOutput : Json)
      (nextStepDelay : Option String)
  | fail (workflowExecutionId stepName workerId reason : String)

namespace Endpoint

def workflow : Endpoint → Option (String × Int32)
  | .start name version _ | .pollAndClaim name version _ _ => some (name, version)
  | _ => none

def execution : Endpoint → Option String
  | .cancel id | .keepAlive id _ _ | .complete id _ _ _ _ | .fail id _ _ _ => some id
  | _ => none

def step : Endpoint → Option String
  | .keepAlive _ name _ | .complete _ name _ _ _ | .fail _ name _ _ => some name
  | _ => none

def worker : Endpoint → Option String
  | .pollAndClaim _ _ worker _ | .keepAlive _ _ worker | .complete _ _ worker _ _
  | .fail _ _ worker _ => some worker
  | _ => none

def delay : Endpoint → Option String
  | .complete _ _ _ _ delay => delay
  | _ => none

def reply : Endpoint → Op Reply
  | .start name version input => do
    let execution ← WorkflowService.startWorkflowExecution name version input
    return (201, .object [("execution", execution.toJson)])
  | .cancel id => handleCancel id
  | .pollAndClaim name version worker maxResults => do
    let steps ← WorkflowService.pollAndClaimWorkflowSteps name version worker maxResults
    return (200, .object [("steps", .array (steps.map WorkflowStepExecution.toJson))])
  | .keepAlive id name worker => do
    let step ← WorkflowService.keepAliveWorkflowStep id name worker
    return (200, .object [("step", step.toJson)])
  | .complete id name worker stepOutput delay => do
    let seconds ← lift (delay.mapM Duration.parseIso8601DurationToSeconds)
    let execution ← WorkflowService.completeWorkflowStep id name worker stepOutput
      (seconds.map Int64.ofInt)
    return (200, .object [("execution", execution.toJson)])
  | .fail id name worker reason => do
    let execution ← WorkflowService.failWorkflowStep id name worker reason
    return (200, .object [("execution", execution.toJson)])

variable {E : Engine schema} {db : E.Db}

def ExecutionRow (db : E.Db) (x : Endpoint) (row : WorkflowExecutionRow) : Prop :=
  ∃ id, x.execution = some id ∧ E.get db .executions id = some row

def StepRow (db : E.Db) (x : Endpoint) (row : WorkflowStepExecutionRow) : Prop :=
  ∃ id name e, x.execution = some id ∧ x.step = some name ∧ E.get db .executions id = some e ∧
    E.get db .steps (stepExecutionKey id name e.fromRow.currentStepAttempt) = some row

/-- The workflow that the request is about, named or by way of its execution. -/
def About (db : E.Db) (x : Endpoint) (name : String) (version : Int32) : Prop :=
  x.workflow = some (name, version) ∨
    ∃ row, x.ExecutionRow db row ∧ row.fromRow.versionKey = (name, version)

def Definition (db : E.Db) (x : Endpoint) (d : WorkflowDefinition) : Prop :=
  ∃ name version row, x.About db name version ∧
    E.get db .definitions (definitionKey name version) = some row ∧ row.fromRow = d

def DurationText (db : E.Db) (x : Endpoint) (text : String) : Prop :=
  x.delay = some text ∨
    ∃ d, x.Definition db d ∧ ∃ step ∈ d.steps, step.expectedExecutionTime = some text

end Endpoint

/-- The request does not meet a check, whose message quotes a name. -/
inductive Unmet {E : Engine schema} (env : Environment) (db : E.Db) (x : Endpoint) :
    Site → String → Prop where
  | workflowName {version : Int32} (h : x.workflow = some ("", version)) :
    Unmet env db x .workflowName ""
  | workflowVersion {name : String} {version : Int32} (h : x.workflow = some (name, version))
    (low : version < 1) : Unmet env db x .workflowVersion ""
  | workflowExecutionId (h : x.execution = some "") : Unmet env db x .workflowExecutionId ""
  | stepName (h : x.step = some "") : Unmet env db x .stepName ""
  | workerId (h : x.worker = some "") : Unmet env db x .workerId ""
  | maxResults {name worker : String} {version : Int32}
    (h : x = .pollAndClaim name version worker 0) : Unmet env db x .maxResults ""
  | nextStepDelay {text : String} {seconds : Seconds} (h : x.delay = some text)
    (parsed : Duration.parseIso8601DurationToSeconds text = .ok seconds)
    (low : (Int64.ofInt seconds).toInt ≤ 0) : Unmet env db x .nextStepDelay ""
  | duration {text : String} (h : x.DurationText db text)
    (bad : ∀ p, ¬ Duration.Spells text.toList p) : Unmet env db x .duration text
  | positiveDuration {text : String} {p : Duration.Parts} (h : x.DurationText db text)
    (spells : Duration.Spells text.toList p) (zero : p.total = 0) :
    Unmet env db x .positiveDuration text
  | definition {name : String} {version : Int32} (h : x.About db name version)
    (absent : E.get db .definitions (definitionKey name version) = none) :
    Unmet env db x .definition name
  | execution {id : String} (h : x.execution = some id)
    (absent : E.get db .executions id = none) : Unmet env db x .execution id
  | stepExecution {id name : String} {row : WorkflowExecutionRow} (hid : x.execution = some id)
    (hname : x.step = some name) (found : E.get db .executions id = some row)
    (absent : E.get db .steps (stepExecutionKey id name row.fromRow.currentStepAttempt) = none) :
    Unmet env db x .stepExecution name
  | singleton {name : String} {version : Int32} {input : Json} {lock : WorkflowSingletonLockRow}
    {row : WorkflowExecutionRow} (h : x = .start name version input)
    (held : E.get db .singletonLocks (singletonLockKey name version) = some lock)
    (found : E.get db .executions lock.workflowExecutionId = some row)
    (running : row.fromRow.status = .running) : Unmet env db x .singleton name
  | executionRunning {id quoted : String} {row : WorkflowExecutionRow} (h : x.execution = some id)
    (found : E.get db .executions id = some row) (ended : row.fromRow.status ≠ .running)
    (hquoted : quoted = id ∨ quoted = row.workflowExecutionId) :
    Unmet env db x .executionRunning quoted
  | currentStep {name : String} {row : WorkflowExecutionRow} (hname : x.step = some name)
    (found : x.ExecutionRow db row) (other : row.fromRow.currentStepName ≠ name) :
    Unmet env db x .currentStep name
  | stepRunning {row : WorkflowStepExecutionRow} (found : x.StepRow db row)
    (ended : row.fromRow.status ≠ .running) : Unmet env db x .stepRunning row.stepName
  | workerClaim {row : WorkflowStepExecutionRow} (found : x.StepRow db row)
    (unowned : row.fromRow.workerId = none) : Unmet env db x .workerClaim row.stepName
  | owner {worker : String} {row : WorkflowStepExecutionRow} (found : x.StepRow db row)
    (h : x.worker = some worker) (other : row.fromRow.workerId ≠ some worker) :
    Unmet env db x .owner row.stepName
  | lease {row : WorkflowStepExecutionRow} (found : x.StepRow db row)
    (unleased : row.fromRow.leaseExpiresAt = none) : Unmet env db x .lease row.stepName
  | leaseTime {row : WorkflowStepExecutionRow} {deadline : TimePoint} {t : ℕ}
    (found : x.StepRow db row) (h : row.fromRow.leaseExpiresAt = some deadline)
    (past : deadline ≤ env.answer t .clock) : Unmet env db x .leaseTime row.stepName
  | stepDefined {name : String} {d : WorkflowDefinition} (h : x.Definition db d)
    (absent : ∀ step ∈ d.steps, step.name ≠ name) : Unmet env db x .stepDefined name
  | expectedTime {step : WorkflowStep} {d : WorkflowDefinition} (h : x.Definition db d)
    (hstep : step ∈ d.steps) (untimed : step.expectedExecutionTime = none) :
    Unmet env db x .expectedTime step.name
  | nextStep {t : ℕ} {context : StepCompletionContext} {decision : NextStepDecision}
    (h : env.answer t (.decideNextStep context) = .ok decision)
    (more : decision.workflowComplete = false) (unnamed : decision.nextStepName = none) :
    Unmet env db x .nextStep ""
  | nextStepDefined {t : ℕ} {context : StepCompletionContext} {decision : NextStepDecision}
    {name : String} {d : WorkflowDefinition}
    (h : env.answer t (.decideNextStep context) = .ok decision)
    (named : decision.nextStepName = some name) (hd : x.Definition db d)
    (absent : ∀ step ∈ d.steps, step.name ≠ name) : Unmet env db x .nextStepDefined name

variable {E : Engine schema} {env : Environment} {db : E.Db} {tx : Tx E} {x : Endpoint}
  {e : Exception}

def Explained (env : Environment) (db : E.Db) (x : Endpoint) (e : Exception) : Prop :=
  ∃ c : Check, Unmet env db x c.site c.quoted ∧ e = c.exception

theorem Unmet.explained {site : Site} {quoted : String} (h : Unmet env db x site quoted)
    (he : e = Check.exception ⟨site, quoted⟩) : Explained env db x e := ⟨_, h, he⟩

theorem Unmet.argument {site : Site} (h : Unmet env db x site "") (hkind : site.kind = .argument) :
    Explained env db x (.invalidArgument site.text) := by
  refine h.explained ?_
  rw [Check.exception, hkind, String.append_empty]

def Question.raises : (q : Question) → q.Answer → Bool
  | .clock, _ | .draw, _ => false
  | .reserve _, .ok _ | .decideNextStep _, .ok _ => false
  | .reserve _, .error _ | .decideNextStep _, .error _ => true

abbrev Declines {α : Type} (env : Environment) (p : Op α) (tx : Tx E) (e : Exception) : Prop :=
  Refuses Question.raises env p tx e

theorem mapM_eq_ok {delay : Option String} {read : String → Except Exception Seconds}
    {seconds : Option Seconds} (h : delay.mapM read = .ok seconds) :
    ∀ s ∈ seconds, ∃ text, delay = some text ∧ read text = .ok s := by
  intro s hs
  cases delay with
  | none =>
    obtain rfl := Except.ok.inj h
    cases hs
  | some text =>
    refine ⟨text, rfl, ?_⟩
    cases hread : read text with
    | ok s' =>
      rw [Option.mapM_some, hread] at h
      obtain rfl := Except.ok.inj h
      rw [Option.mem_some_iff.mp hs]
    | error e' =>
      rw [Option.mapM_some, hread] at h
      cases h

variable {wire : Wire} {req : HttpRequest wire} {o : Json.Object} {c : Check}

structure Posts (req : HttpRequest wire) (path : String) (o : Json.Object) : Prop where
  method : req.method = .post
  path : req.path = path
  body : wire.parse req.body = .ok (.object o)

def ResultsField (o : Json.Object) (maxResults : UInt64) : Prop :=
  o.get? "maxResults" = none ∧ maxResults = 1 ∨
    ∃ m, o.get? "maxResults" = some (.int64 m) ∧ maxResults = toSize m

def DelayField (o : Json.Object) (delay : Option String) : Prop :=
  (o.get? "nextStepDelay" = none ∨ o.get? "nextStepDelay" = some .null) ∧ delay = none ∨
    ∃ text, o.get? "nextStepDelay" = some (.string text) ∧ delay = some text

structure WorkerFields (o : Json.Object) (id name worker : String) : Prop where
  id : o.get? "workflowExecutionId" = some (.string id)
  name : o.get? "stepName" = some (.string name)
  worker : o.get? "workerId" = some (.string worker)

/-- Every field is there and of its type, unless it may be left out. -/
inductive WellTyped (req : HttpRequest wire) : Endpoint → Prop where
  | start {o : Json.Object} {name : String} {n : Int64} (posts : Posts req "/v1/workflow-executions" o)
    (hname : o.get? "workflowName" = some (.string name))
    (hversion : o.get? "workflowVersion" = some (.int64 n)) :
    WellTyped req (.start name n.toInt32 ((o.get? "input").getD (.object [])))
  | cancel {id : String} (method : req.method = .delete) (path : pathId req.path = some id) :
    WellTyped req (.cancel id)
  | pollAndClaim {o : Json.Object} {name worker : String} {n : Int64} {maxResults : UInt64}
    (posts : Posts req "/v1/workflow-step-executions/poll-and-claim" o)
    (hname : o.get? "workflowName" = some (.string name))
    (hversion : o.get? "workflowVersion" = some (.int64 n))
    (hworker : o.get? "workerId" = some (.string worker)) (hresults : ResultsField o maxResults) :
    WellTyped req (.pollAndClaim name n.toInt32 worker maxResults)
  | keepAlive {o : Json.Object} {id name worker : String}
    (posts : Posts req "/v1/workflow-step-executions/keep-alive" o)
    (fields : WorkerFields o id name worker) : WellTyped req (.keepAlive id name worker)
  | complete {o : Json.Object} {id name worker : String} {delay : Option String}
    (posts : Posts req "/v1/workflow-step-executions/complete" o)
    (fields : WorkerFields o id name worker) (hdelay : DelayField o delay) :
    WellTyped req (.complete id name worker ((o.get? "stepOutput").getD (.object [])) delay)
  | fail {o : Json.Object} {id name worker reason : String}
    (posts : Posts req "/v1/workflow-step-executions/fail" o) (fields : WorkerFields o id name worker)
    (hreason : o.get? "reason" = some (.string reason)) : WellTyped req (.fail id name worker reason)

theorem ResultsField.read {maxResults : UInt64} (h : ResultsField o maxResults) :
    readMaxResults (.object o) = .ok maxResults := by
  rcases h with ⟨hnone, rfl⟩ | ⟨m, hm, rfl⟩
  · rw [readMaxResults, readOptional, Json.has_object, Json.Object.count_eq, hnone]
    rfl
  · exact readMaxResults_object hm

theorem DelayField.read {delay : Option String} (h : DelayField o delay) :
    readNextStepDelay (.object o) =
      (delay.mapM Duration.parseIso8601DurationToSeconds).map (Option.map Int64.ofInt) := by
  rcases h with ⟨hnone | hnull, rfl⟩ | ⟨text, htext, rfl⟩
  · exact HttpTransport.readNextStepDelay_none hnone
  · rw [readNextStepDelay, readNullable, Json.has_object, Json.Object.count_eq, hnull,
      Json.at_object _ _ hnull]
    rfl
  · rw [readNextStepDelay, readNullable, Json.has_object, Json.Object.count_eq, htext,
      Json.at_object _ _ htext, Option.mapM_some]
    simp only [Option.isSome_some, Cxx.ok_bind, Json.isNull, Json.asString, Bool.not_false, if_true]
    cases Duration.parseIso8601DurationToSeconds text with
    | ok seconds => rfl
    | error e => rfl

theorem Posts.route {path : String} {handler : HttpRequest wire → Op Reply}
    (posts : Posts req path o)
    (h : ∀ body, WorkflowHttpServer.route ⟨.post, path, body⟩ = some (handler ⟨.post, path, body⟩)) :
    WorkflowHttpServer.route req = some (handler req) := by
  obtain ⟨method, path', body⟩ := req
  obtain ⟨rfl, rfl, -⟩ := posts
  exact h body

theorem lift_map_bind {α β γ : Type} (y : Except Exception α) (f : α → β) (g : β → Op γ) :
    (lift (y.map f) >>= g) = lift y >>= fun a => g (f a) := by
  cases y with
  | ok a => rfl
  | error e => rfl

theorem WellTyped.route (h : WellTyped req x) : route req = some x.reply := by
  cases h with
  | start posts hname hversion =>
    have hroute : WorkflowHttpServer.route req = some (handleStart req) := posts.route fun _ => rfl
    rw [hroute, handleStart, parseBody, posts.body, lift_ok_bind,
      HttpTransport.requireString_eq hname, requireInt_object hversion, optionalJson_object]
    rfl
  | cancel method path =>
    rw [WorkflowHttpServer.route, method, path]
    rfl
  | pollAndClaim posts hname hversion hworker hresults =>
    have hroute : WorkflowHttpServer.route req = some (handlePollAndClaim req) :=
      posts.route fun _ => rfl
    rw [hroute, handlePollAndClaim, parseBody, posts.body, lift_ok_bind,
      HttpTransport.requireString_eq hname, requireInt_object hversion,
      HttpTransport.requireString_eq hworker, hresults.read]
    rfl
  | keepAlive posts fields =>
    have hroute : WorkflowHttpServer.route req = some (handleKeepAlive req) := posts.route fun _ => rfl
    rw [hroute, handleKeepAlive, parseBody, posts.body, lift_ok_bind,
      HttpTransport.requireString_eq fields.id, HttpTransport.requireString_eq fields.name,
      HttpTransport.requireString_eq fields.worker]
    rfl
  | complete posts fields hdelay =>
    have hroute : WorkflowHttpServer.route req = some (handleComplete req) := posts.route fun _ => rfl
    rw [hroute, handleComplete, parseBody, posts.body, lift_ok_bind,
      HttpTransport.requireString_eq fields.id, HttpTransport.requireString_eq fields.name,
      HttpTransport.requireString_eq fields.worker, optionalJson_object, hdelay.read]
    exact congrArg some (lift_map_bind _ _ _)
  | fail posts fields hreason =>
    have hroute : WorkflowHttpServer.route req = some (handleFail req) := posts.route fun _ => rfl
    rw [hroute, handleFail, parseBody, posts.body, lift_ok_bind,
      HttpTransport.requireString_eq fields.id, HttpTransport.requireString_eq fields.name,
      HttpTransport.requireString_eq fields.worker, HttpTransport.requireString_eq hreason]
    rfl

def RefusedAt (env : Environment) (db : E.Db) (req : HttpRequest wire) (c : Check) : Prop :=
  ∃ x, WellTyped req x ∧ Unmet env db x c.site c.quoted ∧
    Declines env x.reply (Tx.begin db) c.exception

def Check.status (c : Check) : ℕ :=
  match c.site.kind with
  | .argument | .duration => 400
  | .absence => 404
  | .conflict => if saysNotFound c.quoted then 404 else 409

theorem saysNotFound_iff {msg : String} :
    saysNotFound msg = true ↔ "not found".toList <:+: msg.toList := decide_eq_true_iff

theorem absence_saysNotFound {site : Site} (h : site.kind = .absence) :
    saysNotFound site.text = true := by
  cases site with
  | definition | execution | stepExecution => decide +kernel
  | _ => cases h

/-- A conflict's own text ends with a colon and a blank and says nothing of "not found". -/
theorem conflict_text {site : Site} (h : site.kind = .conflict) (hquotes : site ≠ .nextStep) :
    site.text.toList = site.text.toList.takeWhile (· != ':') ++ [':', ' '] ∧
      ¬ "not found".toList <:+: site.text.toList.takeWhile (· != ':') := by
  cases site with
  | singleton | executionRunning | currentStep | stepRunning | workerClaim | owner | lease
  | leaseTime | stepDefined | expectedTime | nextStepDefined => decide +kernel
  | nextStep => exact absurd rfl hquotes
  | _ => cases h

theorem conflict_saysNotFound {site : Site} (h : site.kind = .conflict) (hquotes : site ≠ .nextStep)
    (quoted : String) : saysNotFound (site.text ++ quoted) = saysNotFound quoted := by
  obtain ⟨htext, hhead⟩ := conflict_text h hquotes
  have hcolon : ':' ∉ "not found".toList := by decide
  have hblank : ¬ "not found".toList <+: ' ' :: quoted.toList := by
    intro hprefix
    exact absurd (List.cons_prefix_cons.mp hprefix).1 (by decide)
  rw [Bool.eq_iff_iff, saysNotFound_iff, saysNotFound_iff, String.toList_append, htext,
    List.append_assoc, List.cons_append, Text.infix_append_cons hcolon, or_iff_right hhead,
    List.cons_append, List.nil_append, List.infix_cons_iff, or_iff_right hblank]

theorem Unmet.statusOf_exception (h : Unmet env db x c.site c.quoted) :
    statusOf wire c.exception = some c.status := by
  obtain ⟨site, quoted⟩ := c
  cases hkind : site.kind with
  | argument | duration => simp only [Check.exception, Check.status, hkind, statusOf, caught]
  | absence =>
    have hsays : saysNotFound (site.text ++ quoted) = true := by
      refine saysNotFound_iff.mpr ((saysNotFound_iff.mp (absence_saysNotFound hkind)).trans ?_)
      rw [String.toList_append]
      exact (List.prefix_append _ _).isInfix
    simp only [Check.exception, Check.status, hkind, statusOf, caught, hsays, if_true]
  | conflict =>
    have hsays : saysNotFound (site.text ++ quoted) = saysNotFound quoted := by
      by_cases hsite : site = .nextStep
      · subst hsite
        cases h
        decide +kernel
      · exact conflict_saysNotFound hkind hsite quoted
    simp only [Check.exception, Check.status, hkind, statusOf, caught, hsays]

theorem RefusedAt.status (h : RefusedAt env db req c) :
    status (serve env req db).1 = some c.status := by
  obtain ⟨x, hreq, hunmet, hdeclines⟩ := h
  obtain ⟨tx', ht⟩ := hdeclines.throws
  exact (serve_throws hreq.route (atomic_error.mpr ⟨⟨tx', ht⟩, rfl⟩)).1.trans hunmet.statusOf_exception

theorem Check.own (c : Check) : c.exception.Own := by
  rw [exception]
  split <;> trivial

namespace Sample

def keepAliveBody (stepName : String) : Json.Object :=
  [("workflowExecutionId", .string (Sample.id 0)), ("stepName", .string stepName),
    ("workerId", .string "first")]

def keepAliveRequest (stepName : String) : HttpRequest jsonWire :=
  ⟨.post, "/v1/workflow-step-executions/keep-alive", some (.object (keepAliveBody stepName))⟩

def untimed : WorkflowDefinition :=
  { definition false 0 with
    steps := [{ name := "ship", expectedExecutionTime := some "P0D", maxRetries := none }] }

end Sample

end WorkflowEngine
