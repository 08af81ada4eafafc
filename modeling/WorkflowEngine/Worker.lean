import WorkflowEngine.ExecuteStep
import WorkflowEngine.Systems.Traces

/-!
# The worker

A worker polls for one step at a time, executes it and polls again until it is
stopped. The poll thread, the keep-alive thread of the step under way and the
thread that calls `stop` are interleaved.
-/

namespace WorkflowEngine
namespace Worker
open ExecuteStep Systems
open Transport (Request)

structure Config where
  workflowName : String
  workflowVersion : Int32
  workerId : String
  handlers : Handlers

def Config.pollRequest (config : Config) : Request :=
  .pollAndClaimWorkflowSteps config.workflowName config.workflowVersion config.workerId 1

/-- `response.steps[0]`, if there is one. -/
def polledStep : Option (Except Exception Transport.Response) → Option WorkflowStepExecution
  | some (.ok (.steps steps)) => steps.head?
  | _ => none

inductive Thread where
  /-- At `while (!stopping)`. -/
  | looping
  | polling (call : ClientCall)
  | executing (stage : Stage)
  | waiting
  | done

inductive Thread.Step (config : Config) (stopping : Bool) : Thread → StageEvent → Thread → Prop
  | leave (h : stopping = true) : Step config stopping .looping .internal .done
  | poll (h : stopping = false) : Step config stopping .looping .internal (.polling .wanted)
  | call {call call' : ClientCall} {e : CallEvent} (h : call.Step e (some call')) :
      Step config stopping (.polling call) (.call config.pollRequest e) (.polling call')
  | claimed {call : ClientCall} {reply : Option (Except Exception Transport.Response)}
      {step : WorkflowStepExecution} (h : call.Step (.leave reply) none)
      (found : polledStep reply = some step) :
      Step config stopping (.polling call) (.call config.pollRequest (.leave reply))
        (.executing (.entered step))
  | nothing {call : ClientCall} {reply : Option (Except Exception Transport.Response)}
      (h : call.Step (.leave reply) none) (none : polledStep reply = none) :
      Step config stopping (.polling call) (.call config.pollRequest (.leave reply)) .waiting
  | execute {stage stage' : Stage} {e : StageEvent}
      (h : ExecuteStep.Step config.handlers config.workerId stage e stage') :
      Step config stopping (.executing stage) e (.executing stage')
  | again {step : WorkflowStepExecution} :
      Step config stopping (.executing (.returned step)) .internal .looping
  | wake : Step config stopping .waiting .internal .looping

inductive Stop where
  | notCalled | joining | returned
  deriving DecidableEq

end Worker

/-- A worker between `start` and the return of `stop`. -/
structure Worker where
  thread : Worker.Thread := .looping
  stopping : Bool := false
  stop : Worker.Stop := .notCalled

namespace Worker
open ExecuteStep Systems
open Transport (Request)

inductive WorkerEvent where
  | thread (e : StageEvent)
  | stop | join

inductive Step (config : Config) : Worker → WorkerEvent → Worker → Prop
  | thread {worker : Worker} {e : StageEvent} {thread : Thread}
      (h : worker.thread.Step config worker.stopping e thread) :
      Step config worker (.thread e) { worker with thread := thread }
  | stop {worker : Worker} (h : worker.stop = .notCalled) :
      Step config worker .stop { worker with stopping := true, stop := .joining }
  | join {worker : Worker} (h : worker.stop = .joining) (hdone : worker.thread = .done) :
      Step config worker .join { worker with stop := .returned }

def start : Worker := {}

inductive Message where
  | sends (request : Request)
  | receives (request : Request) (reply : Option (Except Exception Transport.Response))
  | begins (step : WorkflowStepExecution)
  | ends (step : WorkflowStepExecution) (outcome : Outcome)

def StageEvent.message : StageEvent → Option Message
  | .internal => none
  | .begins step => some (.begins step)
  | .ends step outcome => some (.ends step outcome)
  | .call request .enter => some (.sends request)
  | .call _ (.serve _) => none
  | .call request (.leave reply) => some (.receives request reply)

def WorkerEvent.message : WorkerEvent → Option Message
  | .thread e => StageEvent.message e
  | .stop | .join => none

def Message.polled : Message → Option (Option (Except Exception Transport.Response))
  | .receives (.pollAndClaimWorkflowSteps _ _ _ _) reply => some reply
  | _ => none

def Message.claim (m : Message) : Option WorkflowStepExecution := m.polled.bind polledStep

def Message.report : Message → Option Request
  | .sends (.completeWorkflowStep id stepName workerId output delay) =>
    some (.completeWorkflowStep id stepName workerId output delay)
  | .sends (.failWorkflowStep id stepName workerId reason) =>
    some (.failWorkflowStep id stepName workerId reason)
  | _ => none

def Message.ending : Message → Option (WorkflowStepExecution × Outcome)
  | .ends step outcome => some (step, outcome)
  | _ => none

def claims (events : List WorkerEvent) : List WorkflowStepExecution :=
  (events.filterMap WorkerEvent.message).filterMap Message.claim

def reports (events : List WorkerEvent) : List Request :=
  (events.filterMap WorkerEvent.message).filterMap Message.report

def endings (events : List WorkerEvent) : List (WorkflowStepExecution × Outcome) :=
  (events.filterMap WorkerEvent.message).filterMap Message.ending

def shipper : Config where
  workflowName := "orders"
  workflowVersion := 1
  workerId := "worker"
  handlers := registerStep [] "ship" fun _ outcome => outcome = .returned (.object [])

def shipment : WorkflowStepExecution where
  workflowExecutionId := "id"
  workflowName := "orders"
  workflowVersion := 1
  stepName := "ship"
  attempt := 0

def shipped : Request := .completeWorkflowStep "id" "ship" "worker" (.object []) none

theorem shipper_run : ∃ events, Run (Step shipper) start events ⟨.done, true, .returned⟩ ∧
    claims events = [shipment] ∧ reports events = [shipped] ∧
    ∃ before after, events = before ++ .stop :: after := by
  refine ⟨_, .cons (.thread (.poll rfl)) <|
    .cons (.thread (.call .enter)) <|
    .cons (.thread (.call (.serve (.ok (.steps [shipment]))))) <|
    .cons (.thread (.claimed (.answer _) rfl)) <|
    .cons (.thread (.execute (.construct rfl))) <|
    .cons (.thread (.execute (.pingCalling .lock))) <|
    .cons (.thread (.execute (.handle rfl))) <|
    .cons (.thread (.execute (.pingHandling (.wait rfl)))) <|
    .cons (.thread (.execute (.pingHandling .wake))) <|
    .cons (.thread (.execute (.pingHandling (.ping rfl)))) <|
    .cons (.thread (.execute (.pingHandling (.call .enter)))) <|
    .cons (.thread (.execute (@Step.finish _ _ _ _ (.returned (.object [])) _ rfl rfl))) <|
    .cons (.thread (.execute (.pingClosing (.pinged .fail)))) <|
    .cons (.thread (.execute (.pingClosing (.wait rfl)))) <|
    .cons (.thread (.execute (.close (by simp [KeepAlive.Locked])))) <|
    .cons (.thread (.execute (.pingJoining .wake))) <|
    .cons (.thread (.execute (.pingJoining (.skip rfl)))) <|
    .cons (.thread (.execute (.pingJoining (.exit rfl)))) <|
    .cons (.thread (.execute .join)) <|
    .cons (.thread (.execute (.report .enter))) <|
    .cons (.thread (.execute (.reported .fail))) <|
    .cons (.thread .again) <|
    .cons (.stop rfl) <|
    .cons (.thread (.leave rfl)) <|
    .cons (.join rfl rfl) .nil, rfl, rfl, ?_⟩
  exact ⟨[_, _, _, _, _, _, _, _, _, _, _, _, _, _, _, _, _, _, _, _, _, _], _, rfl⟩

inductive Progress where
  | notCalled | running
  | ended (outcome : Outcome)

/-- What is between a worker and its client: one call at a time, about one claim at a time. -/
inductive Protocol where
  | free (polling : Bool)
  | holding (step : WorkflowStepExecution) (progress : Progress) (pinging : Bool)
  | reporting (step : WorkflowStepExecution) (outcome : Option Outcome)

inductive Protocol.Step (config : Config) : Protocol → Message → Protocol → Prop
  | poll : Step config (.free false) (.sends config.pollRequest) (.free true)
  | nothing {reply : Option (Except Exception Transport.Response)} (h : polledStep reply = none) :
      Step config (.free true) (.receives config.pollRequest reply) (.free false)
  | claim {reply : Option (Except Exception Transport.Response)} {step : WorkflowStepExecution}
      (h : polledStep reply = some step) :
      Step config (.free true) (.receives config.pollRequest reply) (.holding step .notCalled false)
  | begins {step : WorkflowStepExecution} {handler : StepHandler} {pinging : Bool}
      (h : find config.handlers step.stepName = some handler) :
      Step config (.holding step .notCalled pinging) (.begins step) (.holding step .running pinging)
  | ping {step : WorkflowStepExecution} {handler : StepHandler} {progress : Progress}
      (h : find config.handlers step.stepName = some handler) :
      Step config (.holding step progress false) (.sends (keepAliveRequest config.workerId step))
        (.holding step progress true)
  | pinged {step : WorkflowStepExecution} {progress : Progress}
      (reply : Option (Except Exception Transport.Response)) :
      Step config (.holding step progress true)
        (.receives (keepAliveRequest config.workerId step) reply) (.holding step progress false)
  | ends {step : WorkflowStepExecution} {handler : StepHandler} {outcome : Outcome}
      {pinging : Bool} (h : find config.handlers step.stepName = some handler)
      (ends : handler step outcome) :
      Step config (.holding step .running pinging) (.ends step outcome)
        (.holding step (.ended outcome) pinging)
  | report {step : WorkflowStepExecution} {outcome : Outcome} :
      Step config (.holding step (.ended outcome) false)
        (.sends (reportRequest config.workerId step (some outcome)))
        (.reporting step (some outcome))
  | unhandled {step : WorkflowStepExecution} (h : find config.handlers step.stepName = none) :
      Step config (.holding step .notCalled false)
        (.sends (reportRequest config.workerId step none)) (.reporting step none)
  | reported {step : WorkflowStepExecution} {outcome : Option Outcome}
      (reply : Option (Except Exception Transport.Response)) :
      Step config (.reporting step outcome)
        (.receives (reportRequest config.workerId step outcome) reply) (.free false)

def isOpen : ClientCall → Bool
  | .wanted => false
  | .sent | .served _ => true

def isPinging : KeepAlive → Bool
  | .pinging call => isOpen call
  | _ => false

def progressOf : Option Outcome → Progress
  | some outcome => .ended outcome
  | none => .notCalled

def stageProtocol : Stage → Protocol
  | .entered step => .holding step .notCalled false
  | .calling step k => .holding step .notCalled (isPinging k)
  | .handling step k => .holding step .running (isPinging k)
  | .closing step outcome k | .joining step outcome k => .holding step (.ended outcome) (isPinging k)
  | .reporting step outcome call =>
    if isOpen call then .reporting step outcome else .holding step (progressOf outcome) false
  | .returned _ => .free false

def Thread.protocol : Thread → Protocol
  | .looping | .waiting | .done => .free false
  | .polling call => .free (isOpen call)
  | .executing stage => stageProtocol stage

def Registered (handlers : Handlers) : Stage → Prop
  | .calling step _ | .handling step _ | .closing step _ _ | .joining step _ _ =>
    ∃ handler, find handlers step.stepName = some handler
  | .reporting step none _ => find handlers step.stepName = none
  | _ => True

def Thread.Valid (config : Config) : Thread → Prop
  | .executing stage => Registered config.handlers stage
  | _ => True

/-- An event is unseen and changes nothing that is seen, or it is a message of the protocol. -/
def Seen (config : Config) (p : Protocol) (e : StageEvent) (p' : Protocol) : Prop :=
  (StageEvent.message e = none ∧ p' = p) ∨ ∃ m, StageEvent.message e = some m ∧ p.Step config m p'

variable {config : Config} {worker worker' : Worker} {events : List WorkerEvent}

theorem keepAlive_seen {step : WorkflowStepExecution} {progress : Progress} {done : Bool}
    {k k' : KeepAlive} {e : StageEvent} (h : k.Step (keepAliveRequest config.workerId step) done e k')
    (registered : ∃ handler, find config.handlers step.stepName = some handler) :
    Seen config (.holding step progress (isPinging k)) e
      (.holding step progress (isPinging k')) := by
  obtain ⟨handler, hfind⟩ := registered
  cases h with
  | call h =>
    cases h with
    | enter => exact .inr ⟨_, rfl, .ping hfind⟩
    | serve reply => exact .inl ⟨rfl, rfl⟩
  | pinged h =>
    cases h with
    | fail => exact .inr ⟨_, rfl, .pinged none⟩
    | answer reply => exact .inr ⟨_, rfl, .pinged (some reply)⟩
    | lose reply => exact .inr ⟨_, rfl, .pinged none⟩
  | _ => exact .inl ⟨rfl, rfl⟩

theorem report_seen {step : WorkflowStepExecution} {outcome : Option Outcome}
    (h : outcome = none → find config.handlers step.stepName = none) :
    (Protocol.holding step (progressOf outcome) false).Step config
      (.sends (reportRequest config.workerId step outcome)) (.reporting step outcome) := by
  cases outcome with
  | none => exact .unhandled (h rfl)
  | some outcome => exact .report

theorem stage_seen {stage stage' : Stage} {e : StageEvent}
    (h : ExecuteStep.Step config.handlers config.workerId stage e stage')
    (registered : Registered config.handlers stage) : Registered config.handlers stage' ∧
      Seen config (stageProtocol stage) e (stageProtocol stage') := by
  cases h with
  | unhandled h => exact ⟨h, .inl ⟨rfl, rfl⟩⟩
  | construct h => exact ⟨⟨_, h⟩, .inl ⟨rfl, rfl⟩⟩
  | handle h => exact ⟨⟨_, h⟩, .inr ⟨_, rfl, .begins h⟩⟩
  | finish h ends => exact ⟨⟨_, h⟩, .inr ⟨_, rfl, .ends h ends⟩⟩
  | close h => exact ⟨registered, .inl ⟨rfl, rfl⟩⟩
  | join => exact ⟨trivial, .inl ⟨rfl, rfl⟩⟩
  | pingCalling h => exact ⟨registered, keepAlive_seen h registered⟩
  | pingHandling h => exact ⟨registered, keepAlive_seen h registered⟩
  | pingClosing h => exact ⟨registered, keepAlive_seen h registered⟩
  | pingJoining h => exact ⟨registered, keepAlive_seen h registered⟩
  | @report step outcome call call' e h =>
    have hnone : outcome = none → find config.handlers step.stepName = none := by
      rintro rfl
      exact registered
    refine ⟨?_, ?_⟩
    · cases outcome with
      | none => exact registered
      | some outcome => trivial
    · cases h with
      | enter => exact .inr ⟨_, rfl, report_seen hnone⟩
      | serve reply => exact .inl ⟨rfl, rfl⟩
  | reported h =>
    refine ⟨trivial, ?_⟩
    cases h with
    | fail => exact .inr ⟨_, rfl, .reported none⟩
    | answer reply => exact .inr ⟨_, rfl, .reported (some reply)⟩
    | lose reply => exact .inr ⟨_, rfl, .reported none⟩

theorem polling_seen {call : ClientCall} {reply : Option (Except Exception Transport.Response)}
    (h : call.Step (.leave reply) none) : isOpen call = true := by
  cases h <;> rfl

theorem Thread.Step.seen {stopping : Bool} {thread thread' : Thread} {e : StageEvent}
    (h : thread.Step config stopping e thread') (valid : thread.Valid config) :
    thread'.Valid config ∧ Seen config thread.protocol e thread'.protocol := by
  cases h with
  | call h =>
    refine ⟨trivial, ?_⟩
    cases h with
    | enter => exact .inr ⟨_, rfl, .poll⟩
    | serve reply => exact .inl ⟨rfl, rfl⟩
  | claimed h found =>
    refine ⟨trivial, .inr ⟨_, rfl, ?_⟩⟩
    simp only [Thread.protocol, polling_seen h]
    exact .claim found
  | nothing h none =>
    refine ⟨trivial, .inr ⟨_, rfl, ?_⟩⟩
    simp only [Thread.protocol, polling_seen h]
    exact .nothing none
  | execute h => exact stage_seen h valid
  | _ => exact ⟨trivial, .inl ⟨rfl, rfl⟩⟩

theorem Step.seen {e : WorkerEvent} (h : Step config worker e worker')
    (valid : worker.thread.Valid config) : worker'.thread.Valid config ∧
      ((e.message = none ∧ worker'.thread.protocol = worker.thread.protocol) ∨
        ∃ m, e.message = some m ∧
          worker.thread.protocol.Step config m worker'.thread.protocol) := by
  cases h with
  | thread h => exact h.seen valid
  | stop | join => exact ⟨valid, .inl ⟨rfl, rfl⟩⟩

/-- The two threads of a worker speak to the client as one: no call begins before the last one has
ended, the claim is renewed only while it is held, and every claim is reported once. -/
theorem worker_refines_protocol (run : Run (Step config) start events worker) :
    Run (Protocol.Step config) (.free false) (events.filterMap WorkerEvent.message)
      worker.thread.protocol :=
  (run.observe (I := fun worker => worker.thread.Valid config) (fun worker => worker.thread.protocol)
    WorkerEvent.message (fun _ _ _ valid h => h.seen valid) trivial).2

theorem worker_refines_protocol_shipped : ∃ events, claims events = [shipment] ∧
    Run (Protocol.Step shipper) (.free false) (events.filterMap WorkerEvent.message) (.free false) := by
  obtain ⟨events, run, hclaims, -⟩ := shipper_run
  exact ⟨events, hclaims, worker_refines_protocol run⟩

/-- The handler may end so, or there is none. -/
def HandledAs (handlers : Handlers) (step : WorkflowStepExecution) : Option Outcome → Prop
  | some outcome => ∃ handler, find handlers step.stepName = some handler ∧ handler step outcome
  | none => find handlers step.stepName = none

/-- A step, and how its handler ended if it has one. -/
abbrev Handling := WorkflowStepExecution × Option Outcome

def Handling.ending (h : Handling) : Option (WorkflowStepExecution × Outcome) :=
  h.2.map fun outcome => (h.1, outcome)

def Reports (handlers : Handlers) (workerId : String) (h : Handling) (request : Request) : Prop :=
  HandledAs handlers h.1 h.2 ∧ request = reportRequest workerId h.1 h.2

def Protocol.unreported : Protocol → List WorkflowStepExecution
  | .holding step _ _ => [step]
  | _ => []

def Protocol.ended : Protocol → List (WorkflowStepExecution × Outcome)
  | .holding step (.ended outcome) _ => [(step, outcome)]
  | _ => []

def Protocol.Handled (handlers : Handlers) : Protocol → Prop
  | .holding step (.ended outcome) _ => HandledAs handlers step (some outcome)
  | _ => True

theorem report_reportRequest (config : Config) (step : WorkflowStepExecution)
    (outcome : Option Outcome) :
    Message.report (.sends (reportRequest config.workerId step outcome)) =
      some (reportRequest config.workerId step outcome) := by
  cases outcome with
  | none => rfl
  | some outcome => cases outcome <;> rfl

theorem claim_pollRequest (config : Config) (reply : Option (Except Exception Transport.Response)) :
    Message.claim (.receives config.pollRequest reply) = polledStep reply := rfl

/-- What has been reported leaves the claims and the endings that are still held. -/
structure Accounts (config : Config) (claims : List WorkflowStepExecution)
    (endings : List (WorkflowStepExecution × Outcome)) (reports : List Request)
    (reported : List Handling) (p : Protocol) : Prop where
  claims : claims = reported.map Prod.fst ++ p.unreported
  endings : endings = reported.filterMap Handling.ending ++ p.ended
  reports : List.Forall₂ (Reports config.handlers config.workerId) reported reports

theorem Protocol.Step.accounts {p p' : Protocol} {m : Message} (h : p.Step config m p')
    (handled : p.Handled config.handlers) : p'.Handled config.handlers ∧
      ∃ reported, Accounts config (p.unreported ++ m.claim.toList) (p.ended ++ m.ending.toList)
        m.report.toList reported p' := by
  cases h with
  | poll => exact ⟨trivial, [], rfl, rfl, .nil⟩
  | nothing h => exact ⟨trivial, [], by simp [claim_pollRequest, h, unreported], rfl, .nil⟩
  | claim h => exact ⟨trivial, [], by simp [claim_pollRequest, h, unreported], rfl, .nil⟩
  | begins h => exact ⟨trivial, [], rfl, rfl, .nil⟩
  | @ping step handler progress called =>
    cases progress with
    | ended outcome => exact ⟨handled, [], rfl, rfl, .nil⟩
    | _ => exact ⟨trivial, [], rfl, rfl, .nil⟩
  | @pinged step progress reply =>
    cases progress with
    | ended outcome => exact ⟨handled, [], rfl, rfl, .nil⟩
    | _ => exact ⟨trivial, [], rfl, rfl, .nil⟩
  | ends h ends => exact ⟨⟨_, h, ends⟩, [], rfl, rfl, .nil⟩
  | @report step outcome =>
    refine ⟨trivial, [(step, some outcome)], rfl, rfl, ?_⟩
    rw [report_reportRequest]
    exact .cons ⟨handled, rfl⟩ .nil
  | @unhandled step h =>
    refine ⟨trivial, [(step, none)], rfl, rfl, ?_⟩
    rw [report_reportRequest]
    exact .cons ⟨h, rfl⟩ .nil
  | @reported step outcome reply =>
    refine ⟨trivial, [], ?_, rfl, .nil⟩
    cases outcome with
    | none => rfl
    | some outcome => cases outcome <;> rfl

theorem accounts_of_run {ms : List Message} {p : Protocol}
    (run : Run (Protocol.Step config) (.free false) ms p) : p.Handled config.handlers ∧
      ∃ reported, Accounts config (ms.filterMap Message.claim) (ms.filterMap Message.ending)
        (ms.filterMap Message.report) reported p := by
  induction run with
  | nil => exact ⟨trivial, [], rfl, rfl, .nil⟩
  | snoc _ last ih =>
    obtain ⟨handled, reported, hclaims, hendings, hreports⟩ := ih
    obtain ⟨handled', more, hmore, hmore', hmore''⟩ := last.accounts handled
    refine ⟨handled', reported ++ more, ?_, ?_, ?_⟩
    · rw [filterMap_concat, hclaims, List.append_assoc, hmore, List.map_append, List.append_assoc]
    · rw [filterMap_concat, hendings, List.append_assoc, hmore', List.filterMap_append,
        List.append_assoc]
    · rw [filterMap_concat]
      exact List.rel_append hreports hmore''

theorem Step.joined {e : WorkerEvent} (h : Step config worker e worker')
    (joined : worker.stop = .returned → worker.thread = .done) :
    worker'.stop = .returned → worker'.thread = .done := by
  intro hstop
  cases h with
  | thread h =>
    rw [joined hstop] at h
    cases h
  | stop => cases hstop
  | join _ hdone => exact hdone

theorem Protocol.ended_prefix (p : Protocol) : p.ended.map Prod.fst <+: p.unreported := by
  cases p with
  | holding step progress pinging =>
    cases progress with
    | ended outcome => exact List.prefix_rfl
    | _ => exact List.nil_prefix
  | _ => exact List.prefix_rfl

/-- Each claim is reported at most once, in the order of the claims and as its handler ended. All
but the last have been reported at any time, and all when `stop` has returned. -/
theorem claims_reported_in_order (run : Run (Step config) start events worker) :
    ∃ reported rest last, claims events = reported.map Prod.fst ++ rest ∧ rest.length ≤ 1 ∧
      List.Forall₂ (Reports config.handlers config.workerId) reported (reports events) ∧
      endings events = reported.filterMap Handling.ending ++ last ∧ last.map Prod.fst <+: rest ∧
      (worker.stop = .returned → rest = []) := by
  obtain ⟨-, reported, hclaims, hendings, hreports⟩ := accounts_of_run (worker_refines_protocol run)
  refine ⟨reported, worker.thread.protocol.unreported, worker.thread.protocol.ended, hclaims, ?_,
    hreports, hendings, Protocol.ended_prefix _, ?_⟩
  · cases worker.thread.protocol <;> simp [Protocol.unreported]
  · intro hstop
    have hdone := run.invariant (I := fun worker => worker.stop = .returned → worker.thread = .done)
      (fun _ _ _ joined h => h.joined joined) (by simp [start]) hstop
    rw [hdone]
    rfl

theorem claims_reported_in_order_shipped : ∃ events reported rest last, claims events = [shipment] ∧
    claims events = reported.map Prod.fst ++ rest ∧ rest.length ≤ 1 ∧
    List.Forall₂ (Reports shipper.handlers shipper.workerId) reported (reports events) ∧
    endings events = reported.filterMap Handling.ending ++ last ∧ last.map Prod.fst <+: rest ∧
    rest = [] := by
  obtain ⟨events, run, hclaims, -⟩ := shipper_run
  obtain ⟨reported, rest, last, heq, hlength, hreports, hendings, hlast, hrest⟩ :=
    claims_reported_in_order run
  exact ⟨events, reported, rest, last, hclaims, heq, hlength, hreports, hendings, hlast, hrest rfl⟩

def Terminating (handlers : Handlers) : Prop :=
  ∀ stepName handler, find handlers stepName = some handler → ∀ step, ∃ outcome, handler step outcome

/-- How many claims a worker that is stopping may still take on. -/
def Thread.claimsLeft : Thread → ℕ
  | .polling _ => 1
  | _ => 0

def WorkerEvent.claims (e : WorkerEvent) : ℕ := (e.message.bind Message.claim).toList.length

theorem polled_of_stage {handlers : Handlers} {workerId : String} {stage stage' : Stage}
    {e : StageEvent} (h : ExecuteStep.Step handlers workerId stage e stage') :
    (StageEvent.message e).bind Message.polled = none := by
  have hkeep : ∀ {step : WorkflowStepExecution} {done : Bool} {k k' : KeepAlive} {e : StageEvent},
      k.Step (keepAliveRequest workerId step) done e k' →
        (StageEvent.message e).bind Message.polled = none := by
    intro step done k k' e h
    cases h with
    | call h => cases h <;> rfl
    | pinged h => cases h <;> rfl
    | _ => rfl
  cases h with
  | pingCalling h => exact hkeep h
  | pingHandling h => exact hkeep h
  | pingClosing h => exact hkeep h
  | pingJoining h => exact hkeep h
  | @report step outcome call call' e h =>
    cases outcome with
    | none => cases h <;> rfl
    | some outcome => cases outcome <;> cases h <;> rfl
  | @reported step outcome call e h =>
    cases outcome with
    | none => cases h <;> rfl
    | some outcome => cases outcome <;> cases h <;> rfl
  | _ => rfl

theorem claim_of_stage {stage stage' : Stage} {e : StageEvent}
    (h : ExecuteStep.Step config.handlers config.workerId stage e stage') :
    (StageEvent.message e).bind Message.claim = none := by
  have hpolled := polled_of_stage h
  rw [Option.bind_eq_none_iff] at hpolled ⊢
  intro m hm
  rw [Message.claim, hpolled m hm]
  rfl

theorem Thread.Step.claimsLeft {thread thread' : Thread} {e : StageEvent}
    (h : thread.Step config true e thread') :
    ((StageEvent.message e).bind Message.claim).toList.length + thread'.claimsLeft ≤
      thread.claimsLeft := by
  cases h with
  | poll h => cases h
  | call h => cases h <;> exact Nat.le_refl _
  | claimed h found => simp [StageEvent.message, claim_pollRequest, found, Thread.claimsLeft]
  | nothing h none => simp [StageEvent.message, claim_pollRequest, none, Thread.claimsLeft]
  | execute h => simp [claim_of_stage h, Thread.claimsLeft]
  | _ => exact Nat.le_refl _

theorem Step.claimsLeft {e : WorkerEvent} (stopping : worker.stopping = true)
    (h : Step config worker e worker') : worker'.stopping = true ∧
      e.claims + worker'.thread.claimsLeft ≤ worker.thread.claimsLeft := by
  cases h with
  | thread h =>
    rw [stopping] at h
    exact ⟨stopping, h.claimsLeft⟩
  | stop => exact ⟨rfl, Nat.le_of_eq (Nat.zero_add _)⟩
  | join => exact ⟨stopping, Nat.le_of_eq (Nat.zero_add _)⟩

theorem shipper_terminating : Terminating shipper.handlers := by
  intro stepName handler hfind step
  have hlookup : (if stepName = "ship" then some fun (_ : WorkflowStepExecution) (outcome : Outcome) =>
      outcome = .returned (.object []) else none) = some handler := by
    rw [← hfind]
    exact (OrderedMap.lookup_set (m := [])).symm
  split_ifs at hlookup
  obtain rfl := Option.some_inj.mp hlookup
  exact ⟨_, rfl⟩

theorem canReach_looping {ping : Request} {done : Bool} (k : KeepAlive) (h : k ≠ .exited) :
    CanReach (KeepAlive.Step ping done) (· = .looping) k := by
  have hlooping : CanReach (KeepAlive.Step ping done) (· = .looping) .looping := .here rfl
  have hsent : CanReach (KeepAlive.Step ping done) (· = .looping) (.pinging .sent) :=
    .cons (.pinged .fail) hlooping
  have hwanted : CanReach (KeepAlive.Step ping done) (· = .looping) (.pinging .wanted) :=
    .cons (.call .enter) hsent
  have hwoken : CanReach (KeepAlive.Step ping done) (· = .looping) .woken := by
    cases done with
    | false => exact .cons (.ping rfl) hwanted
    | true => exact .cons (.skip rfl) hlooping
  cases k with
  | starting => exact .cons .lock hlooping
  | looping => exact hlooping
  | waiting => exact .cons .wake hwoken
  | woken => exact hwoken
  | pinging call =>
    cases call with
    | wanted => exact hwanted
    | sent => exact hsent
    | served reply => exact .cons (.pinged (.lose reply)) hlooping
  | exited => exact absurd rfl h

theorem canReach_unlocked {ping : Request} (k : KeepAlive) :
    CanReach (KeepAlive.Step ping false) (fun k => ¬ k.Locked) k := by
  by_cases h : k = .exited
  · exact .here (by simp [h, KeepAlive.Locked])
  · refine (canReach_looping k h).trans ?_
    rintro _ rfl
    exact .cons (.wait rfl) (.here (by simp [KeepAlive.Locked]))

theorem canReach_exited {ping : Request} (k : KeepAlive) :
    CanReach (KeepAlive.Step ping true) (· = .exited) k := by
  by_cases h : k = .exited
  · exact .here h
  · refine (canReach_looping k h).trans ?_
    rintro _ rfl
    exact .cons (.exit rfl) (.here rfl)

def IsReturned (stage : Stage) : Prop := ∃ step, stage = .returned step

theorem canReach_returned (terminating : Terminating config.handlers) {stage : Stage}
    (registered : Registered config.handlers stage) :
    CanReach (ExecuteStep.Step config.handlers config.workerId) IsReturned stage := by
  have hreturned : ∀ step, CanReach (ExecuteStep.Step config.handlers config.workerId) IsReturned
      (.returned step) := fun step => .here ⟨step, rfl⟩
  have hsent : ∀ step outcome, CanReach (ExecuteStep.Step config.handlers config.workerId) IsReturned
      (.reporting step outcome .sent) := fun step outcome => .cons (.reported .fail) (hreturned step)
  have hwanted : ∀ step outcome, CanReach (ExecuteStep.Step config.handlers config.workerId) IsReturned
      (.reporting step outcome .wanted) := fun step outcome => .cons (.report .enter) (hsent _ _)
  have hjoining : ∀ step outcome k, CanReach (ExecuteStep.Step config.handlers config.workerId)
      IsReturned (.joining step outcome k) := by
    intro step outcome k
    refine ((canReach_exited k).embed (Stage.joining step outcome) id
      (fun _ _ _ h => .pingJoining h)).trans ?_
    rintro _ ⟨_, rfl, rfl⟩
    exact .cons .join (hwanted _ _)
  have hclosing : ∀ step outcome k, CanReach (ExecuteStep.Step config.handlers config.workerId)
      IsReturned (.closing step outcome k) := by
    intro step outcome k
    refine ((canReach_unlocked k).embed (Stage.closing step outcome) id
      (fun _ _ _ h => .pingClosing h)).trans ?_
    rintro _ ⟨_, hunlocked, rfl⟩
    exact .cons (.close hunlocked) (hjoining _ _ _)
  have hhandling : ∀ step k handler, find config.handlers step.stepName = some handler →
      CanReach (ExecuteStep.Step config.handlers config.workerId) IsReturned (.handling step k) := by
    intro step k handler hhandler
    obtain ⟨outcome, houtcome⟩ := terminating _ _ hhandler step
    exact .cons (.finish hhandler houtcome) (hclosing _ _ _)
  have hcalling : ∀ step k handler, find config.handlers step.stepName = some handler →
      CanReach (ExecuteStep.Step config.handlers config.workerId) IsReturned (.calling step k) :=
    fun step k handler hhandler => .cons (.handle hhandler) (hhandling step k handler hhandler)
  cases stage with
  | entered step =>
    cases hfind : find config.handlers step.stepName with
    | none => exact .cons (.unhandled hfind) (hwanted _ _)
    | some handler => exact .cons (.construct hfind) (hcalling _ _ _ hfind)
  | calling step k =>
    obtain ⟨handler, hhandler⟩ := registered
    exact hcalling step k handler hhandler
  | handling step k =>
    obtain ⟨handler, hhandler⟩ := registered
    exact hhandling step k handler hhandler
  | closing step outcome k => exact hclosing step outcome k
  | joining step outcome k => exact hjoining step outcome k
  | reporting step outcome call =>
    cases call with
    | wanted => exact hwanted _ _
    | sent => exact hsent _ _
    | served reply => exact .cons (.reported (.lose reply)) (hreturned step)
  | returned step => exact hreturned step

theorem canReach_done (terminating : Terminating config.handlers) (worker : Worker)
    (valid : worker.thread.Valid config) (stopping : worker.stopping = true) :
    CanReach (Step config) (fun w => w.thread = .done ∧ w.stop = worker.stop) worker := by
  obtain ⟨thread, stopping', stop⟩ := worker
  obtain rfl : stopping' = true := stopping
  have hdone : CanReach (Step config) (fun w => w.thread = .done ∧ w.stop = stop)
      ⟨.done, true, stop⟩ := .here ⟨rfl, rfl⟩
  have hlooping : CanReach (Step config) (fun w => w.thread = .done ∧ w.stop = stop)
      ⟨.looping, true, stop⟩ := .cons (.thread (.leave rfl)) hdone
  have hwaiting : CanReach (Step config) (fun w => w.thread = .done ∧ w.stop = stop)
      ⟨.waiting, true, stop⟩ := .cons (.thread .wake) hlooping
  have hsent : CanReach (Step config) (fun w => w.thread = .done ∧ w.stop = stop)
      ⟨.polling .sent, true, stop⟩ := .cons (.thread (.nothing .fail rfl)) hwaiting
  cases thread with
  | looping => exact hlooping
  | polling call =>
    cases call with
    | wanted => exact .cons (.thread (.call .enter)) hsent
    | sent => exact hsent
    | served reply => exact .cons (.thread (.nothing (.lose reply) rfl)) hwaiting
  | executing stage =>
    refine ((canReach_returned terminating valid).embed
      (fun stage => (⟨.executing stage, true, stop⟩ : Worker)) WorkerEvent.thread
      (fun _ _ _ h => .thread (.execute h))).trans ?_
    rintro _ ⟨_, ⟨step, rfl⟩, rfl⟩
    exact .cons (.thread .again) hlooping
  | waiting => exact hwaiting
  | done => exact hdone

theorem Step.stopping {e : WorkerEvent} (h : Step config worker e worker')
    (stopping : worker.stop ≠ .notCalled → worker.stopping = true) :
    worker'.stop ≠ .notCalled → worker'.stopping = true := by
  cases h with
  | thread h => exact stopping
  | stop => exact fun _ => rfl
  | join hstop => exact fun _ => stopping (by simp [hstop])

/-- A call of `stop` can always return if handlers can end, and from the call on at most one more
step is claimed. -/
theorem stop_returns (terminating : Terminating config.handlers)
    (run : Run (Step config) start events worker) :
    (worker.stop = .joining → CanReach (Step config) (fun w => w.stop = .returned) worker) ∧
    ∀ before after, events = before ++ .stop :: after → (claims after).length ≤ 1 := by
  refine ⟨fun hstop => ?_, ?_⟩
  · have hvalid : worker.thread.Valid config :=
      run.invariant (I := fun worker => worker.thread.Valid config)
        (fun _ _ _ valid h => (h.seen valid).1) trivial
    have hstopping := run.invariant
      (I := fun worker => worker.stop ≠ .notCalled → worker.stopping = true)
      (fun _ _ _ stopping h => h.stopping stopping) (by simp [start]) (by simp [hstop])
    refine (canReach_done terminating worker hvalid hstopping).trans ?_
    rintro w ⟨hdone, hw⟩
    exact .cons (.join (hw.trans hstop) hdone) (.here rfl)
  · rintro before after rfl
    obtain ⟨w, hbefore, hrest⟩ := run.append_inv
    obtain ⟨w', hstop, hafter⟩ := hrest.cons_inv
    have hstopping : w'.stopping = true := by
      cases hstop
      rfl
    obtain ⟨-, hbudget⟩ := hafter.budget (I := fun worker => worker.stopping = true)
      WorkerEvent.claims (fun worker => worker.thread.claimsLeft)
      (fun _ _ _ stopping h => h.claimsLeft stopping) hstopping
    have hclaims : (claims after).length = (after.map WorkerEvent.claims).sum := by
      rw [claims, List.filterMap_filterMap]
      exact length_filterMap _ _
    have hleft : w'.thread.claimsLeft ≤ 1 := by cases w'.thread <;> simp [Thread.claimsLeft]
    omega

theorem stop_returns_polling :
    (CanReach (Step shipper) (fun w => w.stop = .returned) ⟨.polling .wanted, true, .joining⟩) ∧
    ∀ before after, [WorkerEvent.thread .internal, .stop] = before ++ .stop :: after →
      (claims after).length ≤ 1 := by
  have run : Run (Step shipper) start [WorkerEvent.thread .internal, .stop]
      ⟨.polling .wanted, true, .joining⟩ := .cons (.thread (.poll rfl)) (.cons (.stop rfl) .nil)
  obtain ⟨hreturns, hclaims⟩ := stop_returns shipper_terminating run
  exact ⟨hreturns rfl, hclaims⟩

end Worker
end WorkflowEngine
