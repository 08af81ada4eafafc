import WorkflowEngine.Client
import WorkflowEngine.Containers.OrderedMap
import WorkflowEngine.Systems.Run

/-!
# Executing a claimed step

`executeStep` of the worker and of the pool, and the thread that renews the
claim while the handler runs. A step of the system is one section under the
mutex of the keep-alive thread, the call or the end of a handler, or a part of
a client call. A call that ends may have been answered, may have failed before
it was served, and may have been served though its answer was lost; it is not
served after it has ended. A keep-alive thread can be created.
-/

namespace WorkflowEngine
namespace ExecuteStep
open Transport (Request)

/-- How a handler ends: `std::exception` has a text, other exceptions have none. -/
inductive Outcome where
  | returned (output : Json)
  | threw (what : String)
  | threwUnknown
  deriving DecidableEq

abbrev StepHandler := WorkflowStepExecution → Outcome → Prop

abbrev Handlers := List (String × StepHandler)

/-- `handlers[stepName] = handler` -/
def registerStep (handlers : Handlers) (stepName : String) (handler : StepHandler) : Handlers :=
  OrderedMap.set handlers stepName handler

def find (handlers : Handlers) (stepName : String) : Option StepHandler :=
  OrderedMap.lookup handlers stepName

def keepAliveRequest (workerId : String) (step : WorkflowStepExecution) : Request :=
  .keepAliveWorkflowStep step.workflowExecutionId step.stepName workerId

def failRequest (workerId : String) (step : WorkflowStepExecution) (reason : String) : Request :=
  .failWorkflowStep step.workflowExecutionId step.stepName workerId reason

def unhandledRequest (workerId : String) (step : WorkflowStepExecution) : Request :=
  failRequest workerId step ("no handler registered for step: " ++ step.stepName)

def resultRequest (workerId : String) (step : WorkflowStepExecution) : Outcome → Request
  | .returned output =>
    .completeWorkflowStep step.workflowExecutionId step.stepName workerId output none
  | .threw what => failRequest workerId step what
  | .threwUnknown => failRequest workerId step "unknown error in step handler"

def reportRequest (workerId : String) (step : WorkflowStepExecution) : Option Outcome → Request
  | some outcome => resultRequest workerId step outcome
  | none => unhandledRequest workerId step

inductive ClientCall where
  | wanted
  | sent
  | served (reply : Except Exception Transport.Response)

/-- A call that ends without a reply throws. -/
inductive CallEvent where
  | enter
  | serve (reply : Except Exception Transport.Response)
  | leave (reply : Option (Except Exception Transport.Response))

/-- The parts of a call. Nothing is left of it when it has ended. -/
inductive ClientCall.Step : ClientCall → CallEvent → Option ClientCall → Prop
  | enter : Step .wanted .enter (some .sent)
  | serve (reply : Except Exception Transport.Response) :
      Step .sent (.serve reply) (some (.served reply))
  | fail : Step .sent (.leave none) none
  | answer (reply : Except Exception Transport.Response) :
      Step (.served reply) (.leave (some reply)) none
  | lose (reply : Except Exception Transport.Response) : Step (.served reply) (.leave none) none

inductive StageEvent where
  | internal
  | begins (step : WorkflowStepExecution)
  | ends (step : WorkflowStepExecution) (outcome : Outcome)
  | call (request : Request) (e : CallEvent)

inductive KeepAlive where
  | starting
  /-- At `while (!done)`. -/
  | looping
  | waiting
  /-- At `if (!done)`. -/
  | woken
  | pinging (call : ClientCall)
  | exited

/-- The thread has the mutex: it gives it up only while it waits. -/
def KeepAlive.Locked : KeepAlive → Prop
  | .looping | .woken | .pinging _ => True
  | _ => False

inductive KeepAlive.Step (ping : Request) (done : Bool) : KeepAlive → StageEvent → KeepAlive → Prop
  | lock : Step ping done .starting .internal .looping
  | wait (h : done = false) : Step ping done .looping .internal .waiting
  | exit (h : done = true) : Step ping done .looping .internal .exited
  | wake : Step ping done .waiting .internal .woken
  | ping (h : done = false) : Step ping done .woken .internal (.pinging .wanted)
  | skip (h : done = true) : Step ping done .woken .internal .looping
  | call {call call' : ClientCall} {e : CallEvent} (h : call.Step e (some call')) :
      Step ping done (.pinging call) (.call ping e) (.pinging call')
  | pinged {call : ClientCall} {e : CallEvent} (h : call.Step e none) :
      Step ping done (.pinging call) (.call ping e) .looping

inductive Stage where
  | entered (step : WorkflowStepExecution)
  /-- The `KeepAliveThread` is constructed and its thread runs. -/
  | calling (step : WorkflowStepExecution) (keepAlive : KeepAlive)
  | handling (step : WorkflowStepExecution) (keepAlive : KeepAlive)
  /-- The destructor of the `KeepAliveThread` is at its lock. -/
  | closing (step : WorkflowStepExecution) (outcome : Outcome) (keepAlive : KeepAlive)
  /-- `done` is set and the destructor joins the thread. -/
  | joining (step : WorkflowStepExecution) (outcome : Outcome) (keepAlive : KeepAlive)
  | reporting (step : WorkflowStepExecution) (outcome : Option Outcome) (call : ClientCall)
  | returned (step : WorkflowStepExecution)

inductive Step (handlers : Handlers) (workerId : String) : Stage → StageEvent → Stage → Prop
  | unhandled {step : WorkflowStepExecution} (h : find handlers step.stepName = none) :
      Step handlers workerId (.entered step) .internal
        (.reporting step none .wanted)
  | construct {step : WorkflowStepExecution} {handler : StepHandler}
      (h : find handlers step.stepName = some handler) :
      Step handlers workerId (.entered step) .internal (.calling step .starting)
  | handle {step : WorkflowStepExecution} {handler : StepHandler} {keepAlive : KeepAlive}
      (h : find handlers step.stepName = some handler) :
      Step handlers workerId (.calling step keepAlive) (.begins step) (.handling step keepAlive)
  | finish {step : WorkflowStepExecution} {handler : StepHandler} {outcome : Outcome}
      {keepAlive : KeepAlive} (h : find handlers step.stepName = some handler)
      (ends : handler step outcome) :
      Step handlers workerId (.handling step keepAlive) (.ends step outcome)
        (.closing step outcome keepAlive)
  | close {step : WorkflowStepExecution} {outcome : Outcome} {keepAlive : KeepAlive}
      (h : ¬ keepAlive.Locked) :
      Step handlers workerId (.closing step outcome keepAlive) .internal
        (.joining step outcome keepAlive)
  | join {step : WorkflowStepExecution} {outcome : Outcome} :
      Step handlers workerId (.joining step outcome .exited) .internal
        (.reporting step (some outcome) .wanted)
  | pingCalling {step : WorkflowStepExecution} {k k' : KeepAlive} {e : StageEvent}
      (h : k.Step (keepAliveRequest workerId step) false e k') :
      Step handlers workerId (.calling step k) e (.calling step k')
  | pingHandling {step : WorkflowStepExecution} {k k' : KeepAlive} {e : StageEvent}
      (h : k.Step (keepAliveRequest workerId step) false e k') :
      Step handlers workerId (.handling step k) e (.handling step k')
  | pingClosing {step : WorkflowStepExecution} {outcome : Outcome} {k k' : KeepAlive} {e : StageEvent}
      (h : k.Step (keepAliveRequest workerId step) false e k') :
      Step handlers workerId (.closing step outcome k) e (.closing step outcome k')
  | pingJoining {step : WorkflowStepExecution} {outcome : Outcome} {k k' : KeepAlive} {e : StageEvent}
      (h : k.Step (keepAliveRequest workerId step) true e k') :
      Step handlers workerId (.joining step outcome k) e (.joining step outcome k')
  | report {step : WorkflowStepExecution} {outcome : Option Outcome} {call call' : ClientCall}
      {e : CallEvent} (h : call.Step e (some call')) :
      Step handlers workerId (.reporting step outcome call)
        (.call (reportRequest workerId step outcome) e) (.reporting step outcome call')
  | reported {step : WorkflowStepExecution} {outcome : Option Outcome} {call : ClientCall}
      {e : CallEvent} (h : call.Step e none) :
      Step handlers workerId (.reporting step outcome call)
        (.call (reportRequest workerId step outcome) e) (.returned step)

end ExecuteStep
end WorkflowEngine
