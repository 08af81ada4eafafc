import WorkflowEngine.Worker
import WorkflowEngine.WorkerPool

/-!
# The pool and its client

The pool with the parts of its client calls and of `executeStep`. Pollers,
executors and their keep-alive threads call one client under the client mutex,
which is held from the beginning of a call to its end. Without the calls this
is the pool: what takes one step there takes many here.
-/

namespace WorkflowEngine
namespace ClientPool
open Systems ExecuteStep
open Transport (Request)
open WorkerPool (Shared Poller PollerEvent PollerStep Executor ExecutorEvent Stop)

structure Config where
  pool : WorkerPool.Config
  handlers : Handlers

structure Common where
  shared : Shared
  /-- `clientMutex` is locked. -/
  locked : Bool := false

def pollRequest (request : WorkerPool.PollAndClaimWorkflowStepsRequest) : Request :=
  .pollAndClaimWorkflowSteps request.workflowName request.workflowVersion request.workerId
    (.ofNat request.maxResults)

def polledSteps : Option (Except Exception Transport.Response) → Option (List WorkflowStepExecution)
  | some (.ok (.steps steps)) => some steps
  | _ => none

/-- A call locks the client mutex before it is made and unlocks it when it has ended. -/
inductive Guards : Bool → CallEvent → Bool → Prop
  | enter : Guards false .enter true
  | serve (locked : Bool) (reply : Except Exception Transport.Response) :
      Guards locked (.serve reply) locked
  | leave (locked : Bool) (reply : Option (Except Exception Transport.Response)) :
      Guards locked (.leave reply) false

inductive EventGuards : Bool → StageEvent → Bool → Prop
  | internal (locked : Bool) : EventGuards locked .internal locked
  | begins (locked : Bool) (step : WorkflowStepExecution) : EventGuards locked (.begins step) locked
  | ends (locked : Bool) (step : WorkflowStepExecution) (outcome : Outcome) :
      EventGuards locked (.ends step outcome) locked
  | call {locked locked' : Bool} {request : Request} {e : CallEvent} (h : Guards locked e locked') :
      EventGuards locked (.call request e) locked'

structure PollerThread where
  poller : Poller
  /-- The client call of a poller that polls. -/
  call : ClientCall := .wanted

inductive PollerThread.Event where
  | own (e : PollerEvent)
  | call (request : WorkerPool.PollAndClaimWorkflowStepsRequest) (e : CallEvent)

def IsPolling : Poller → Prop
  | .polling _ _ _ => True
  | _ => False

inductive PollerThread.Step (config : WorkerPool.Config) (pollerIndex : ℕ) :
    Common → PollerThread → PollerThread.Event → Common → PollerThread → Prop
  | own {s s' : Shared} {locked : Bool} {p p' : Poller} {call : ClientCall} {e : PollerEvent}
      (h : PollerStep config pollerIndex s p e s' p') (own : ¬ IsPolling p) :
      Step config pollerIndex ⟨s, locked⟩ ⟨p, call⟩ (.own e) ⟨s', locked⟩ ⟨p', .wanted⟩
  | call {s : Shared} {locked locked' : Bool} {foundWork : Bool} {rest : List ℕ}
      {request : WorkerPool.PollAndClaimWorkflowStepsRequest} {call call' : ClientCall} {e : CallEvent}
      (h : call.Step e (some call')) (guards : Guards locked e locked') :
      Step config pollerIndex ⟨s, locked⟩ ⟨.polling foundWork rest request, call⟩ (.call request e)
        ⟨s, locked'⟩ ⟨.polling foundWork rest request, call'⟩
  | answer {s s' : Shared} {locked locked' : Bool} {foundWork : Bool} {rest : List ℕ}
      {request : WorkerPool.PollAndClaimWorkflowStepsRequest} {call : ClientCall}
      {reply : Option (Except Exception Transport.Response)} {steps : List WorkflowStepExecution}
      {p' : Poller} (h : call.Step (.leave reply) none) (guards : Guards locked (.leave reply) locked')
      (answered : polledSteps reply = some steps)
      (step : PollerStep config pollerIndex s (.polling foundWork rest request)
        (.answer request steps) s' p') :
      Step config pollerIndex ⟨s, locked⟩ ⟨.polling foundWork rest request, call⟩
        (.call request (.leave reply)) ⟨s', locked'⟩ ⟨p', .wanted⟩
  | throws {s s' : Shared} {locked locked' : Bool} {foundWork : Bool} {rest : List ℕ}
      {request : WorkerPool.PollAndClaimWorkflowStepsRequest} {call : ClientCall}
      {reply : Option (Except Exception Transport.Response)} {p' : Poller}
      (h : call.Step (.leave reply) none) (guards : Guards locked (.leave reply) locked')
      (threw : polledSteps reply = none)
      (step : PollerStep config pollerIndex s (.polling foundWork rest request) .throws s' p') :
      Step config pollerIndex ⟨s, locked⟩ ⟨.polling foundWork rest request, call⟩
        (.call request (.leave reply)) ⟨s', locked'⟩ ⟨p', .wanted⟩

inductive ExecutorThread where
  | waiting
  | holding (step : WorkflowStepExecution)
  | executing (stage : Stage)
  | done

inductive ExecutorThread.Event where
  | own (e : ExecutorEvent)
  | stage (e : StageEvent)

def stageStep : Stage → WorkflowStepExecution
  | .entered step | .calling step _ | .handling step _ | .closing step _ _ | .joining step _ _
  | .reporting step _ _ | .returned step => step

inductive ExecutorThread.Step (config : Config) :
    ℕ → Common → ExecutorThread → ExecutorThread.Event → Common → ExecutorThread → Prop
  | take {i : ℕ} {s s' : Shared} {locked : Bool} {step : WorkflowStepExecution}
      (h : WorkerPool.ExecutorStep i s .waiting .take s' (.holding step)) :
      Step config i ⟨s, locked⟩ .waiting (.own .take) ⟨s', locked⟩ (.holding step)
  | leave {i : ℕ} {s s' : Shared} {locked : Bool}
      (h : WorkerPool.ExecutorStep i s .waiting .leave s' .done) :
      Step config i ⟨s, locked⟩ .waiting (.own .leave) ⟨s', locked⟩ .done
  | execute {i : ℕ} {s s' : Shared} {locked : Bool} {step : WorkflowStepExecution}
      (h : WorkerPool.ExecutorStep i s (.holding step) .execute s' (.executing step)) :
      Step config i ⟨s, locked⟩ (.holding step) (.own .execute) ⟨s', locked⟩
        (.executing (.entered step))
  | stage {i : ℕ} {s : Shared} {locked locked' : Bool} {stage stage' : Stage} {e : StageEvent}
      (h : ExecuteStep.Step config.handlers config.pool.workerId stage e stage')
      (guards : EventGuards locked e locked') :
      Step config i ⟨s, locked⟩ (.executing stage) (.stage e) ⟨s, locked'⟩ (.executing stage')
  | finish {i : ℕ} {s s' : Shared} {locked : Bool} {step : WorkflowStepExecution}
      (h : WorkerPool.ExecutorStep i s (.executing step) .finish s' .waiting) :
      Step config i ⟨s, locked⟩ (.executing (.returned step)) (.own .finish) ⟨s', locked⟩ .waiting

end ClientPool

structure ClientPool where
  common : ClientPool.Common
  pollers : List ClientPool.PollerThread
  executors : List ClientPool.ExecutorThread
  stop : WorkerPool.Stop := .notCalled

namespace ClientPool
open Systems ExecuteStep
open Transport (Request)
open WorkerPool (Shared Poller PollerEvent PollerStep Executor ExecutorEvent Stop)

inductive Event where
  | poller (i : ℕ) (e : PollerThread.Event)
  | executor (i : ℕ) (e : ExecutorThread.Event)
  | stop | joinPollers | joinExecutors

inductive Step (config : Config) : ClientPool → Event → ClientPool → Prop
  | poller {pool : ClientPool} {i : ℕ} {e : PollerThread.Event} {common : Common}
      {pollers : List PollerThread}
      (h : Moves (PollerThread.Step config.pool) pool.common pool.pollers i e common pollers) :
      Step config pool (.poller i e) { pool with common := common, pollers := pollers }
  | executor {pool : ClientPool} {i : ℕ} {e : ExecutorThread.Event} {common : Common}
      {executors : List ExecutorThread}
      (h : Moves (ExecutorThread.Step config) pool.common pool.executors i e common executors) :
      Step config pool (.executor i e) { pool with common := common, executors := executors }
  | stop {pool : ClientPool} (h : pool.stop = .notCalled) :
      Step config pool .stop { pool with
        common := { pool.common with shared := { pool.common.shared with stopping := true } }
        stop := .joiningPollers }
  | joinPollers {pool : ClientPool} (h : pool.stop = .joiningPollers)
      (hdone : ∀ p ∈ pool.pollers, p.poller = .done) :
      Step config pool .joinPollers { pool with stop := .joiningExecutors }
  | joinExecutors {pool : ClientPool} (h : pool.stop = .joiningExecutors)
      (hdone : ∀ x ∈ pool.executors, x = .done) :
      Step config pool .joinExecutors { pool with stop := .returned }

def start (config : Config) : ClientPool where
  common := { shared := (WorkerPool.start config.pool).shared }
  pollers := List.replicate config.pool.options.pollerCount { poller := .entry }
  executors := List.replicate config.pool.options.threadCount .waiting

def PollerThread.Event.pool : PollerThread.Event → Option PollerEvent
  | .own e => some e
  | .call request (.leave reply) =>
    some ((polledSteps reply).elim .throws fun steps => .answer request steps)
  | .call _ _ => none

def ExecutorThread.Event.pool : ExecutorThread.Event → Option ExecutorEvent
  | .own e => some e
  | .stage _ => none

def Event.pool : Event → Option WorkerPool.Event
  | .poller i e => e.pool.map (.poller i)
  | .executor i e => e.pool.map (.executor i)
  | .stop => some .stop
  | .joinPollers => some .joinPollers
  | .joinExecutors => some .joinExecutors

def ExecutorThread.executor : ExecutorThread → Executor
  | .waiting => .waiting
  | .holding step => .holding step
  | .executing stage => .executing (stageStep stage)
  | .done => .done

def pool (pool : ClientPool) : WorkerPool.Pool where
  shared := pool.common.shared
  pollers := pool.pollers.map PollerThread.poller
  executors := pool.executors.map ExecutorThread.executor
  stop := pool.stop

variable {config : Config} {pool pool' : ClientPool} {events : List Event} {i : ℕ} {c c' : Common}
  {p p' : PollerThread} {x x' : ExecutorThread}

theorem PollerThread.Step.hides {e : PollerThread.Event}
    (h : PollerThread.Step config.pool i c p e c' p') :
    (e.pool = none ∧ c'.shared = c.shared ∧ p'.poller = p.poller) ∨
      ∃ m, e.pool = some m ∧ PollerStep config.pool i c.shared p.poller m c'.shared p'.poller := by
  cases h with
  | own h own => exact .inr ⟨_, rfl, h⟩
  | call h guards =>
    cases h with
    | enter => exact .inl ⟨rfl, rfl, rfl⟩
    | serve reply => exact .inl ⟨rfl, rfl, rfl⟩
  | answer h guards answered step =>
    refine .inr ⟨_, rfl, ?_⟩
    rw [answered]
    exact step
  | throws h guards threw step =>
    refine .inr ⟨_, rfl, ?_⟩
    rw [threw]
    exact step

theorem stageStep_of_step {workerId : String} {handlers : Handlers} {stage stage' : Stage}
    {e : StageEvent} (h : ExecuteStep.Step handlers workerId stage e stage') :
    stageStep stage' = stageStep stage := by
  cases h <;> rfl

theorem ExecutorThread.Step.hides {e : ExecutorThread.Event}
    (h : ExecutorThread.Step config i c x e c' x') :
    (e.pool = none ∧ c'.shared = c.shared ∧ x'.executor = x.executor) ∨ ∃ m, e.pool = some m ∧
      WorkerPool.ExecutorStep i c.shared x.executor m c'.shared x'.executor := by
  cases h with
  | stage h guards => exact .inl ⟨rfl, rfl, congrArg Executor.executing (stageStep_of_step h)⟩
  | take h | leave h | execute h | finish h => exact .inr ⟨_, rfl, h⟩

theorem Step.hides {e : Event} (h : Step config pool e pool') :
    (e.pool = none ∧ pool'.pool = pool.pool) ∨
      ∃ m, e.pool = some m ∧ WorkerPool.Step config.pool pool.pool m pool'.pool := by
  cases h with
  | poller h =>
    rcases h.seen PollerThread.poller Common.shared PollerThread.Event.pool
      (fun _ _ h => h.hides) with ⟨hnone, hshared, hsame⟩ | ⟨m, hm, hmoves⟩
    · refine .inl ⟨by simp [Event.pool, hnone], ?_⟩
      simp only [ClientPool.pool, hshared, hsame]
    · exact .inr ⟨_, by simp [Event.pool, hm], .poller hmoves⟩
  | executor h =>
    rcases h.seen ExecutorThread.executor Common.shared ExecutorThread.Event.pool
      (fun _ _ h => h.hides) with ⟨hnone, hshared, hsame⟩ | ⟨m, hm, hmoves⟩
    · refine .inl ⟨by simp [Event.pool, hnone], ?_⟩
      simp only [ClientPool.pool, hshared, hsame]
    · exact .inr ⟨_, by simp [Event.pool, hm], .executor hmoves⟩
  | stop h => exact .inr ⟨_, rfl, .stop h⟩
  | joinPollers h hdone =>
    refine .inr ⟨_, rfl, .joinPollers h fun p hp => ?_⟩
    obtain ⟨thread, hthread, rfl⟩ := List.mem_map.mp hp
    exact hdone thread hthread
  | joinExecutors h hdone =>
    refine .inr ⟨_, rfl, .joinExecutors h fun x hx => ?_⟩
    obtain ⟨thread, hthread, rfl⟩ := List.mem_map.mp hx
    rw [hdone thread hthread]
    rfl

theorem start_pool (config : Config) : (start config).pool = WorkerPool.start config.pool := by
  simp [ClientPool.pool, start, WorkerPool.start, ExecutorThread.executor]

/-- The client calls and the executions of a pool are hidden from its slots and its queue. -/
theorem run_pool (run : Run (Step config) (start config) events pool) :
    Run (WorkerPool.Step config.pool) (WorkerPool.start config.pool) (events.filterMap Event.pool)
      pool.pool := by
  have hrun := (run.observe (I := fun _ => True) ClientPool.pool Event.pool
    (fun _ _ _ _ h => ⟨trivial, h.hides⟩) trivial).2
  rwa [start_pool] at hrun

def PollerThread.Event.message : PollerThread.Event → Option Worker.Message
  | .own _ => none
  | .call request e => Worker.StageEvent.message (.call (pollRequest request) e)

def ExecutorThread.Event.message : ExecutorThread.Event → Option Worker.Message
  | .own _ => none
  | .stage e => Worker.StageEvent.message e

def Event.message : Event → Option Worker.Message
  | .poller _ e => e.message
  | .executor _ e => e.message
  | .stop | .joinPollers | .joinExecutors => none

def messageClaims (m : Worker.Message) : List WorkflowStepExecution :=
  (m.polled.bind polledSteps).getD []

def claims (events : List Event) : List WorkflowStepExecution :=
  (events.filterMap Event.message).flatMap messageClaims

def reports (events : List Event) : List Request :=
  (events.filterMap Event.message).filterMap Worker.Message.report

def endings (events : List Event) : List (WorkflowStepExecution × Outcome) :=
  (events.filterMap Event.message).filterMap Worker.Message.ending

def single : Config where
  pool := WorkerPool.single
  handlers := Worker.shipper.handlers

def completed : Request := .completeWorkflowStep "id" "ship" "pool" (.object []) none

theorem single_run : ∃ events pool, Run (Step single) (start single) events pool ∧
    claims events = [WorkerPool.claimedStep] ∧ reports events = [completed] ∧
    pool.stop = .returned := by
  refine ⟨_, _, .cons (.poller (.mk [] [] (.own .enter id))) <|
    .cons (.poller (.mk [] [] (.own (@PollerStep.begin _ 0 _ [0] rfl (.refl _)) id))) <|
    .cons (.poller (.mk [] [] (.own (.proceed rfl) id))) <|
    .cons (.poller (.mk [] [] (.own
      (@PollerStep.take _ 0 _ _ _ _ ⟨"orders", 1⟩ rfl (by decide)) id))) <|
    .cons (.poller (.mk [] [] (.call .enter .enter))) <|
    .cons (.poller (.mk [] [] (.call (.serve (.ok (.steps [WorkerPool.claimedStep]))) (.serve _ _)))) <|
    .cons (.poller (.mk [] [] (.answer (.answer _) (.leave _ _) rfl .answer))) <|
    .cons (.poller (.mk [] [] (.own .deliver id))) <|
    .cons (.executor (.mk [] [] (.take (.take rfl)))) <|
    .cons (.executor (.mk [] [] (.execute .execute))) <|
    .cons (.executor (.mk [] [] (.stage (.construct rfl) (.internal _)))) <|
    .cons (.executor (.mk [] [] (.stage (.pingCalling .lock) (.internal _)))) <|
    .cons (.executor (.mk [] [] (.stage (.handle rfl) (.begins _ _)))) <|
    .cons (.executor (.mk [] [] (.stage (.pingHandling (.wait rfl)) (.internal _)))) <|
    .cons (.executor (.mk [] [] (.stage (.pingHandling .wake) (.internal _)))) <|
    .cons (.executor (.mk [] [] (.stage (.pingHandling (.ping rfl)) (.internal _)))) <|
    .cons (.executor (.mk [] [] (.stage (.pingHandling (.call .enter)) (.call .enter)))) <|
    .cons (.executor (.mk [] [] (.stage
      (@ExecuteStep.Step.finish _ _ _ _ (.returned (.object [])) _ rfl rfl) (.ends _ _ _)))) <|
    .cons (.executor (.mk [] [] (.stage (.pingClosing (.pinged .fail)) (.call (.leave _ _))))) <|
    .cons (.executor (.mk [] [] (.stage (.pingClosing (.wait rfl)) (.internal _)))) <|
    .cons (.executor (.mk [] [] (.stage (.close (by simp [KeepAlive.Locked])) (.internal _)))) <|
    .cons (.executor (.mk [] [] (.stage (.pingJoining .wake) (.internal _)))) <|
    .cons (.executor (.mk [] [] (.stage (.pingJoining (.skip rfl)) (.internal _)))) <|
    .cons (.executor (.mk [] [] (.stage (.pingJoining (.exit rfl)) (.internal _)))) <|
    .cons (.executor (.mk [] [] (.stage .join (.internal _)))) <|
    .cons (.executor (.mk [] [] (.stage (.report .enter) (.call .enter)))) <|
    .cons (.executor (.mk [] [] (.stage (.reported .fail) (.call (.leave _ _))))) <|
    .cons (.executor (.mk [] [] (.finish .finish))) <|
    .cons (.stop rfl) <|
    .cons (.executor (.mk [] [] (.leave (.leave rfl rfl)))) <|
    .cons (.poller (.mk [] [] (.own (.again (.inl rfl)) id))) <|
    .cons (.poller (.mk [] [] (.own (.leave rfl) id))) <|
    .cons (.joinPollers rfl (by simp)) <|
    .cons (.joinExecutors rfl (by simp)) .nil, rfl, rfl, rfl⟩

def callRequest (request : Request) : ClientCall → Option Request
  | .wanted => none
  | .sent | .served _ => some request

def keepAliveCall (ping : Request) : KeepAlive → Option Request
  | .pinging call => callRequest ping call
  | _ => none

def stageCall (workerId : String) : Stage → Option Request
  | .calling step k | .handling step k | .closing step _ k | .joining step _ k =>
    keepAliveCall (keepAliveRequest workerId step) k
  | .reporting step outcome call => callRequest (reportRequest workerId step outcome) call
  | _ => none

def PollerThread.openCall : PollerThread → Option Request
  | ⟨.polling _ _ request, call⟩ => callRequest (pollRequest request) call
  | _ => none

def ExecutorThread.openCall (workerId : String) : ExecutorThread → Option Request
  | .executing stage => stageCall workerId stage
  | _ => none

/-- The calls under way. -/
def openCalls (config : Config) (pool : ClientPool) : List Request :=
  pool.pollers.filterMap PollerThread.openCall ++
    pool.executors.filterMap (ExecutorThread.openCall config.pool.workerId)

/-- A client that is called by one thread at a time. -/
inductive ClientStep : List Request → Worker.Message → List Request → Prop
  | sends (request : Request) : ClientStep [] (.sends request) [request]
  | receives (request : Request) (reply : Option (Except Exception Transport.Response)) :
      ClientStep [request] (.receives request reply) []
  | begins (calls : List Request) (step : WorkflowStepExecution) :
      ClientStep calls (.begins step) calls
  | ends (calls : List Request) (step : WorkflowStepExecution) (outcome : Outcome) :
      ClientStep calls (.ends step outcome) calls

/-- What a step of one thread does to its call, to the client mutex and to what is seen. -/
inductive Touches : Option Request → Bool → Option Worker.Message → Bool → Option Request → Prop
  | sends (request : Request) : Touches none false (some (.sends request)) true (some request)
  | receives (request : Request) (locked : Bool)
      (reply : Option (Except Exception Transport.Response)) :
      Touches (some request) locked (some (.receives request reply)) false none
  | quiet (call : Option Request) (locked : Bool) : Touches call locked none locked call
  | begins (call : Option Request) (locked : Bool) (step : WorkflowStepExecution) :
      Touches call locked (some (.begins step)) locked call
  | ends (call : Option Request) (locked : Bool) (step : WorkflowStepExecution) (outcome : Outcome) :
      Touches call locked (some (.ends step outcome)) locked call

variable {request : Request} {call call' : ClientCall} {locked locked' : Bool}

theorem call_touches {e : CallEvent} (h : call.Step e (some call')) (guards : Guards locked e locked') :
    Touches (callRequest request call) locked (Worker.StageEvent.message (.call request e)) locked'
      (callRequest request call') := by
  cases h with
  | enter =>
    cases guards
    exact .sends request
  | serve reply =>
    cases guards
    exact .quiet _ _

theorem leave_touches {e : CallEvent} (h : call.Step e none) (guards : Guards locked e locked') :
    Touches (callRequest request call) locked (Worker.StageEvent.message (.call request e)) locked'
      none := by
  cases h <;> cases guards <;> exact .receives request _ _

theorem keepAlive_touches {done : Bool} {k k' : KeepAlive} {e : StageEvent}
    (h : k.Step request done e k') (guards : EventGuards locked e locked') :
    Touches (keepAliveCall request k) locked (Worker.StageEvent.message e) locked'
      (keepAliveCall request k') := by
  cases h with
  | call h =>
    cases guards with
    | call guards => exact call_touches h guards
  | pinged h =>
    cases guards with
    | call guards => exact leave_touches h guards
  | _ =>
    cases guards
    exact .quiet _ _

theorem stage_touches {workerId : String} {handlers : Handlers} {stage stage' : Stage} {e : StageEvent}
    (h : ExecuteStep.Step handlers workerId stage e stage') (guards : EventGuards locked e locked') :
    Touches (stageCall workerId stage) locked (Worker.StageEvent.message e) locked'
      (stageCall workerId stage') := by
  cases h with
  | pingCalling h => exact keepAlive_touches h guards
  | pingHandling h => exact keepAlive_touches h guards
  | pingClosing h => exact keepAlive_touches h guards
  | pingJoining h => exact keepAlive_touches h guards
  | report h =>
    cases guards with
    | call guards => exact call_touches h guards
  | reported h =>
    cases guards with
    | call guards => exact leave_touches h guards
  | handle h =>
    cases guards
    exact .begins _ _ _
  | finish h ends =>
    cases guards
    exact .ends _ _ _ _
  | _ =>
    cases guards
    exact .quiet _ _

theorem openCall_wanted (p : Poller) : (PollerThread.mk p .wanted).openCall = none := by
  cases p <;> rfl

theorem PollerThread.Step.touches {e : PollerThread.Event}
    (h : PollerThread.Step config.pool i c p e c' p') :
    Touches p.openCall c.locked e.message c'.locked p'.openCall := by
  cases h with
  | @own s s' locked p p' call e h own =>
    have hnone : (PollerThread.mk p call).openCall = none := by
      cases p with
      | polling => exact absurd trivial own
      | _ => rfl
    rw [hnone, openCall_wanted]
    exact .quiet _ _
  | call h guards => exact call_touches h guards
  | answer h guards answered step =>
    rw [openCall_wanted]
    exact leave_touches h guards
  | throws h guards threw step =>
    rw [openCall_wanted]
    exact leave_touches h guards

theorem ExecutorThread.Step.touches {e : ExecutorThread.Event}
    (h : ExecutorThread.Step config i c x e c' x') :
    Touches (x.openCall config.pool.workerId) c.locked e.message c'.locked
      (x'.openCall config.pool.workerId) := by
  cases h with
  | stage h guards => exact stage_touches h guards
  | _ => exact .quiet _ _

theorem Touches.client {o o' : Option Request} {m : Option Worker.Message}
    (h : Touches o locked m locked' o') (before after : List Request)
    (one : (before ++ o.toList ++ after).length = locked.toNat) :
    (before ++ o'.toList ++ after).length = locked'.toNat ∧
      ((m = none ∧ before ++ o'.toList ++ after = before ++ o.toList ++ after) ∨
        ∃ msg, m = some msg ∧
          ClientStep (before ++ o.toList ++ after) msg (before ++ o'.toList ++ after)) := by
  cases h with
  | sends request =>
    obtain ⟨rfl, rfl⟩ : before = [] ∧ after = [] := by simpa using one
    exact ⟨rfl, .inr ⟨_, rfl, .sends request⟩⟩
  | receives request locked reply =>
    have hle := Bool.toNat_le locked
    obtain ⟨rfl, rfl⟩ : before = [] ∧ after = [] := by
      simp only [Option.toList_some, List.length_append, List.length_singleton] at one
      exact ⟨List.length_eq_zero_iff.mp (by omega), List.length_eq_zero_iff.mp (by omega)⟩
    exact ⟨rfl, .inr ⟨_, rfl, .receives request reply⟩⟩
  | quiet => exact ⟨one, .inl ⟨rfl, rfl⟩⟩
  | begins => exact ⟨one, .inr ⟨_, rfl, .begins _ _⟩⟩
  | ends => exact ⟨one, .inr ⟨_, rfl, .ends _ _ _⟩⟩

theorem Step.client {e : Event} (h : Step config pool e pool')
    (one : (openCalls config pool).length = pool.common.locked.toNat) :
    (openCalls config pool').length = pool'.common.locked.toNat ∧
      ((e.message = none ∧ openCalls config pool' = openCalls config pool) ∨
        ∃ m, e.message = some m ∧ ClientStep (openCalls config pool) m (openCalls config pool')) := by
  cases h with
  | poller h =>
    obtain ⟨p, p', before, after, h, hbefore, hafter⟩ := h.filterMap_split PollerThread.openCall
    have hclient := h.touches.client before
      (after ++ pool.executors.filterMap (ExecutorThread.openCall config.pool.workerId))
    simp only [openCalls, hbefore, hafter, List.append_assoc] at one hclient ⊢
    exact hclient one
  | executor h =>
    obtain ⟨x, x', before, after, h, hbefore, hafter⟩ :=
      h.filterMap_split (ExecutorThread.openCall config.pool.workerId)
    have hclient := h.touches.client
      (pool.pollers.filterMap PollerThread.openCall ++ before) after
    simp only [openCalls, hbefore, hafter, List.append_assoc] at one hclient ⊢
    exact hclient one
  | stop | joinPollers | joinExecutors => exact ⟨one, .inl ⟨rfl, rfl⟩⟩

theorem openCalls_start (config : Config) : openCalls config (start config) = [] := by
  simp [openCalls, start, openCall_wanted, ExecutorThread.openCall]

/-- Whatever the pollers, the executors and their keep-alive threads do, the client is called by one
thread at a time, and without the calls the pool goes on as before. -/
theorem calls_one_at_a_time (run : Run (Step config) (start config) events pool) :
    Run ClientStep [] (events.filterMap Event.message) (openCalls config pool) ∧
      (openCalls config pool).length = pool.common.locked.toNat ∧
      Run (WorkerPool.Step config.pool) (WorkerPool.start config.pool) (events.filterMap Event.pool)
        pool.pool := by
  obtain ⟨one, hrun⟩ := run.observe
    (I := fun pool => (openCalls config pool).length = pool.common.locked.toNat)
    (openCalls config) Event.message (fun _ _ _ one h => h.client one) (by rw [openCalls_start]; rfl)
  rw [openCalls_start] at hrun
  exact ⟨hrun, one, run_pool run⟩

theorem calls_one_at_a_time_single : ∃ events pool, reports events = [completed] ∧
    Run ClientStep [] (events.filterMap Event.message) (openCalls single pool) ∧
      (openCalls single pool).length = pool.common.locked.toNat ∧
      Run (WorkerPool.Step single.pool) (WorkerPool.start single.pool) (events.filterMap Event.pool)
        pool.pool := by
  obtain ⟨events, pool, run, -, hreports, -⟩ := single_run
  exact ⟨events, pool, hreports, calls_one_at_a_time run⟩

def ExecutorThread.unreported : ExecutorThread → List WorkflowStepExecution
  | .holding step => [step]
  | .executing stage => (Worker.stageProtocol stage).unreported
  | _ => []

def ExecutorThread.ended : ExecutorThread → List (WorkflowStepExecution × Outcome)
  | .executing stage => (Worker.stageProtocol stage).ended
  | _ => []

def unreported (pool : ClientPool) : List WorkflowStepExecution :=
  pool.pollers.flatMap (fun p => p.poller.undelivered) ++ pool.common.shared.workQueue ++
    pool.executors.flatMap ExecutorThread.unreported

def ended (pool : ClientPool) : List (WorkflowStepExecution × Outcome) :=
  pool.executors.flatMap ExecutorThread.ended

def ExecutorThread.Valid (handlers : Handlers) : ExecutorThread → Prop
  | .executing stage =>
    Worker.Registered handlers stage ∧ (Worker.stageProtocol stage).Handled handlers
  | _ => True

def Config.worker (config : Config) : Worker.Config where
  workflowName := ""
  workflowVersion := 0
  workerId := config.pool.workerId
  handlers := config.handlers

theorem stage_claims {workerId : String} {handlers : Handlers} {stage stage' : Stage} {e : StageEvent}
    (h : ExecuteStep.Step handlers workerId stage e stage') :
    (Worker.StageEvent.message e).toList.flatMap messageClaims = [] := by
  have hpolled := Worker.polled_of_stage h
  cases hm : Worker.StageEvent.message e with
  | none => rfl
  | some m =>
    rw [hm] at hpolled
    have hnone : m.polled = none := hpolled
    simp [messageClaims, hnone]

theorem messageClaims_poll (request : WorkerPool.PollAndClaimWorkflowStepsRequest)
    (reply : Option (Except Exception Transport.Response)) :
    (PollerThread.Event.call request (.leave reply)).message.toList.flatMap messageClaims =
      (polledSteps reply).getD [] := List.append_nil _

theorem PollerThread.Step.counts {e : PollerThread.Event}
    (h : PollerThread.Step config.pool i c p e c' p') (step : WorkflowStepExecution) :
    (e.message.toList.flatMap messageClaims).count step + c.shared.workQueue.count step +
        p.poller.undelivered.count step =
      c'.shared.workQueue.count step + p'.poller.undelivered.count step := by
  cases h with
  | @own s s' locked p p' call e h own =>
    have hcounts := (h.counts step).2
    have hclaimed : s'.claimed = s.claimed := by
      cases h with
      | answer => exact absurd trivial own
      | _ => rfl
    simp only [Event.message, hclaimed, Option.toList_none, List.flatMap_nil, List.count_nil] at *
    omega
  | @call s locked locked' foundWork rest request call call' e h guards =>
    have hnone : (PollerThread.Event.call request e).message.toList.flatMap messageClaims = [] := by
      cases h <;> rfl
    rw [hnone]
    exact congrArg (· + _) (Nat.zero_add _)
  | @answer s s' locked locked' foundWork rest request call reply steps p' h guards answered polled =>
    have hclaims : (PollerThread.Event.call request (.leave reply)).message.toList.flatMap
        messageClaims = steps := by
      simp [messageClaims_poll, answered]
    rw [hclaims]
    cases polled
    simp only [Poller.undelivered, List.count_nil]
    omega
  | @throws s s' locked locked' foundWork rest request call reply p' h guards threw thrown =>
    have hnone : (PollerThread.Event.call request (.leave reply)).message.toList.flatMap
        messageClaims = [] := by
      simp [messageClaims_poll, threw]
    rw [hnone]
    cases thrown
    exact congrArg (· + _) (Nat.zero_add _)

/-- What an executor reports leaves what it and the queue hold, and the endings not reported. -/
structure Accounts (config : Config) (before after : List WorkflowStepExecution)
    (endings ended' : List (WorkflowStepExecution × Outcome)) (reports : List Request)
    (reported : List Worker.Handling) : Prop where
  claims : before.Perm (reported.map Prod.fst ++ after)
  endings : endings = reported.filterMap Worker.Handling.ending ++ ended'
  reports : List.Forall₂ (Worker.Reports config.handlers config.pool.workerId) reported reports

theorem ExecutorThread.Step.accounts {e : ExecutorThread.Event}
    (h : ExecutorThread.Step config i c x e c' x') (valid : x.Valid config.handlers) :
    x'.Valid config.handlers ∧ e.message.toList.flatMap messageClaims = [] ∧ ∃ reported,
      Accounts config (c.shared.workQueue ++ x.unreported) (c'.shared.workQueue ++ x'.unreported)
        (x.ended ++ (e.message.bind Worker.Message.ending).toList) x'.ended
        (e.message.bind Worker.Message.report).toList reported := by
  cases h with
  | @take s s' locked step h =>
    refine ⟨trivial, rfl, [], ?_, rfl, .nil⟩
    cases h with
    | take hqueue =>
      simp only [ExecutorThread.unreported, hqueue, List.append_nil, List.map_nil, List.nil_append]
      exact (List.perm_append_singleton _ _).symm
  | leave h =>
    cases h
    exact ⟨trivial, rfl, [], .rfl, rfl, .nil⟩
  | execute h =>
    cases h
    exact ⟨⟨trivial, trivial⟩, rfl, [], .rfl, rfl, .nil⟩
  | @stage s locked locked' stage stage' e h guards =>
    obtain ⟨registered, handled⟩ := valid
    obtain ⟨registered', hseen⟩ := @Worker.stage_seen config.worker _ _ _ h registered
    rcases hseen with ⟨hnone, hsame⟩ | ⟨m, hm, hstep⟩
    · refine ⟨⟨registered', hsame ▸ handled⟩, stage_claims h, [], ?_, ?_, ?_⟩
      · simp only [ExecutorThread.unreported, hsame, List.map_nil, List.nil_append]
        exact .rfl
      · simp [ExecutorThread.ended, ExecutorThread.Event.message, hnone, hsame]
      · simp [ExecutorThread.Event.message, hnone]
    · obtain ⟨handled', reported, hclaims, hendings, hreports⟩ := hstep.accounts handled
      have hclaim : m.claim = none := by
        have hnone := @Worker.claim_of_stage config.worker _ _ _ h
        rwa [hm] at hnone
      rw [hclaim, Option.toList_none, List.append_nil] at hclaims
      refine ⟨⟨registered', handled'⟩, stage_claims h, reported, ?_, ?_, ?_⟩
      · simp only [ExecutorThread.unreported, hclaims]
        exact List.perm_append_comm_assoc _ _ _
      · simpa only [ExecutorThread.ended, ExecutorThread.Event.message, hm, Option.bind_some]
          using hendings
      · simp only [ExecutorThread.Event.message, hm, Option.bind_some]
        exact hreports
  | finish h =>
    cases h
    exact ⟨trivial, rfl, [], .rfl, rfl, .nil⟩

theorem count_unreported (pool : ClientPool) (step : WorkflowStepExecution) :
    (unreported pool).count step = (pool.pollers.map fun p => p.poller.undelivered.count step).sum +
      pool.common.shared.workQueue.count step +
      (pool.executors.map fun x => x.unreported.count step).sum := by
  simp only [unreported, List.count_append, List.count_flatMap]
  rfl

theorem count_ended (pool : ClientPool) (ending : WorkflowStepExecution × Outcome) :
    (ended pool).count ending = (pool.executors.map fun x => x.ended.count ending).sum := by
  rw [ended, List.count_flatMap]
  rfl

/-- Every claim is with the pool or has been reported as its handler ended. -/
structure Accounted (config : Config) (events : List Event) (pool : ClientPool) : Prop where
  valid : ∀ x ∈ pool.executors, x.Valid config.handlers
  reported : ∃ reported : List Worker.Handling,
    List.Forall₂ (Worker.Reports config.handlers config.pool.workerId) reported (reports events) ∧
    (claims events).Perm (reported.map Prod.fst ++ unreported pool) ∧
    (endings events).Perm (reported.filterMap Worker.Handling.ending ++ ended pool)

theorem claims_concat (events : List Event) (e : Event) :
    claims (events ++ [e]) = claims events ++ e.message.toList.flatMap messageClaims := by
  rw [claims, filterMap_concat, List.flatMap_append]
  rfl

theorem reports_concat (events : List Event) (e : Event) :
    reports (events ++ [e]) = reports events ++ (e.message.bind Worker.Message.report).toList := by
  rw [reports, filterMap_concat, List.filterMap_append]
  cases e.message with
  | none => rfl
  | some m => cases h : m.report <;> simp [h, reports]

theorem endings_concat (events : List Event) (e : Event) :
    endings (events ++ [e]) = endings events ++ (e.message.bind Worker.Message.ending).toList := by
  rw [endings, filterMap_concat, List.filterMap_append]
  cases e.message with
  | none => rfl
  | some m => cases h : m.ending <;> simp [h, endings]

theorem PollerThread.Step.report {e : PollerThread.Event}
    (h : PollerThread.Step config.pool i c p e c' p') :
    e.message.bind Worker.Message.report = none ∧ e.message.bind Worker.Message.ending = none := by
  cases h with
  | own => exact ⟨rfl, rfl⟩
  | call h => cases h <;> exact ⟨rfl, rfl⟩
  | answer => exact ⟨rfl, rfl⟩
  | throws => exact ⟨rfl, rfl⟩

theorem Accounted.step {e : Event} (h : Accounted config events pool)
    (hstep : Step config pool e pool') : Accounted config (events ++ [e]) pool' := by
  obtain ⟨valid, reported, hreports, hclaims, hendings⟩ := h
  rw [List.perm_iff_count] at hclaims hendings
  simp only [List.count_append, count_unreported] at hclaims
  simp only [List.count_append, count_ended] at hendings
  cases hstep with
  | poller hmoves =>
    obtain ⟨p, p', -, hlocal, -, -, hsum⟩ := hmoves.inv
    refine ⟨valid, reported, ?_, List.perm_iff_count.mpr fun step => ?_,
      List.perm_iff_count.mpr fun ending => ?_⟩
    · rw [reports_concat]
      simpa [Event.message, hlocal.report.1] using hreports
    · have hcounts := hlocal.counts step
      have hsum := (hsum fun p => p.poller.undelivered.count step).2
      have hclaims := hclaims step
      simp only [claims_concat, List.count_append, count_unreported, Event.message] at *
      omega
    · rw [endings_concat]
      simpa [Event.message, hlocal.report.2, count_ended] using hendings ending
  | executor hmoves =>
    obtain ⟨x, x', hx, hlocal, -, hmem, hsum⟩ := hmoves.inv
    obtain ⟨hvalid, hnone, more, hcounts, hended, hmore⟩ := hlocal.accounts (valid x hx)
    refine ⟨?_, reported ++ more, ?_, List.perm_iff_count.mpr fun step => ?_,
      List.perm_iff_count.mpr fun ending => ?_⟩
    · intro y hy
      rcases hmem y hy with rfl | hy
      · exact hvalid
      · exact valid y hy
    · rw [reports_concat]
      exact List.rel_append hreports hmore
    · have hcounts := hcounts.count_eq step
      have hsum := (hsum fun x => x.unreported.count step).2
      have hclaims := hclaims step
      simp only [claims_concat, List.count_append, List.map_append, count_unreported,
        Event.message, hnone, List.count_nil] at *
      omega
    · have hended := congrArg (List.count ending) hended
      have hsum := (hsum fun x => x.ended.count ending).2
      have hendings := hendings ending
      simp only [endings_concat, List.count_append, List.filterMap_append, count_ended,
        Event.message] at *
      omega
  | stop | joinPollers | joinExecutors =>
    refine ⟨valid, reported, ?_, List.perm_iff_count.mpr fun step => ?_,
      List.perm_iff_count.mpr fun ending => ?_⟩
    · rw [reports_concat]
      simpa [Event.message] using hreports
    · have hclaims := hclaims step
      simpa [claims_concat, count_unreported, Event.message] using hclaims
    · simpa [endings_concat, count_ended, Event.message] using hendings ending

theorem accounted_start (config : Config) : Accounted config [] (start config) := by
  refine ⟨fun x hx => ?_, [], .nil, ?_, ?_⟩
  · rw [List.eq_of_mem_replicate hx]
    trivial
  · rw [List.perm_iff_count]
    intro step
    simp [claims, count_unreported, start, WorkerPool.start, Poller.undelivered,
      ExecutorThread.unreported]
  · rw [List.perm_iff_count]
    intro ending
    simp [endings, count_ended, start, ExecutorThread.ended]

theorem accounted_of_run (run : Run (Step config) (start config) events pool) :
    Accounted config events pool :=
  run.history (I := Accounted config) (fun _ _ _ _ _ h hs => h.step hs) (accounted_start config)

theorem joined (run : Run (Step config) (start config) events pool) :
    WorkerPool.Joined pool.pool :=
  (run_pool run).invariant (I := WorkerPool.Joined) (fun _ _ _ h hs => h.step hs)
    ⟨by simp [WorkerPool.start], by simp [WorkerPool.start]⟩

theorem unreported_returned (run : Run (Step config) (start config) events pool)
    (hreturned : pool.stop = .returned) :
    unreported pool = pool.common.shared.workQueue ∧ ended pool = [] := by
  obtain ⟨hpollers, hexecutors⟩ := joined run
  have hundelivered : pool.pollers.flatMap (fun p => p.poller.undelivered) = [] := by
    rw [List.flatMap_eq_nil_iff]
    intro p hp
    rw [hpollers (.inr hreturned) _ (List.mem_map_of_mem hp)]
    rfl
  have hdone : ∀ x ∈ pool.executors, x = .done := by
    intro x hx
    have hdone := hexecutors hreturned _ (List.mem_map_of_mem hx)
    cases x with
    | done => rfl
    | _ => cases hdone
  have hexecuted : pool.executors.flatMap ExecutorThread.unreported = [] := by
    rw [List.flatMap_eq_nil_iff]
    intro x hx
    rw [hdone x hx]
    rfl
  refine ⟨?_, ?_⟩
  · rw [unreported, hundelivered, hexecuted, List.append_nil, List.nil_append]
  · rw [ended, List.flatMap_eq_nil_iff]
    intro x hx
    rw [hdone x hx]
    rfl

/-- Each claim is reported at most once and as its handler ended, and all are but those that are
with a poller, on the queue or with an executor. When `stop` has returned those on the queue are
left. -/
theorem claims_reported_once (run : Run (Step config) (start config) events pool) :
    ∃ reported : List Worker.Handling,
      List.Forall₂ (Worker.Reports config.handlers config.pool.workerId) reported (reports events) ∧
      (claims events).Perm (reported.map Prod.fst ++ unreported pool) ∧
      (endings events).Perm (reported.filterMap Worker.Handling.ending ++ ended pool) ∧
      (pool.stop = .returned →
        (claims events).Perm (reported.map Prod.fst ++ pool.common.shared.workQueue) ∧
        (endings events).Perm (reported.filterMap Worker.Handling.ending)) := by
  obtain ⟨-, reported, hreports, hclaims, hendings⟩ := accounted_of_run run
  refine ⟨reported, hreports, hclaims, hendings, fun hreturned => ?_⟩
  obtain ⟨hunreported, hended⟩ := unreported_returned run hreturned
  rw [hunreported] at hclaims
  rw [hended, List.append_nil] at hendings
  exact ⟨hclaims, hendings⟩

theorem claims_reported_once_single : ∃ events pool, ∃ reported : List Worker.Handling,
    claims events = [WorkerPool.claimedStep] ∧
    List.Forall₂ (Worker.Reports single.handlers single.pool.workerId) reported (reports events) ∧
    (claims events).Perm (reported.map Prod.fst ++ unreported pool) ∧
    (endings events).Perm (reported.filterMap Worker.Handling.ending ++ ended pool) ∧
    (claims events).Perm (reported.map Prod.fst ++ pool.common.shared.workQueue) ∧
    (endings events).Perm (reported.filterMap Worker.Handling.ending) := by
  obtain ⟨events, pool, run, hclaims, -, hreturned⟩ := single_run
  obtain ⟨reported, hreports, hall, hended, hleft⟩ := claims_reported_once run
  exact ⟨events, pool, reported, hclaims, hreports, hall, hended, hleft hreturned⟩

end ClientPool
end WorkflowEngine
