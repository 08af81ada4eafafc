import WorkflowEngine.Deadlines
import WorkflowEngine.Leases
import WorkflowEngine.Systems.Threads
import WorkflowEngine.Worker

/-!
# Workers over one store

A fleet is a list of workers, the store that the service keeps and the latest
reading of its clock. A step is a step of one worker, the service's part of a
call that a worker has sent, or a call of somebody else that is not made in
the name of a worker of the fleet. For every worker the deadline that the
store last granted it is kept beside its state, and the steps it was handed.
-/

namespace WorkflowEngine
open Txn Txn.Program Systems ExecuteStep Orchestrator

def Operation.workerId : Operation → Option String
  | .pollAndClaimWorkflowSteps _ _ workerId _ | .keepAliveStep _ _ workerId
  | .completeStep _ _ workerId _ _ | .failStep _ _ workerId _ => some workerId
  | _ => none

namespace Fleet
open Worker (Config)
open Transport (Request)

/-- The claim of a step until its report has been served. -/
def stageClaim : Stage → Option WorkflowStepExecution
  | .entered step | .calling step _ | .handling step _ | .closing step _ _ | .joining step _ _ =>
    some step
  | .reporting step _ .wanted | .reporting step _ .sent => some step
  | .reporting _ _ (.served _) | .returned _ => none

def threadClaim : Worker.Thread → Option WorkflowStepExecution
  | .polling (.served reply) => Worker.polledStep (some reply)
  | .executing stage => stageClaim stage
  | _ => none

def granted : Except Exception Transport.Response → Option WorkflowStepExecution
  | .ok (.steps steps) => steps.head?
  | .ok (.step step) => some step
  | _ => none

structure Member where
  config : Config
  worker : Worker := {}
  /-- The deadline that the store last granted. -/
  deadline : Option TimePoint := none
  /-- The steps that polls were answered with. -/
  claimed : List WorkflowStepExecution := []

namespace Member

def id (m : Member) : String := m.config.workerId

def claim (m : Member) : Option WorkflowStepExecution := threadClaim m.worker.thread

def serve (m : Member) (worker : Worker) (reply : Except Exception Transport.Response) : Member where
  config := m.config
  worker := worker
  deadline := (granted reply).elim m.deadline fun step => step.stored.leaseExpiresAt
  claimed := m.claimed ++ (Worker.polledStep (some reply)).toList

end Member

/-- One clock that does not go back serves the call. -/
structure Timed (now now' : TimePoint) (c : Call) : Prop where
  nondecreasing : c.NondecreasingFrom now
  bounded : ∀ n, c.reading n ≤ now'

structure Store (E : Engine schema) where
  db : E.Db
  now : TimePoint

inductive MemberEvent where
  | own (e : Worker.WorkerEvent)
  | served (request : Request) (x : Entry)

/-- The service's part of a call, which is not a step of the worker alone. -/
def IsServe : Worker.WorkerEvent → Prop
  | .thread (.call _ (.serve _)) => True
  | _ => False

inductive MemberStep {E : Engine schema} :
    ℕ → Store E → Member → MemberEvent → Store E → Member → Prop
  | own {i : ℕ} {store : Store E} {m : Member} {e : Worker.WorkerEvent} {worker : Worker}
      (h : Worker.Step m.config m.worker e worker) (own : ¬ IsServe e) :
      MemberStep i store m (.own e) store { m with worker := worker }
  | served {i : ℕ} {store : Store E} {m : Member} {request : Request} {x : Entry} {now : TimePoint}
      {reply : Except Exception Transport.Response} {worker : Worker}
      (h : Worker.Step m.config m.worker (.thread (.call request (.serve reply))) worker)
      (asks : request.operation = some x.call.operation)
      (result : x.result = x.call.result store.db)
      (answers : (atomic x.call.env (InProcessTransport.call request) store.db).1 = reply)
      (timed : Timed store.now now x.call) :
      MemberStep i store m (.served request x)
        ⟨(atomic x.call.env (InProcessTransport.call request) store.db).2, now⟩
        (m.serve worker reply)

end Fleet

structure Fleet (E : Engine schema) where
  store : Fleet.Store E
  members : List Fleet.Member

namespace Fleet
open Worker (Config)
open Transport (Request)

inductive FleetEvent where
  | member (i : ℕ) (e : MemberEvent)
  | other (x : Entry)

inductive Step {E : Engine schema} : Fleet E → FleetEvent → Fleet E → Prop
  | member {fleet : Fleet E} {i : ℕ} {e : MemberEvent} {store : Store E} {members : List Member}
      (h : Moves MemberStep fleet.store fleet.members i e store members) :
      Step fleet (.member i e) ⟨store, members⟩
  | other {fleet : Fleet E} {x : Entry} {db : E.Db} {now : TimePoint}
      (h : Entry.Step fleet.store.db x db)
      (foreign : ∀ m ∈ fleet.members, x.call.operation.workerId ≠ some m.id)
      (timed : Timed fleet.store.now now x.call) :
      Step fleet (.other x) ⟨⟨db, now⟩, fleet.members⟩

def start (E : Engine schema) (configs : List Config) (now : TimePoint) : Fleet E where
  store := ⟨E.empty, now⟩
  members := configs.map fun config => { config }

def FleetEvent.entry : FleetEvent → Option Entry
  | .member _ (.served _ x) | .other x => some x
  | .member _ (.own _) => none

def threadOutcome : Worker.Thread → Option (WorkflowStepExecution × Option Outcome)
  | .executing (.closing step outcome _) | .executing (.joining step outcome _) =>
    some (step, some outcome)
  | .executing (.reporting step outcome _) => some (step, outcome)
  | _ => none

/-- What a worker asks for: a step when it has none, and otherwise the renewal or the end of its
claim. -/
inductive Asks (config : Config) (thread : Worker.Thread)
    (reply : Except Exception Transport.Response) :
    Option WorkflowStepExecution → Request → Option WorkflowStepExecution → Prop
  | poll : Asks config thread reply none config.pollRequest (Worker.polledStep (some reply))
  | keepAlive (step : WorkflowStepExecution) :
      Asks config thread reply (some step) (keepAliveRequest config.workerId step) (some step)
  | report {step : WorkflowStepExecution} {outcome : Option Outcome}
      (handled : threadOutcome thread = some (step, outcome)) :
      Asks config thread reply (some step) (reportRequest config.workerId step outcome) none

variable {E : Engine schema} {store store' : Store E} {m m' : Member} {i : ℕ} {config : Config}
  {worker worker' : Worker} {fleet fleet' : Fleet E} {events : List FleetEvent} {request : Request}
  {reply : Except Exception Transport.Response}

theorem keepAlive_asks {ping : Request} {done : Bool} {k k' : KeepAlive}
    (h : k.Step ping done (.call request (.serve reply)) k') : request = ping := by
  cases h <;> rfl

theorem stage_asks {stage stage' : Stage}
    (h : ExecuteStep.Step config.handlers config.workerId stage (.call request (.serve reply)) stage') :
    Asks config (.executing stage) reply (stageClaim stage) request (stageClaim stage') := by
  cases h with
  | pingCalling h =>
    rw [keepAlive_asks h]
    exact .keepAlive _
  | pingHandling h =>
    rw [keepAlive_asks h]
    exact .keepAlive _
  | pingClosing h =>
    rw [keepAlive_asks h]
    exact .keepAlive _
  | pingJoining h =>
    rw [keepAlive_asks h]
    exact .keepAlive _
  | report h =>
    cases h
    exact .report rfl
  | reported h => cases h

theorem worker_asks (h : Worker.Step config worker (.thread (.call request (.serve reply))) worker') :
    Asks config worker.thread reply (threadClaim worker.thread) request
      (threadClaim worker'.thread) := by
  obtain ⟨h⟩ := h
  generalize worker.thread = thread at h
  cases h with
  | call h =>
    cases h
    exact .poll
  | execute h => exact stage_asks h

theorem worker_keeps {e : Worker.WorkerEvent} (h : Worker.Step config worker e worker')
    (own : ¬ IsServe e) : threadClaim worker'.thread = threadClaim worker.thread ∨
      threadClaim worker'.thread = none := by
  cases h with
  | thread h =>
    generalize worker.thread = thread at h
    cases h with
    | call h =>
      cases h with
      | enter => exact .inl rfl
      | serve reply => exact absurd trivial own
    | claimed h found =>
      cases h with
      | answer reply => exact .inl found.symm
      | fail | lose => cases found
    | execute h =>
      cases h with
      | report h =>
        cases h with
        | enter => exact .inl rfl
        | serve reply => exact absurd trivial own
      | reported h => exact .inr rfl
      | _ => exact .inl rfl
    | _ => exact .inr rfl
  | stop | join => exact .inl rfl

/-- The store holds the step for the worker until the deadline. -/
def HeldUntil (db : E.Db) (workerId : String) (step : WorkflowStepExecution)
    (deadline : TimePoint) : Prop :=
  ∃ row : WorkflowStepExecutionRow, E.get db .steps row.key = some row ∧
    row.workflowExecutionId = step.workflowExecutionId ∧ row.stepName = step.stepName ∧
    Ledger.Leased row workerId deadline

def Ended (db : E.Db) (id : String) : Prop :=
  ∃ e, (view db).execution id = some e ∧ e.status ≠ .running

variable {db db' : E.Db} {c : Call} {workerId other : String} {step : WorkflowStepExecution}
  {deadline : TimePoint} {id : String}

theorem workerId_of_request {op : Operation} {stepName : String}
    (h : op.request = some (id, stepName, workerId)) : op.workerId = some workerId := by
  cases op <;> simp_all [Operation.request, Operation.workerId]

theorem Ended.kept (h : Ended db id) (sound : Sound db) (call : Call.Step db c db') : Ended db' id := by
  obtain ⟨e, he, hr⟩ := h
  obtain ⟨evs, hrun, -⟩ := call.run sound
  have same := Ledger.frame_of_run hrun sound.lifecycle
    (Ledger.subject_ne_of_run hrun sound.lifecycle he hr)
  exact ⟨e, same.execution.trans he, hr⟩

theorem ended_of_cancel (sound : Sound db) (call : Call.Step db c db')
    (hop : c.operation = .cancelWorkflow id) : db' = db ∨ Ended db' id := by
  rcases call.cases sound with ⟨r, evs, -, heff, -⟩ | ⟨-, rfl⟩
  · right
    rw [hop] at heff
    cases heff with
    | cancelWorkflow step =>
      generalize hview : view db' = L' at step
      cases step with
      | @cancel e now execution running =>
        refine ⟨(e.canceledAt now).stored, ?_, by simp [WorkflowExecution.canceledAt]⟩
        rw [hview, Ledger.setExecution_execution]
        exact if_pos rfl
  · exact .inl rfl

theorem HeldUntil.kept (h : HeldUntil db workerId step deadline) (sound : Sound db)
    (call : Call.Step db c db') (hother : c.operation.workerId ≠ some workerId) :
    HeldUntil db' workerId step deadline ∨ deadline ≤ c.now ∨
      Ended db' step.workflowExecutionId := by
  obtain ⟨row, found, hid, hname, leased⟩ := h
  by_cases hnow : deadline ≤ c.now
  · exact .inr (.inl hnow)
  rcases leased_row_kept sound found leased call (not_le.mp hnow) with hkept | hrequest | hcancel
  · exact .inl ⟨row, hkept, hid, hname, leased⟩
  · exact absurd (workerId_of_request hrequest) hother
  · rw [hid] at hcancel
    rcases ended_of_cancel sound call hcancel with rfl | hended
    · exact .inl ⟨row, found, hid, hname, leased⟩
    · exact .inr (.inr hended)

theorem HeldUntil.unique {step' : WorkflowStepExecution} {deadline' : TimePoint}
    (h : HeldUntil db workerId step deadline) (h' : HeldUntil db other step' deadline')
    (sound : Sound db) (same : step.workflowExecutionId = step'.workflowExecutionId) :
    workerId = other := by
  obtain ⟨row, found, hid, -, leased⟩ := h
  obtain ⟨row', found', hid', -, leased'⟩ := h'
  obtain ⟨hrow, -, -⟩ := sound.encoded.step_row found
  obtain ⟨hrow', -, -⟩ := sound.encoded.step_row found'
  obtain ⟨e, hcur, hk, -, -⟩ := sound.lifecycle.current_of_active
    (Ledger.step_eq_some.mpr ⟨row', hrow', rfl⟩) leased'.active
  have heid : e.workflowExecutionId = row.workflowExecutionId := by
    rw [hid, same, ← hid']
    exact congrArg StepKey.workflowExecutionId hk
  obtain ⟨-, hs⟩ := hcur.eq_of_active sound.lifecycle hrow leased.active heid
  have howner := leased'.owner
  rw [hs, leased.owner] at howner
  exact Option.some_inj.mp howner

theorem HeldUntil.not_ended (h : HeldUntil db workerId step deadline) (sound : Sound db) :
    ¬ Ended db step.workflowExecutionId := by
  intro ended
  obtain ⟨e, he, hr⟩ := ended
  obtain ⟨row, found, hid, -, leased⟩ := h
  obtain ⟨hrow, -, -⟩ := sound.encoded.step_row found
  obtain ⟨e', hcur, hk, -, -⟩ := sound.lifecycle.current_of_active
    (Ledger.step_eq_some.mpr ⟨row, hrow, rfl⟩) leased.active
  have hcur' := hcur.execution
  have heid : e'.workflowExecutionId = step.workflowExecutionId :=
    (congrArg StepKey.workflowExecutionId hk).trans hid
  rw [heid, he] at hcur'
  obtain rfl := Option.some_inj.mp hcur'
  exact hr hcur.running

theorem StoredStep.current {s : WorkflowStepExecution} (h : StoredStep db s) (sound : Sound db)
    (active : s.status.Active) :
    ∃ e, (view db).Current e s ∧ e.currentKey = s.stepKey := by
  obtain ⟨row, found, rfl⟩ := h
  obtain ⟨e, hcur, hk, -, -⟩ := sound.lifecycle.current_of_active
    (view_step.mpr ⟨row, found, rfl, rfl⟩) active
  exact ⟨e, hcur, hk⟩

theorem HeldUntil.lapsed {s : WorkflowStepExecution} {now : TimePoint}
    (h : HeldUntil db workerId step deadline) (sound : Sound db) (stored : StoredStep db s)
    (claimable : s.Claimable now) (same : step.workflowExecutionId = s.workflowExecutionId) :
    deadline ≤ now := by
  obtain ⟨row, found, hid, -, leased⟩ := h
  obtain ⟨hrow, -, -⟩ := sound.encoded.step_row found
  obtain ⟨e, hcur, hk⟩ := StoredStep.current stored sound
    (Ledger.active_of_isClaimable (isClaimable_iff.mpr claimable))
  have heid : e.workflowExecutionId = row.workflowExecutionId := by
    rw [hid, same]
    exact congrArg StepKey.workflowExecutionId hk
  obtain ⟨-, rfl⟩ := hcur.eq_of_active sound.lifecycle hrow leased.active heid
  have hclaimable := isClaimable_iff.mpr claimable
  rw [leased.isClaimable] at hclaimable
  exact of_decide_eq_true hclaimable

theorem not_ended_of_current {e : WorkflowExecution} {s : WorkflowStepExecution}
    (h : (view db).Current e s) : ¬ Ended db e.workflowExecutionId := by
  intro ended
  obtain ⟨e', he', hr⟩ := ended
  rw [h.execution] at he'
  obtain rfl := Option.some_inj.mp he'
  exact hr h.running

theorem poll_grants {name : String} {version : Int32} {maxResults : ℕ}
    {steps : List WorkflowStepExecution} (sound : Sound db)
    (hop : c.operation = .pollAndClaimWorkflowSteps name version workerId maxResults)
    (hr : c.result db = .ok (.claimed steps)) (hs : step ∈ steps) :
    (∃ deadline, step.stored.leaseExpiresAt = some deadline ∧
      HeldUntil (c.after db) workerId step deadline) ∧
    ∃ s, StoredStep db s ∧ s.stepKey = step.stepKey ∧ s.Claimable c.now := by
  obtain ⟨tx, hreturns, hview⟩ := Call.result_ok hr
  simp only [hop, Operation.program, returns_bind, returns_pure] at hreturns
  obtain ⟨claimed, tx', hpoll, hsteps, rfl⟩ := hreturns
  obtain rfl : steps = claimed := by simpa using hsteps
  obtain ⟨row, -, hstored⟩ := poll_stores sound.encoded.keyed hpoll
  obtain ⟨d, -, hclaims, -⟩ := poll_outcome sound.encoded.keyed hpoll
  obtain ⟨hget, -⟩ := hstored step hs
  obtain ⟨s, hmem, hlease⟩ := claim_of_mem hclaims step hs
  have hclaimable := (mem_claimable sound).mp (List.mem_of_mem_take hmem)
  refine ⟨?_, s, hclaimable.1, hlease.stepKey.symm, hclaimable.2.2⟩
  obtain ⟨lease, -, rfl⟩ := hlease
  rw [hview, ← WorkflowStepExecution.key_toRow_text] at hget
  refine ⟨_, rfl, _, hget, rfl, rfl, ?_⟩
  constructor <;> rw [WorkflowStepExecution.fromRow_toRow] <;> rfl

theorem heldUntil_of_held {e : WorkflowExecution} {s : WorkflowStepExecution} {now : TimePoint}
    (held : (view db).Held e s workerId now)
    (hid : e.workflowExecutionId = step.workflowExecutionId)
    (hname : e.currentStepName = step.stepName) :
    ∃ deadline, HeldUntil db workerId step deadline := by
  obtain ⟨row, found, hs, hkey⟩ := view_step.mp held.step
  obtain ⟨deadline, hlease, -⟩ := held.lease
  rw [← E.key_of_get db .steps _ row found] at found
  refine ⟨deadline, row, found, ?_, ?_, ?_⟩
  · rw [← hid]
    exact congrArg StepKey.workflowExecutionId (hs ▸ hkey)
  · rw [← hname]
    exact congrArg StepKey.stepName (hs ▸ hkey)
  · exact ⟨hs ▸ held.claimed, hs ▸ held.owner, hs ▸ hlease⟩

theorem keepAlive_grants {renewed : WorkflowStepExecution} (sound : Sound db)
    (hop : c.operation = .keepAliveStep step.workflowExecutionId step.stepName workerId)
    (hr : c.result db = .ok (.step renewed)) :
    (∃ deadline, HeldUntil db workerId step deadline) ∧
    ∃ deadline, renewed.stored.leaseExpiresAt = some deadline ∧
      HeldUntil (c.after db) workerId step deadline := by
  obtain ⟨tx, hreturns, hview⟩ := Call.result_ok hr
  simp only [hop, Operation.program, returns_bind, returns_pure] at hreturns
  obtain ⟨r, tx', hkeep, hstep, rfl⟩ := hreturns
  obtain rfl : renewed = r := by simpa using hstep
  obtain ⟨e, tx₁, d, tx₂, s, tx₃, definition, lease, he, hd, hs, -, -, rfl, hafter⟩ :=
    keepAliveStep_cases hkeep
  obtain ⟨-, hv, ht⟩ := getDefinitionOf_spec hd
  obtain ⟨hid, hname, -, -, held, -⟩ := held_of_request sound.holds he hv ht hs
  refine ⟨heldUntil_of_held held hid hname, ?_⟩
  have hget : E.get (c.after db) .steps
      (s.renewedUntil ((c.env.answer tx₃.ticks .clock).addSeconds lease)).toRow.key =
      some (s.renewedUntil ((c.env.answer tx₃.ticks .clock).addSeconds lease)).toRow := by
    rw [← hview, hafter]
    exact E.get_put_self ..
  have hkey := held.toCurrent.step_key sound.lifecycle
  refine ⟨_, rfl, _, hget, ?_, ?_, ?_⟩
  · exact (congrArg StepKey.workflowExecutionId hkey).trans hid
  · exact (congrArg StepKey.stepName hkey).trans hname
  · constructor <;> rw [WorkflowStepExecution.fromRow_toRow]
    · exact held.claimed
    · exact held.owner
    · rfl

/-- A call leaves the step with its worker until the deadline, and no other worker held it. -/
structure Acquires (db : E.Db) (c : Call) (workerId : String) (step : WorkflowStepExecution)
    (deadline : Option TimePoint) : Prop where
  held : ∃ d ∈ deadline, HeldUntil (c.after db) workerId step d
  others : ∀ other t d, other ≠ workerId → HeldUntil db other t d →
    t.workflowExecutionId = step.workflowExecutionId → d ≤ c.now
  running : ¬ Ended db step.workflowExecutionId

theorem poll_acquires {name : String} {version : Int32} {maxResults : ℕ}
    {steps : List WorkflowStepExecution} (sound : Sound db)
    (hop : c.operation = .pollAndClaimWorkflowSteps name version workerId maxResults)
    (hr : c.result db = .ok (.claimed steps)) (hs : step ∈ steps) :
    Acquires db c workerId step step.stored.leaseExpiresAt := by
  obtain ⟨held, s, stored, hkey, claimable⟩ := poll_grants sound hop hr hs
  have hid : s.workflowExecutionId = step.workflowExecutionId :=
    congrArg StepKey.workflowExecutionId hkey
  refine ⟨held, fun other t d _ hother same => ?_, ?_⟩
  · exact hother.lapsed sound stored claimable (same.trans hid.symm)
  · obtain ⟨e, hcur, hk⟩ := StoredStep.current stored sound
      (Ledger.active_of_isClaimable (isClaimable_iff.mpr claimable))
    have heid : e.workflowExecutionId = step.workflowExecutionId :=
      (congrArg StepKey.workflowExecutionId hk).trans hid
    exact heid ▸ not_ended_of_current hcur

theorem keepAlive_acquires {renewed : WorkflowStepExecution} (sound : Sound db)
    (hop : c.operation = .keepAliveStep step.workflowExecutionId step.stepName workerId)
    (hr : c.result db = .ok (.step renewed)) :
    Acquires db c workerId step renewed.stored.leaseExpiresAt := by
  obtain ⟨⟨d, before⟩, after⟩ := keepAlive_grants sound hop hr
  refine ⟨after, fun other t d' hne hother same => ?_, before.not_ended sound⟩
  exact absurd (hother.unique before sound same) hne

theorem result_of_reply (asks : request.operation = some c.operation)
    (answers : (atomic c.env (InProcessTransport.call request) db).1 = reply) :
    reply.map some = (c.result db).map Response.reply ∧
      (atomic c.env (InProcessTransport.call request) db).2 = c.after db := by
  obtain ⟨hreply, hafter⟩ := call_performs asks c.env db
  exact ⟨answers ▸ hreply, hafter⟩

theorem steps_of_reply {steps : List WorkflowStepExecution}
    (performs : reply.map some = (c.result db).map Response.reply)
    (h : reply = .ok (.steps steps)) : c.result db = .ok (.claimed steps) := by
  subst h
  cases hr : c.result db with
  | error e =>
    rw [hr] at performs
    cases performs
  | ok r =>
    rw [hr] at performs
    cases r <;> cases performs
    rfl

theorem Asks.named {thread : Worker.Thread} {claim claim' : Option WorkflowStepExecution}
    {op : Operation} (h : Asks config thread reply claim request claim')
    (hop : request.operation = some op) :
    op.workerId = some config.workerId := by
  cases h with
  | poll =>
    obtain rfl := Option.some_inj.mp hop
    rfl
  | keepAlive step =>
    obtain rfl := Option.some_inj.mp hop
    rfl
  | @report step outcome handled =>
    cases outcome with
    | none =>
      obtain rfl := Option.some_inj.mp hop
      rfl
    | some outcome => cases outcome <;> (obtain rfl := Option.some_inj.mp hop; rfl)

theorem fresh_of_worker (h : c.operation.workerId = some workerId) : c.Fresh db :=
  Call.fresh_of_not_start fun name version input hop => by
    rw [hop] at h
    cases h

theorem Asks.acquires {thread : Worker.Thread} {claim claim' : Option WorkflowStepExecution}
    (old : Option TimePoint) (h : Asks config thread reply claim request claim') (sound : Sound db)
    (hop : request.operation = some c.operation)
    (performs : reply.map some = (c.result db).map Response.reply) (hstep : claim' = some step) :
    Acquires db c config.workerId step
        ((granted reply).elim old fun step => step.stored.leaseExpiresAt) ∨
      (claim = some step ∧ c.after db = db ∧
        (granted reply).elim old (fun step => step.stored.leaseExpiresAt) = old) := by
  cases h with
  | poll =>
    left
    cases reply with
    | error e => cases hstep
    | ok response =>
      cases response with
      | steps steps =>
        have hr := steps_of_reply performs rfl
        have hgranted : granted (.ok (.steps steps)) = some step := hstep
        rw [hgranted]
        exact poll_acquires sound (Option.some_inj.mp hop).symm hr (List.mem_of_mem_head? hstep)
      | _ => cases hstep
  | keepAlive renewing =>
    obtain rfl : renewing = step := Option.some_inj.mp hstep
    cases hr : c.result db with
    | error e =>
      right
      rw [hr] at performs
      cases reply with
      | error e' => exact ⟨rfl, Call.result_error hr, rfl⟩
      | ok response => cases performs
    | ok r =>
      left
      have hkeep : c.operation =
          .keepAliveStep renewing.workflowExecutionId renewing.stepName config.workerId :=
        (Option.some_inj.mp hop).symm
      obtain ⟨tx, hreturns, -⟩ := Call.result_ok hr
      simp only [hkeep, Operation.program, returns_bind, returns_pure] at hreturns
      obtain ⟨renewed, -, -, rfl, -⟩ := hreturns
      rw [hr] at performs
      cases reply with
      | error e => cases performs
      | ok response =>
        obtain rfl : response = .step renewed := Option.some_inj.mp (Except.ok.inj performs)
        exact keepAlive_acquires sound hkeep hr
  | report => cases hstep

namespace Member

def Lapsed (m : Member) (now : TimePoint) : Prop := ∃ d ∈ m.deadline, d ≤ now

/-- The store keeps the worker's claim for it, its lease has run out, or its execution has ended. -/
def Accounted (m : Member) (store : Store E) : Prop :=
  ∀ step, m.claim = some step → (∃ d ∈ m.deadline, HeldUntil store.db m.id step d) ∨
    m.Lapsed store.now ∨ Ended store.db step.workflowExecutionId

theorem Lapsed.mono {now now' : TimePoint} (h : m.Lapsed now) (hle : now ≤ now') : m.Lapsed now' := by
  obtain ⟨d, hd, hnow⟩ := h
  exact ⟨d, hd, hnow.trans hle⟩

end Member

/-- Two workers under different names. If both claim one execution, a lease has run out. -/
structure Apart (now : TimePoint) (m m' : Member) : Prop where
  distinct : m.id ≠ m'.id
  lapsed : ∀ step step', m.claim = some step → m'.claim = some step' →
    step.workflowExecutionId = step'.workflowExecutionId → m.Lapsed now ∨ m'.Lapsed now

theorem Apart.symm {now : TimePoint} (h : Apart now m m') : Apart now m' m :=
  ⟨h.distinct.symm,
    fun step step' hstep hstep' same => (h.lapsed step' step hstep' hstep same.symm).symm⟩

theorem Apart.mono {now now' : TimePoint} (h : Apart now m m') (hle : now ≤ now') :
    Apart now' m m' :=
  ⟨h.distinct, fun step step' hstep hstep' same =>
    (h.lapsed step step' hstep hstep' same).imp (·.mono hle) (·.mono hle)⟩

theorem Timed.now_le {now now' : TimePoint} (h : Timed now now' c) : now ≤ c.now ∧ c.now ≤ now' :=
  ⟨h.nondecreasing.1, h.bounded 0⟩

theorem Member.Accounted.kept {now now' : TimePoint} (h : m.Accounted ⟨db, now⟩) (sound : Sound db)
    (call : Call.Step db c db') (foreign : c.operation.workerId ≠ some m.id)
    (timed : Timed now now' c) : m.Accounted ⟨db', now'⟩ := by
  obtain ⟨hbefore, hafter⟩ := timed.now_le
  intro step hstep
  rcases h step hstep with ⟨d, hd, held⟩ | hlapsed | hended
  · rcases held.kept sound call foreign with hkept | hnow | hended
    · exact .inl ⟨d, hd, hkept⟩
    · exact .inr (.inl ⟨d, hd, hnow.trans hafter⟩)
    · exact .inr (.inr hended)
  · exact .inr (.inl (hlapsed.mono (hbefore.trans hafter)))
  · exact .inr (.inr (hended.kept sound call))

theorem Acquires.lapsed {now now' : TimePoint} {t : WorkflowStepExecution} {d : Option TimePoint}
    (h : Acquires db c workerId step d) (accounted : m.Accounted ⟨db, now⟩) (timed : Timed now now' c)
    (hne : m.id ≠ workerId) (ht : m.claim = some t)
    (same : t.workflowExecutionId = step.workflowExecutionId) : m.Lapsed now' := by
  obtain ⟨hbefore, hafter⟩ := timed.now_le
  rcases accounted t ht with ⟨d', hd', held⟩ | hlapsed | hended
  · exact ⟨d', hd', (h.others m.id t d' hne held same).trans hafter⟩
  · exact hlapsed.mono (hbefore.trans hafter)
  · exact absurd (same ▸ hended) h.running

theorem MemberStep.accounts {e : MemberEvent} (h : MemberStep i store m e store' m')
    (sound : Sound store.db) (hm : m.Accounted store) :
    (Sound store'.db ∧ store.now ≤ store'.now) ∧ m'.Accounted store' ∧ ∀ b : Member,
      b.Accounted store → Apart store.now m b → b.Accounted store' ∧ Apart store'.now m' b := by
  cases h with
  | @own e worker h own =>
    have hkeeps : Member.claim { m with worker := worker } = m.claim ∨
        Member.claim { m with worker := worker } = none := worker_keeps h own
    refine ⟨⟨sound, le_rfl⟩, fun step hstep => ?_, fun b hb apart =>
      ⟨hb, apart.distinct, fun step step' hstep hstep' same => ?_⟩⟩
    · rcases hkeeps with hsame | hnone
      · exact hm step (hsame.symm.trans hstep)
      · exact absurd (hnone.symm.trans hstep) (by simp)
    · rcases hkeeps with hsame | hnone
      · exact apart.lapsed step step' (hsame.symm.trans hstep) hstep' same
      · exact absurd (hnone.symm.trans hstep) (by simp)
  | @served request x now reply worker h asks result answers timed =>
    obtain ⟨hperforms, hafter⟩ := result_of_reply asks answers
    have hasks := worker_asks h
    have hnamed := hasks.named asks
    have hcall : Call.Step store.db x.call (x.call.after store.db) :=
      ⟨fresh_of_worker hnamed, rfl⟩
    obtain ⟨hbefore, hlast⟩ := timed.now_le
    rw [hafter]
    refine ⟨⟨hcall.sound sound, hbefore.trans hlast⟩, fun step hstep => ?_, fun b hb apart =>
      ⟨?_, apart.distinct, fun step step' hstep hstep' same => ?_⟩⟩
    · rcases hasks.acquires m.deadline sound asks hperforms hstep with
        acquired | ⟨hclaim, hsame, hold⟩
      · exact .inl acquired.held
      · rw [hsame]
        have hdeadline : (m.serve worker reply).deadline = m.deadline := hold
        rcases hm step hclaim with held | hlapsed | hended
        · exact .inl (hdeadline.symm ▸ held)
        · refine .inr (.inl ?_)
          rw [Member.Lapsed, hdeadline]
          exact hlapsed.mono (hbefore.trans hlast)
        · exact .inr (.inr hended)
    · exact hb.kept sound hcall (hnamed ▸ fun hid => apart.distinct (Option.some_inj.mp hid)) timed
    · rcases hasks.acquires m.deadline sound asks hperforms hstep with
        acquired | ⟨hclaim, -, hold⟩
      · exact .inr (acquired.lapsed hb timed apart.distinct.symm hstep' same.symm)
      · have hdeadline : (m.serve worker reply).deadline = m.deadline := hold
        rcases apart.lapsed step step' hclaim hstep' same with hlapsed | hlapsed
        · refine .inl ?_
          rw [Member.Lapsed, hdeadline]
          exact hlapsed.mono (hbefore.trans hlast)
        · exact .inr (hlapsed.mono (hbefore.trans hlast))

structure Accounted (fleet : Fleet E) : Prop where
  sound : Sound fleet.store.db
  members : ∀ m ∈ fleet.members, m.Accounted fleet.store
  apart : fleet.members.Pairwise (Apart fleet.store.now)

theorem Step.accounted {e : FleetEvent} (h : Step fleet e fleet') (inv : fleet.Accounted) :
    fleet'.Accounted := by
  cases h with
  | @member i e store members h =>
    obtain ⟨m, m', hm, hstep, -⟩ := h.inv
    obtain ⟨⟨sound, hle⟩, -⟩ := hstep.accounts inv.sound (inv.members m hm)
    have hkept : (∀ m ∈ members, m.Accounted store) ∧ members.Pairwise (Apart store.now) :=
      h.all_pairwise (fun _ _ h => h.symm) (fun _ _ h => h.symm) inv.members inv.apart
        (fun _ _ h => h.mono hle) (fun _ _ hstep hm => (hstep.accounts inv.sound hm).2)
    obtain ⟨hmembers, hapart⟩ := hkept
    exact ⟨sound, hmembers, hapart⟩
  | @other x db now h foreign timed =>
    obtain ⟨hbefore, hlast⟩ := timed.now_le
    exact ⟨h.1.sound inv.sound, fun m hm => (inv.members m hm).kept inv.sound h.1 (foreign m hm) timed,
      inv.apart.imp (·.mono (hbefore.trans hlast))⟩

theorem start_accounted {configs : List Config} {now : TimePoint}
    (distinct : (configs.map Config.workerId).Nodup) : (start E configs now).Accounted := by
  refine ⟨sound_empty, fun m hm => ?_, ?_⟩
  · obtain ⟨config, -, rfl⟩ := List.mem_map.mp hm
    intro step hstep
    cases hstep
  · refine List.pairwise_map.mpr ((List.pairwise_map.mp distinct).imp ?_)
    intro config config' hne
    exact ⟨hne, fun step step' hstep => by cases hstep⟩

/-- No two workers of a fleet are at work on one execution before a lease of theirs has run out: a
worker's step is its own until the deadline that it was granted, or its execution has ended. -/
theorem claims_exclusive {configs : List Config} {now : TimePoint}
    (distinct : (configs.map Config.workerId).Nodup)
    (run : Run Step (start E configs now) events fleet) :
    (∀ m ∈ fleet.members, ∀ step, m.claim = some step →
      (∃ d ∈ m.deadline, HeldUntil fleet.store.db m.id step d) ∨ m.Lapsed fleet.store.now ∨
        Ended fleet.store.db step.workflowExecutionId) ∧
    fleet.members.Pairwise fun m m' => ∀ step step', m.claim = some step → m'.claim = some step' →
      step.workflowExecutionId = step'.workflowExecutionId →
        m.Lapsed fleet.store.now ∨ m'.Lapsed fleet.store.now := by
  have inv := run.invariant (fun _ _ _ inv h => h.accounted inv) (start_accounted distinct)
  exact ⟨inv.members, inv.apart.imp Apart.lapsed⟩

theorem Timed.stopped {now t : TimePoint} (h : ∀ n, c.reading n = t) (hle : now ≤ t) :
    Timed now t c :=
  ⟨⟨hle.trans (h 0).ge, fun n m _ => ((h n).trans (h m).symm).le⟩, fun n => (h n).le⟩

theorem polledStep_of_performs (performs : reply.map some = (c.result db).map Response.reply) :
    Worker.polledStep (some reply) = (Entry.mk c (c.result db)).claimed.head? := by
  cases hr : c.result db with
  | error e =>
    rw [hr] at performs
    cases reply with
    | error e' => rfl
    | ok response => cases performs
  | ok r =>
    rw [hr] at performs
    cases reply with
    | error e => cases performs
    | ok response => cases r <;> cases performs <;> rfl

theorem run_polls (store : Store E) (before after : List Member) (m : Member) (c : Call)
    (now : TimePoint) (looping : m.worker = {})
    (hop : m.config.pollRequest.operation = some c.operation) (timed : Timed store.now now c) :
    ∃ events reply, Run Step ⟨store, before ++ m :: after⟩ events ⟨⟨c.after store.db, now⟩,
        before ++ m.serve { thread := .polling (.served reply) } reply :: after⟩ ∧
      Worker.polledStep (some reply) = (Entry.mk c (c.result store.db)).claimed.head? := by
  obtain ⟨config, worker, deadline, claimed⟩ := m
  obtain rfl : worker = {} := looping
  obtain ⟨hperforms, hafter⟩ := result_of_reply hop rfl
  have hpoll : Worker.Step config {} (.thread .internal) { thread := .polling .wanted } :=
    .thread (.poll rfl)
  have hsend : Worker.Step config { thread := .polling .wanted }
      (.thread (.call config.pollRequest .enter)) { thread := .polling .sent } :=
    .thread (.call .enter)
  have hserve : MemberStep before.length store
      { config := config, worker := { thread := .polling .sent }, deadline := deadline,
        claimed := claimed } (.served config.pollRequest ⟨c, c.result store.db⟩) _ _ :=
    .served (.thread (.call (.serve _))) hop rfl rfl timed
  rw [hafter] at hserve
  exact ⟨_, _, .cons (.member (.mk before after (.own hpoll id))) <|
    .cons (.member (.mk before after (.own hsend id))) <|
    .single (.member (.mk before after hserve)), polledStep_of_performs hperforms⟩

theorem step_serves (fleet : Fleet E) (c : Call) (now : TimePoint)
    (fresh : c.isFresh fleet.store.db = true)
    (foreign : c.operation.workerId = none) (timed : Timed fleet.store.now now c) :
    Step fleet (.other ⟨c, c.result fleet.store.db⟩)
      ⟨⟨c.after fleet.store.db, now⟩, fleet.members⟩ :=
  .other ⟨⟨Call.fresh_of_isFresh fresh, rfl⟩, rfl⟩ (fun m _ => by simp [foreign]) timed

def shipper (workerId : String) : Config where
  workflowName := "order"
  workflowVersion := 1
  workerId := workerId
  handlers := registerStep [] "ship" fun _ outcome => outcome = .returned (.object [])

theorem run_begun (configs : List Config) : ∃ events,
    Run Step (start Sample.store configs 0) events
      ⟨⟨Sample.after (Sample.begin (Sample.definition false 0)), 1000000⟩,
        (start Sample.store configs 0).members⟩ := by
  have hfresh : (Sample.start 1000000 0).isFresh
      (Sample.after [Sample.register (Sample.definition false 0)]) = true := by decide +kernel
  have hlater : (0 : TimePoint) ≤ 1000000 := by decide
  have hregister := step_serves (start Sample.store configs 0)
    (Sample.register (Sample.definition false 0)) 0 rfl rfl (.stopped (fun _ => rfl) le_rfl)
  have hstart := step_serves ⟨⟨Sample.after [Sample.register (Sample.definition false 0)], 0⟩,
    (start Sample.store configs 0).members⟩ (Sample.start 1000000 0) 1000000 hfresh rfl
    (.stopped (fun _ => rfl) hlater)
  exact ⟨_, (Run.single hregister).snoc hstart⟩

theorem claims_exclusive_two_workers : ∃ (fleet : Fleet Sample.store) (m m' : Member)
    (step step' : WorkflowStepExecution), fleet.members = [m, m'] ∧ m.claim = some step ∧
      m'.claim = some step' ∧ step.workflowExecutionId = step'.workflowExecutionId ∧
      (m.Lapsed fleet.store.now ∨ m'.Lapsed fleet.store.now) := by
  let calls := Sample.begin (Sample.definition false 0)
  let poll := Sample.poll 2000000 "first" (Sample.script 0 "ship" calls)
  let poll' := Sample.poll 20000000000 "second" (Sample.script 0 "ship" (calls ++ [poll]))
  obtain ⟨_, hbegun⟩ := run_begun [shipper "first", shipper "second"]
  obtain ⟨_, reply, hpoll, hclaimed⟩ := run_polls (E := Sample.store)
    ⟨Sample.after calls, 1000000⟩ [] [{ config := shipper "second" }] { config := shipper "first" }
    poll 2000000 rfl rfl (.stopped (fun _ => rfl) (by decide))
  obtain ⟨_, reply', hpoll', hclaimed'⟩ := run_polls (E := Sample.store)
    ⟨Sample.after (calls ++ [poll]), 2000000⟩
    [Member.serve { config := shipper "first" } { thread := .polling (.served reply) } reply] []
    { config := shipper "second" } poll' 20000000000 rfl rfl (.stopped (fun _ => rfl) (by decide))
  have distinct : ([shipper "first", shipper "second"].map Config.workerId).Nodup := by decide
  have hexclusive := (claims_exclusive distinct ((hbegun.append hpoll).append hpoll')).2
  have hclaim : (Member.serve { config := shipper "first" } { thread := .polling (.served reply) }
      reply).claim.map WorkflowStepExecution.workflowExecutionId = some (Sample.id 0) := by
    refine (congrArg (Option.map _) hclaimed).trans ?_
    decide +kernel
  have hclaim' : (Member.serve { config := shipper "second" } { thread := .polling (.served reply') }
      reply').claim.map WorkflowStepExecution.workflowExecutionId = some (Sample.id 0) := by
    refine (congrArg (Option.map _) hclaimed').trans ?_
    decide +kernel
  obtain ⟨step, hstep, hid⟩ := Option.map_eq_some_iff.mp hclaim
  obtain ⟨step', hstep', hid'⟩ := Option.map_eq_some_iff.mp hclaim'
  have hsame := hid.trans hid'.symm
  have hlapsed := (List.pairwise_cons.mp hexclusive).1 _ List.mem_cons_self step step' hstep hstep'
    hsame
  exact ⟨_, _, _, step, step', rfl, hstep, hstep', hsame, hlapsed⟩

end Fleet
end WorkflowEngine
