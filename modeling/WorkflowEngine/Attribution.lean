import WorkflowEngine.Fleet

/-!
# Whose results are kept

Every Completed or Failed step of a worker of a fleet is an attempt that was
handed to that worker, and carries what its handler made of it. A call in
another name leaves the steps of a worker as they are, or fails them because
their lease has run out; a call of the worker settles the attempt it claims.
-/

namespace WorkflowEngine
open Txn Txn.Program Systems Orchestrator

def Event.workerId : Event → Option String
  | .claimed s _ => s.workerId
  | .renewed _ workerId _ | .finished _ workerId _ | .advanced _ workerId _ _ => some workerId
  | .retried _ workerId _ | .exhausted _ workerId _ => workerId
  | .registered _ | .started _ _ | .canceled _ => none

def WorkflowStepExecution.LeaseFailed (s : WorkflowStepExecution) : Prop :=
  s.status = .failed ∧ s.failureReason = some "lease expired"

namespace Ledger

variable {L L' : Ledger} {ev : Event} {s t : WorkflowStepExecution} {k : StepKey} {workerId : String}

theorem step_of_setStep (hs : (L.setStep t).step k = some s) :
    (k = t.stepKey ∧ s = t.stored) ∨ L.step k = some s := by
  rw [setStep_step] at hs
  split_ifs at hs with hk
  · exact .inl ⟨hk, (Option.some_inj.mp hs).symm⟩
  · exact .inr hs

theorem owned_of_setStep (hs : (L.setStep t).step k = some s) (owner : s.workerId = some workerId)
    (ht : t.workerId ≠ some workerId) : L.step k = some s := by
  rcases step_of_setStep hs with ⟨-, rfl⟩ | hs
  · exact absurd owner ht
  · exact hs

theorem owned_of_failing {e : WorkflowExecution} {reason : String} {now at_ : TimePoint}
    {other : Option String} (failing : L.Failing e t now other reason) (hother : other ≠ some workerId)
    (hs : (L.setStep (t.failedFor reason at_)).step k = some s) (owner : s.workerId = some workerId) :
    L.step k = some s ∨ s.LeaseFailed := by
  cases failing with
  | reported held => exact .inl (owned_of_setStep hs owner (held.owner ▸ hother))
  | expired h =>
    rcases step_of_setStep hs with ⟨-, rfl⟩ | hs
    · exact .inr ⟨rfl, rfl⟩
    · exact .inl hs

theorem Transition.owned (h : Transition L ev L') (hev : ev.workerId ≠ some workerId)
    (hs : L'.step k = some s) (owner : s.workerId = some workerId) :
    L.step k = some s ∨ s.LeaseFailed := by
  cases h with
  | register d => exact .inl hs
  | start =>
    have hbefore := owned_of_setStep hs owner (by simp [WorkflowExecution.pendingStep])
    rw [setExecution_step, takeLock_step] at hbefore
    exact .inl hbefore
  | claim => exact .inl (owned_of_setStep hs owner hev)
  | renew held => exact .inl (owned_of_setStep hs owner (held.owner.symm ▸ hev))
  | finish held => exact .inl (owned_of_setStep hs owner (held.owner.symm ▸ hev))
  | advance held =>
    have hbefore := owned_of_setStep hs owner (by simp [WorkflowExecution.pendingStep])
    exact .inl (owned_of_setStep hbefore owner (held.owner.symm ▸ hev))
  | retry failing =>
    have hbefore := owned_of_setStep hs owner (by simp [WorkflowExecution.pendingStep])
    exact owned_of_failing failing hev hbefore owner
  | exhaust failing => exact owned_of_failing failing hev hs owner
  | cancel =>
    rw [setExecution_step, cancelSteps_step, Option.map_eq_some_iff] at hs
    obtain ⟨t, ht, rfl⟩ := hs
    split_ifs at owner ⊢
    · cases owner
    · exact .inl ht

theorem owned_of_run {evs : List Event} (h : Run Transition L evs L')
    (hevs : ∀ ev ∈ evs, ev.workerId ≠ some workerId) (hs : L'.step k = some s)
    (owner : s.workerId = some workerId) : L.step k = some s ∨ s.LeaseFailed := by
  induction h with
  | nil => exact .inl hs
  | snoc _ last ih =>
    rcases last.owned (hevs _ (by simp)) hs owner with hbefore | hfailed
    · exact ih (fun ev hev => hevs ev (by simp [hev])) hbefore
    · exact .inr hfailed

theorem Transition.claiming {now : TimePoint} (h : Transition L (.claimed t now) L')
    (hs : L'.step k = some s) : L.step k = some s ∨ s.status = .running := by
  cases h with
  | claim =>
    rcases step_of_setStep hs with ⟨-, rfl⟩ | hs
    · exact .inr rfl
    · exact .inl hs

theorem claims_kept {now : TimePoint} {steps : List WorkflowStepExecution} {other : String}
    (h : Claims L other now steps L') (hs : L'.step k = some s) :
    L.step k = some s ∨ s.status = .running := by
  obtain ⟨run, -⟩ := h
  generalize hevs : steps.map (fun s => Event.claimed s now) = evs at run
  have hclaimed : ∀ ev ∈ evs, ∃ t, ev = .claimed t now := by
    rintro ev hev
    obtain ⟨t, -, rfl⟩ := List.mem_map.mp (hevs ▸ hev)
    exact ⟨t, rfl⟩
  clear hevs
  induction run with
  | nil => exact .inl hs
  | snoc _ last ih =>
    obtain ⟨t, rfl⟩ := hclaimed _ (List.mem_append_right _ (List.mem_singleton_self _))
    rcases last.claiming hs with hbefore | hrunning
    · exact ih hbefore fun ev hev => hclaimed ev (by simp [hev])
    · exact .inr hrunning

end Ledger

theorem Effect.named {L L' : Ledger} {now : TimePoint} {op : Operation} {r : Response}
    {evs : List Event} {workerId : String} (h : Effect L now op r evs L')
    (hop : op.workerId ≠ some workerId) : ∀ ev ∈ evs, ev.workerId ≠ some workerId := by
  cases h with
  | pollAndClaimWorkflowSteps claims complete =>
    intro ev hev
    obtain ⟨s, hs, rfl⟩ := List.mem_map.mp hev
    exact fun howner => hop ((claims.owner s hs).symm.trans howner)
  | keepAliveStep step => exact List.forall_mem_singleton.mpr hop
  | completeStep event step =>
    refine List.forall_mem_singleton.mpr ?_
    rcases event with rfl | ⟨next, rfl⟩
    · exact hop
    · exact hop
  | failStep event step =>
    refine List.forall_mem_singleton.mpr ?_
    rcases event with rfl | rfl
    · exact hop
    · exact hop
  | sweepExpiredLeases events run counted swept =>
    intro ev hev
    obtain ⟨key, rfl | rfl⟩ := events ev hev
    · simp [Event.workerId]
    · simp [Event.workerId]
  | _ => simp [Event.workerId]

variable {E : Engine schema} {env : Environment} {tx tx' : Tx E} {db db' : E.Db} {c : Call}
  {L : Ledger} {s : WorkflowStepExecution} {k : StepKey} {id name workerId : String}

theorem Call.Step.owned (call : Call.Step db c db') (sound : Sound db)
    (foreign : c.operation.workerId ≠ some workerId) (hs : (view db').step k = some s)
    (owner : s.workerId = some workerId) : (view db).step k = some s ∨ s.LeaseFailed := by
  rcases call.cases sound with ⟨r, evs, -, heff, -⟩ | ⟨-, rfl⟩
  · exact Ledger.owned_of_run heff.run (heff.named foreign) hs owner
  · exact .inl hs

/-- The attempt that a report settles: the one that its worker holds. -/
structure Settles (L : Ledger) (id name workerId : String) (k : StepKey) : Prop where
  held : ∃ e s now, L.Held e s workerId now ∧ e.currentKey = k
  execution : k.workflowExecutionId = id
  step : k.stepName = name

theorem settles_of_held {e : WorkflowExecution} {s₀ : WorkflowStepExecution} {now : TimePoint}
    (inv : Ledger.Lifecycle L) (held : L.Held e s₀ workerId now) (hid : e.workflowExecutionId = id)
    (hname : e.currentStepName = name) : Settles L id name workerId s₀.stepKey := by
  have hkey := held.toCurrent.step_key inv
  exact ⟨⟨e, s₀, now, held, hkey.symm⟩, (congrArg StepKey.workflowExecutionId hkey).trans hid,
    (congrArg StepKey.stepName hkey).trans hname⟩

theorem completeStep_settles {output : Json} {delay : Option Seconds} {r : WorkflowExecution}
    (h : Holds tx.view L) (inv : Ledger.Lifecycle L)
    (hr : Returns env (completeStep id name workerId output delay) tx r tx')
    (hs : (view tx'.view).step k = some s) (owner : s.workerId = some workerId) :
    L.step k = some s ∨ (Settles L id name workerId k ∧ s.status = .completed ∧ s.output = output) := by
  obtain ⟨-, e, tx₁, s₀, tx₂, d, tx₃, decision, tx₄, he, hs₀, hd, -, hv₄, -, houtcome⟩ :=
    completeStep_cases hr
  obtain ⟨hid, hname, hpe, hps, held, hL⟩ := held_of_request h he rfl rfl hs₀
  obtain ⟨-, hv, -⟩ := getDefinitionOf_spec hd
  have hL₁ := ((hL.of_eq hv).putStep (s₀.completedWith output _) hps).of_eq hv₄
  have hsettles := settles_of_held inv held hid hname
  have settled : ∀ {at_ : TimePoint}, (L.setStep (s₀.completedWith output at_)).step k = some s →
      L.step k = some s ∨
        (Settles L id name workerId k ∧ s.status = .completed ∧ s.output = output) := by
    intro at_ hs
    rcases Ledger.step_of_setStep hs with ⟨rfl, rfl⟩ | hs
    · exact .inr ⟨hsettles, rfl, rfl⟩
    · exact .inl hs
  rcases houtcome with ⟨n, rfl, hv'⟩ | hadvance
  · have hL₂ := (hL₁.putExecution (e.completedAtState decision.updatedState _) hpe).of_eq hv'
    rw [hL₂.view_eq] at hs
    exact settled hs
  · obtain ⟨next, createdAt, scheduledAt, -, hnext, hL₂⟩ :=
      advance_spec (e := { e with state := decision.updatedState }) hL₁ hpe hadvance
    rw [hL₂.view_eq] at hs
    exact settled (Ledger.owned_of_setStep hs owner (by simp [WorkflowExecution.pendingStep]))

theorem failStep_settles {reason : String} {r : WorkflowExecution} (h : Holds tx.view L)
    (inv : Ledger.Lifecycle L) (hr : Returns env (failStep id name workerId reason) tx r tx')
    (hs : (view tx'.view).step k = some s) (owner : s.workerId = some workerId) :
    L.step k = some s ∨
      (Settles L id name workerId k ∧ s.status = .failed ∧ s.failureReason = some reason) := by
  obtain ⟨e, tx₁, s₀, tx₂, d, tx₃, step, db, he, hs₀, hd, -, hdb, houtcome⟩ := failStep_cases hr
  obtain ⟨hid, hname, hpe, hps, held, hL⟩ := held_of_request h he rfl rfl hs₀
  obtain ⟨-, hv, -⟩ := getDefinitionOf_spec hd
  have hL₁ := ((hL.of_eq hv).putStep (s₀.failedFor reason _) hps).of_eq hdb
  have hsettles := settles_of_held inv held hid hname
  have settled : ∀ {at_ : TimePoint}, (L.setStep (s₀.failedFor reason at_)).step k = some s →
      L.step k = some s ∨
        (Settles L id name workerId k ∧ s.status = .failed ∧ s.failureReason = some reason) := by
    intro at_ hs
    rcases Ledger.step_of_setStep hs with ⟨rfl, rfl⟩ | hs
    · exact .inr ⟨hsettles, rfl, rfl⟩
    · exact .inl hs
  rcases houtcome with ⟨-, rfl, n, hv'⟩ | ⟨-, n, rfl, hv'⟩
  · have hL₂ := (hL₁.enter (e := e.retried) hpe rfl).of_eq hv'
    rw [hL₂.view_eq] at hs
    exact settled (Ledger.owned_of_setStep hs owner (by simp [WorkflowExecution.pendingStep]))
  · have hL₂ := (hL₁.putExecution (e.failedFor reason _) hpe).of_eq hv'
    rw [hL₂.view_eq] at hs
    exact settled hs

theorem active_unique {k' : StepKey} {s' : WorkflowStepExecution} (sound : Sound db)
    (hs : (view db).step k = some s) (hs' : (view db).step k' = some s') (active : s.status.Active)
    (active' : s'.status.Active) (same : k.workflowExecutionId = k'.workflowExecutionId) : k = k' := by
  obtain ⟨e, hcur, rfl, -, -⟩ := sound.lifecycle.current_of_active hs active
  obtain ⟨e', hcur', rfl, -, -⟩ := sound.lifecycle.current_of_active hs' active'
  have he := hcur.execution
  have hid : e.workflowExecutionId = e'.workflowExecutionId := same
  rw [hid, hcur'.execution] at he
  exact congrArg _ (Option.some_inj.mp he).symm

theorem kept_of_poll {name : String} {version : Int32} {maxResults : ℕ} (sound : Sound db)
    (hop : c.operation = .pollAndClaimWorkflowSteps name version workerId maxResults)
    (hs : (view (c.after db)).step k = some s) : (view db).step k = some s ∨ s.status = .running := by
  have fresh : c.Fresh db := Call.fresh_of_not_start fun _ _ _ hstart => by
    rw [hop] at hstart
    cases hstart
  rcases Call.Step.cases ⟨fresh, rfl⟩ sound with ⟨r, evs, -, heff, -⟩ | ⟨-, hsame⟩
  · rw [hop] at heff
    generalize view (c.after db) = L' at hs heff
    cases heff with
    | pollAndClaimWorkflowSteps claims complete => exact Ledger.claims_kept claims hs
  · exact .inl (hsame ▸ hs)

theorem running_of_poll {step : WorkflowStepExecution} {version : Int32} {maxResults : ℕ}
    {steps : List WorkflowStepExecution} (sound : Sound db) (sound' : Sound (c.after db))
    (hop : c.operation = .pollAndClaimWorkflowSteps name version workerId maxResults)
    (hr : c.result db = .ok (.claimed steps)) (hstep : step ∈ steps) :
    ∃ s, (view (c.after db)).step step.stepKey = some s ∧ s.status = .running := by
  obtain ⟨tx, hreturns, hview⟩ := Call.result_ok hr
  simp only [hop, Operation.program, returns_bind, returns_pure] at hreturns
  obtain ⟨claimed, tx', hpoll, hsteps, rfl⟩ := hreturns
  obtain rfl : steps = claimed := by simpa using hsteps
  obtain ⟨row, -, hstored⟩ := poll_stores sound.encoded.keyed hpoll
  obtain ⟨hget, s, -, lease, -, rfl⟩ := hstored step hstep
  rw [hview, ← WorkflowStepExecution.key_toRow_text] at hget
  obtain ⟨hrow, -, -⟩ := sound'.encoded.step_row hget
  rw [WorkflowStepExecution.fromRow_toRow, WorkflowStepExecution.stored_stepKey] at hrow
  refine ⟨_, Ledger.step_eq_some.mpr ⟨_, hrow, rfl⟩, ?_⟩
  rw [WorkflowStepExecution.fromRow_toRow]
  rfl

theorem kept_of_keepAlive (sound : Sound db) (hop : c.operation = .keepAliveStep id name workerId)
    (hs : (view (c.after db)).step k = some s) : (view db).step k = some s ∨
      (s.status = .running ∧ ∃ t, (view db).step k = some t ∧ t.workerId = s.workerId ∧
        t.status = .running) := by
  have hrequest : c.operation.request = some (id, name, workerId) := by
    rw [hop]
    rfl
  have fresh : c.Fresh db := Call.fresh_of_request hrequest
  rcases Call.Step.cases ⟨fresh, rfl⟩ sound with ⟨r, evs, -, heff, -⟩ | ⟨-, hsame⟩
  · rw [hop] at heff
    generalize view (c.after db) = L' at hs heff
    cases heff with
    | @keepAliveStep _ e r L' step =>
      generalize hev : Event.renewed e.currentKey workerId c.now = ev at step
      cases step with
      | @renew e' t d other now at_ lease held definition duration =>
        rcases Ledger.step_of_setStep hs with ⟨rfl, rfl⟩ | hs
        · have hkey := held.toCurrent.step_key sound.lifecycle
          refine .inr ⟨held.claimed, t, ?_, rfl, held.claimed⟩
          exact (congrArg _ hkey).trans held.step
        · exact .inl hs
      | _ => cases hev
  · exact .inl (hsame ▸ hs)

namespace Fleet
open Worker (Config HandledAs)
open Transport (Request)
open ExecuteStep

/-- The reason under which an outcome is reported as a failure. -/
def reasonOf (step : WorkflowStepExecution) : Option Outcome → Option String
  | some (.returned _) => none
  | some (.threw what) => some what
  | some .threwUnknown => some "unknown error in step handler"
  | none => some ("no handler registered for step: " ++ step.stepName)

/-- A step of a worker that is not Running any more is one whose lease ran out, or an attempt that
the worker was handed with what its handler made of it. -/
inductive Member.Recorded (m : Member) (s : WorkflowStepExecution) : Prop
  | completed {step : WorkflowStepExecution} (status : s.status = .completed)
      (handed : step ∈ m.claimed) (key : step.stepKey = s.stepKey)
      (handled : HandledAs m.config.handlers step (some (.returned s.output)))
  | failed {step : WorkflowStepExecution} {outcome : Option Outcome} (status : s.status = .failed)
      (handed : step ∈ m.claimed) (key : step.stepKey = s.stepKey)
      {reason : String} (handled : HandledAs m.config.handlers step outcome)
      (said : reasonOf step outcome = some reason) (recorded : s.failureReason = some reason)
  | lapsed (h : s.LeaseFailed)

structure Member.Attributed (m : Member) (db : E.Db) : Prop where
  handled : ∀ step outcome, threadOutcome m.worker.thread = some (step, outcome) →
    HandledAs m.config.handlers step outcome
  handed : ∀ step, m.claim = some step → step ∈ m.claimed
  own : ∀ step, m.claim = some step → ∀ k s, (view db).step k = some s → s.workerId = some m.id →
    s.status = .running → k.workflowExecutionId = step.workflowExecutionId → k = step.stepKey
  recorded : ∀ k s, (view db).step k = some s → s.workerId = some m.id →
    s.status = .running ∨ m.Recorded s

variable {i : ℕ} {store store' : Store E} {m m' : Member} {config : Config} {worker worker' : Worker}
  {fleet fleet' : Fleet E} {events : List FleetEvent} {request : Request}
  {reply : Except Exception Transport.Response} {claim claim' : Option WorkflowStepExecution}

theorem Member.Attributed.kept (h : m.Attributed db) (sound : Sound db) (call : Call.Step db c db')
    (foreign : c.operation.workerId ≠ some m.id) : m.Attributed db' := by
  refine ⟨h.handled, h.handed, fun step hstep k s hs owner running same => ?_, fun k s hs owner => ?_⟩
  · rcases call.owned sound foreign hs owner with hbefore | hfailed
    · exact h.own step hstep k s hbefore owner running same
    · exact absurd (running.symm.trans hfailed.1) (by simp)
  · rcases call.owned sound foreign hs owner with hbefore | hfailed
    · exact h.recorded k s hbefore owner
    · exact .inr (.lapsed hfailed)

theorem handled_of_step {e : Worker.WorkerEvent} (h : Worker.Step config worker e worker')
    (handled : ∀ step outcome, threadOutcome worker.thread = some (step, outcome) →
      HandledAs config.handlers step outcome) (step : WorkflowStepExecution)
    (outcome : Option Outcome) (hstep : threadOutcome worker'.thread = some (step, outcome)) :
    HandledAs config.handlers step outcome := by
  cases h with
  | thread h =>
    generalize worker.thread = thread at h handled
    cases h with
    | execute h =>
      cases h with
      | unhandled h =>
        obtain ⟨rfl, rfl⟩ := Prod.mk.inj (Option.some_inj.mp hstep)
        exact h
      | finish h ends =>
        obtain ⟨rfl, rfl⟩ := Prod.mk.inj (Option.some_inj.mp hstep)
        exact ⟨_, h, ends⟩
      | construct => cases hstep
      | handle => cases hstep
      | pingCalling => cases hstep
      | pingHandling => cases hstep
      | reported => cases hstep
      | _ => exact handled step outcome hstep
    | _ => cases hstep
  | stop => exact handled step outcome hstep
  | join => exact handled step outcome hstep

theorem reportRequest_operation (workerId : String) (step : WorkflowStepExecution)
    (outcome : Option Outcome) :
    (∃ output, outcome = some (.returned output) ∧
      (reportRequest workerId step outcome).operation = some (.completeStep step.workflowExecutionId
        step.stepName workerId output none)) ∨
    ∃ reason, reasonOf step outcome = some reason ∧
      (reportRequest workerId step outcome).operation = some (.failStep step.workflowExecutionId
        step.stepName workerId reason) := by
  cases outcome with
  | none => exact .inr ⟨_, rfl, rfl⟩
  | some outcome =>
    cases outcome with
    | returned output => exact .inl ⟨output, rfl, rfl⟩
    | threw what => exact .inr ⟨what, rfl, rfl⟩
    | threwUnknown => exact .inr ⟨_, rfl, rfl⟩

theorem settled_of_report {step : WorkflowStepExecution} {outcome : Option Outcome}
    (sound : Sound db) (hm : m.Attributed db) (hclaim : m.claim = some step)
    (houtcome : threadOutcome m.worker.thread = some (step, outcome))
    (hop : (reportRequest m.config.workerId step outcome).operation = some c.operation)
    (hs : (view (c.after db)).step k = some s) (owner : s.workerId = some m.id) :
    (view db).step k = some s ∨ m.Recorded s := by
  cases hr : c.result db with
  | error e =>
    rw [Call.result_error hr] at hs
    exact .inl hs
  | ok r =>
    obtain ⟨tx, hreturns, hview⟩ := Call.result_ok hr
    have hattempt : Settles (view db) step.workflowExecutionId step.stepName m.id k →
        step.stepKey = s.stepKey := by
      rintro ⟨⟨e, t, now, held, rfl⟩, hid, -⟩
      obtain ⟨-, -, -, hkey⟩ := view_step.mp hs
      exact (hm.own step hclaim _ t held.step held.owner held.claimed hid).symm.trans hkey.symm
    have handed := hm.handed step hclaim
    have handled := hm.handled step outcome houtcome
    rw [← hview] at hs
    rcases reportRequest_operation m.config.workerId step outcome with
      ⟨output, rfl, hcomplete⟩ | ⟨reason, hreason, hfail⟩
    · rw [Option.some_inj.mp (hop.symm.trans hcomplete), Operation.program] at hreturns
      simp only [returns_bind, returns_pure] at hreturns
      obtain ⟨e, tx', hcompletes, -, rfl⟩ := hreturns
      rcases completeStep_settles sound.holds sound.lifecycle hcompletes hs owner with
        hbefore | ⟨hsettles, hstatus, rfl⟩
      · exact .inl hbefore
      · exact .inr (.completed hstatus handed (hattempt hsettles) handled)
    · rw [Option.some_inj.mp (hop.symm.trans hfail), Operation.program] at hreturns
      simp only [returns_bind, returns_pure] at hreturns
      obtain ⟨e, tx', hfails, -, rfl⟩ := hreturns
      rcases failStep_settles sound.holds sound.lifecycle hfails hs owner with
        hbefore | ⟨hsettles, hstatus, hsaid⟩
      · exact .inl hbefore
      · exact .inr (.failed hstatus handed (hattempt hsettles) handled hreason hsaid)

theorem Asks.recorded (h : Asks m.config m.worker.thread reply m.claim request claim')
    (sound : Sound db) (hm : m.Attributed db) (hop : request.operation = some c.operation)
    (hs : (view (c.after db)).step k = some s) (owner : s.workerId = some m.id) :
    (view db).step k = some s ∨ s.status = .running ∨ m.Recorded s := by
  generalize hclaim : m.claim = claim at h
  cases h with
  | poll => exact (kept_of_poll sound (Option.some_inj.mp hop).symm hs).imp_right .inl
  | keepAlive step =>
    exact (kept_of_keepAlive sound (Option.some_inj.mp hop).symm hs).imp_right fun h => .inl h.1
  | report handled => exact (settled_of_report sound hm hclaim handled hop hs owner).imp_right .inr

theorem Asks.own {step : WorkflowStepExecution}
    (h : Asks m.config m.worker.thread reply m.claim request claim') (sound : Sound db)
    (sound' : Sound (c.after db)) (hm : m.Attributed db)
    (hop : request.operation = some c.operation)
    (performs : reply.map some = (c.result db).map Response.reply) (hstep : claim' = some step)
    (hs : (view (c.after db)).step k = some s) (owner : s.workerId = some m.id)
    (running : s.status = .running) (same : k.workflowExecutionId = step.workflowExecutionId) :
    k = step.stepKey := by
  generalize hclaim : m.claim = claim at h
  cases h with
  | poll =>
    cases reply with
    | error e => cases hstep
    | ok response =>
      cases response with
      | steps steps =>
        have hr := steps_of_reply performs rfl
        obtain ⟨t, ht, htrunning⟩ := running_of_poll sound sound' (Option.some_inj.mp hop).symm hr
          (List.mem_of_mem_head? hstep)
        exact active_unique sound' hs ht (.inr running) (.inr htrunning) same
      | _ => cases hstep
  | keepAlive renewing =>
    obtain rfl : renewing = step := Option.some_inj.mp hstep
    rcases kept_of_keepAlive sound (Option.some_inj.mp hop).symm hs with
      hbefore | ⟨-, t, ht, howner, htrunning⟩
    · exact hm.own renewing hclaim k s hbefore owner running same
    · exact hm.own renewing hclaim k t ht (howner.trans owner) htrunning same
  | report => cases hstep

theorem Asks.handed {step : WorkflowStepExecution}
    (h : Asks m.config m.worker.thread reply m.claim request claim') (hm : m.Attributed db)
    (hstep : claim' = some step) : step ∈ m.claimed ++ (Worker.polledStep (some reply)).toList := by
  generalize hclaim : m.claim = claim at h
  cases h with
  | poll => exact List.mem_append_right _ (by simp [hstep])
  | keepAlive renewing =>
    obtain rfl : renewing = step := Option.some_inj.mp hstep
    exact List.mem_append_left _ (hm.handed renewing hclaim)
  | report => cases hstep

theorem Member.Recorded.mono (h : m.Recorded s) (hconfig : m'.config = m.config)
    (hclaimed : ∀ step ∈ m.claimed, step ∈ m'.claimed) : m'.Recorded s := by
  cases h with
  | completed status handed key handled =>
    exact .completed status (hclaimed _ handed) key (hconfig.symm ▸ handled)
  | failed status handed key handled said recorded =>
    exact .failed status (hclaimed _ handed) key (hconfig.symm ▸ handled) said recorded
  | lapsed h => exact .lapsed h

theorem MemberStep.attributed {e : MemberEvent} (h : MemberStep i store m e store' m')
    (sound : Sound store.db) (hm : m.Attributed store.db) :
    Sound store'.db ∧ m'.Attributed store'.db ∧ ∀ b : Member, b.Attributed store.db →
      m.id ≠ b.id → b.Attributed store'.db ∧ m'.id ≠ b.id := by
  cases h with
  | @own e worker h own =>
    have hkeeps : Member.claim { m with worker := worker } = m.claim ∨
        Member.claim { m with worker := worker } = none := worker_keeps h own
    have hclaim : ∀ step, Member.claim { m with worker := worker } = some step →
        m.claim = some step := by
      intro step hstep
      rcases hkeeps with hsame | hnone
      · exact hsame.symm.trans hstep
      · exact absurd (hnone.symm.trans hstep) (by simp)
    have hrecorded : ∀ k s, (view store.db).step k = some s → s.workerId = some m.id →
        s.status = .running ∨ Member.Recorded { m with worker := worker } s :=
      fun k s hs owner => (hm.recorded k s hs owner).imp_right (·.mono rfl fun _ h => h)
    exact ⟨sound, ⟨handled_of_step h hm.handled, fun step hstep => hm.handed step (hclaim step hstep),
      fun step hstep => hm.own step (hclaim step hstep), hrecorded⟩, fun b hb hne => ⟨hb, hne⟩⟩
  | @served request x now reply worker h asks result answers timed =>
    obtain ⟨hperforms, hafter⟩ := result_of_reply asks answers
    have hasks := worker_asks h
    have hnamed := hasks.named asks
    have hcall : Call.Step store.db x.call (x.call.after store.db) :=
      ⟨fresh_of_worker hnamed, rfl⟩
    have sound' := hcall.sound sound
    have hmore : ∀ step ∈ m.claimed, step ∈ (m.serve worker reply).claimed :=
      fun _ h => List.mem_append_left _ h
    rw [hafter]
    refine ⟨sound', ⟨handled_of_step h hm.handled, fun step hstep => hasks.handed hm hstep,
      fun step hstep k s => hasks.own sound sound' hm asks hperforms hstep, ?_⟩,
      fun b hb hne => ⟨hb.kept sound hcall (hnamed ▸ fun hid => hne (Option.some_inj.mp hid)), hne⟩⟩
    intro k s hs owner
    rcases hasks.recorded sound hm asks hs owner with hbefore | hrunning | hrecorded
    · exact (hm.recorded k s hbefore owner).imp_right (·.mono rfl hmore)
    · exact .inl hrunning
    · exact .inr (hrecorded.mono rfl hmore)

structure Attributed (fleet : Fleet E) : Prop where
  sound : Sound fleet.store.db
  members : ∀ m ∈ fleet.members, m.Attributed fleet.store.db
  distinct : fleet.members.Pairwise fun m m' => m.id ≠ m'.id

theorem Step.attributed {e : FleetEvent} (h : Step fleet e fleet') (inv : fleet.Attributed) :
    fleet'.Attributed := by
  cases h with
  | @member i e store members h =>
    obtain ⟨m, m', hm, hstep, -⟩ := h.inv
    have hkept : (∀ m ∈ members, m.Attributed store.db) ∧
        members.Pairwise fun m m' => m.id ≠ m'.id :=
      h.all_pairwise (fun _ _ h => h.symm) (fun _ _ h => h.symm) inv.members inv.distinct
        (fun _ _ h => h) (fun _ _ hstep hm => (hstep.attributed inv.sound hm).2)
    obtain ⟨hmembers, hdistinct⟩ := hkept
    exact ⟨(hstep.attributed inv.sound (inv.members m hm)).1, hmembers, hdistinct⟩
  | @other x db now h foreign timed =>
    exact ⟨h.1.sound inv.sound, fun m hm => (inv.members m hm).kept inv.sound h.1 (foreign m hm),
      inv.distinct⟩

theorem start_attributed {configs : List Config} {now : TimePoint}
    (distinct : (configs.map Config.workerId).Nodup) : (start E configs now).Attributed := by
  refine ⟨sound_empty, fun m hm => ?_, List.pairwise_map.mpr (List.pairwise_map.mp distinct)⟩
  obtain ⟨config, -, rfl⟩ := List.mem_map.mp hm
  refine ⟨fun step outcome h => ?_, fun step h => ?_, fun step h => ?_, fun k s hs => ?_⟩
  · cases h
  · cases h
  · cases h
  obtain ⟨row, hrow, -⟩ := view_step.mp hs
  rw [start, E.get_empty] at hrow
  cases hrow

/-- Whatever the store keeps of a worker of a fleet is Running, has lost its lease, or is an attempt
that the worker was handed, with what its handler made of it. -/
theorem results_attributed {configs : List Config} {now : TimePoint}
    (distinct : (configs.map Config.workerId).Nodup)
    (run : Run Step (start E configs now) events fleet) : ∀ m ∈ fleet.members, ∀ s,
      StoredStep fleet.store.db s → s.workerId = some m.id → s.status = .running ∨ m.Recorded s := by
  have inv := run.invariant (fun _ _ _ inv h => h.attributed inv) (start_attributed distinct)
  rintro m hm s ⟨row, hrow, rfl⟩ owner
  exact (inv.members m hm).recorded _ _ (view_step.mpr ⟨row, hrow, rfl, rfl⟩) owner

theorem run_own (store : Store E) (before after : List Member) (m : Member)
    {es : List Worker.WorkerEvent}
    (run : Run (Worker.Step m.config) worker es worker') (own : ∀ e ∈ es, ¬ IsServe e) :
    Run Step ⟨store, before ++ { m with worker := worker } :: after⟩
      (es.map fun e => .member before.length (.own e))
      ⟨store, before ++ { m with worker := worker' } :: after⟩ := by
  induction run with
  | nil => exact .nil
  | snoc _ last ih =>
    rw [List.map_append]
    have hlast := own _ (List.mem_append_right _ (List.mem_singleton_self _))
    exact (ih fun e he => own e (List.mem_append_left _ he)).snoc
      (.member (.mk before after (.own last hlast)))

theorem run_handles (store : Store E) (before after : List Member) (m : Member)
    {step : WorkflowStepExecution} {handler : StepHandler} {outcome : Outcome}
    (hm : m.worker = { thread := .polling (.served reply) })
    (handed : Worker.polledStep (some reply) = some step)
    (registered : find m.config.handlers step.stepName = some handler) (ends : handler step outcome) :
    ∃ events, Run Step ⟨store, before ++ m :: after⟩ events ⟨store, before ++ { m with
      worker := { thread := .executing (.reporting step (some outcome) .sent) } } :: after⟩ := by
  obtain ⟨config, worker, deadline, claimed⟩ := m
  obtain rfl : worker = { thread := .polling (.served reply) } := hm
  have hown : Run (Worker.Step config) { thread := .polling (.served reply) } _
      { thread := .executing (.reporting step (some outcome) .sent) } :=
    .cons (.thread (.claimed (.answer _) handed)) <|
    .cons (.thread (.execute (.construct registered))) <|
    .cons (.thread (.execute (.handle registered))) <|
    .cons (.thread (.execute (.finish registered ends))) <|
    .cons (.thread (.execute (.close (by simp [KeepAlive.Locked])))) <|
    .cons (.thread (.execute (.pingJoining .lock))) <|
    .cons (.thread (.execute (.pingJoining (.exit rfl)))) <|
    .cons (.thread (.execute .join)) <|
    .single (.thread (.execute (.report .enter)))
  exact ⟨_, run_own store before after ⟨config, {}, deadline, claimed⟩ hown (by simp [IsServe])⟩

theorem run_reports (store : Store E) (before after : List Member) (m : Member) (c : Call)
    (now : TimePoint) {step : WorkflowStepExecution} {handler : StepHandler} {outcome : Outcome}
    (hm : m.worker = { thread := .polling (.served reply) })
    (handed : Worker.polledStep (some reply) = some step)
    (registered : find m.config.handlers step.stepName = some handler) (ends : handler step outcome)
    (hop : (reportRequest m.config.workerId step (some outcome)).operation = some c.operation)
    (timed : Timed store.now now c) : ∃ events m', Run Step ⟨store, before ++ m :: after⟩ events
      ⟨⟨c.after store.db, now⟩, before ++ m' :: after⟩ ∧ m'.id = m.id := by
  obtain ⟨_, hreports⟩ := run_handles store before after m hm handed registered ends
  obtain ⟨-, hafter⟩ := result_of_reply hop rfl
  have hserve : MemberStep before.length store
      { m with worker := { thread := .executing (.reporting step (some outcome) .sent) } }
      (.served (reportRequest m.config.workerId step (some outcome)) ⟨c, c.result store.db⟩) _ _ :=
    .served (.thread (.execute (.report (.serve _)))) hop rfl rfl timed
  rw [hafter] at hserve
  exact ⟨_, _, hreports.snoc (.member (.mk before after hserve)), rfl⟩

noncomputable def shipped : Call :=
  ⟨.completeStep (Sample.id 0) "ship" "first" (.object []) none,
    scripted 3000000 0 [] { workflowComplete := true }⟩

theorem results_attributed_shipped : ∃ (fleet : Fleet Sample.store) (m : Member)
    (s : WorkflowStepExecution), m ∈ fleet.members ∧ StoredStep fleet.store.db s ∧
      s.workerId = some m.id ∧ s.status = .completed ∧ m.Recorded s := by
  let calls := Sample.begin (Sample.definition false 0)
  let poll := Sample.poll 2000000 "first" (Sample.script 0 "ship" calls)
  obtain ⟨_, hbegun⟩ := run_begun [shipper "first"]
  obtain ⟨_, reply, hpoll, hclaimed⟩ := run_polls (E := Sample.store)
    ⟨Sample.after calls, 1000000⟩ [] [] { config := shipper "first" } poll 2000000 rfl rfl
    (.stopped (fun _ => rfl) (by decide))
  have hhanded : (Worker.polledStep (some reply)).map
      (fun s => (s.workflowExecutionId, s.stepName)) = some (Sample.id 0, "ship") := by
    rw [hclaimed]
    decide +kernel
  obtain ⟨step, hstep, hfields⟩ := Option.map_eq_some_iff.mp hhanded
  obtain ⟨hid, hname⟩ := Prod.mk.inj hfields
  have hop : (reportRequest "first" step (some (.returned (.object [])))).operation =
      some shipped.operation := by
    rw [shipped, ← hid, ← hname]
    rfl
  have registered : find (shipper "first").handlers step.stepName =
      some fun _ outcome => outcome = .returned (.object []) := by
    rw [hname]
    rfl
  obtain ⟨_, m, hreport, hm⟩ := run_reports (E := Sample.store)
    ⟨Sample.after (calls ++ [poll]), 2000000⟩ [] []
    (Member.serve { config := shipper "first" } { thread := .polling (.served reply) } reply) shipped
    3000000 rfl hstep registered rfl hop (.stopped (fun _ => rfl) (by decide))
  have distinct : ([shipper "first"].map Config.workerId).Nodup := by decide
  have hattributed := results_attributed distinct ((hbegun.append hpoll).append hreport) m
    List.mem_cons_self
  dsimp only at hattributed
  have hrow : (Sample.store.get (shipped.after (Sample.after (calls ++ [poll]))) .steps
      (stepExecutionKey (Sample.id 0) "ship" 0)).map (fun row : WorkflowStepExecutionRow =>
        (row.fromRow.status, row.fromRow.workerId, row.fromRow.stepKey)) =
      some (.completed, some "first", ⟨Sample.id 0, "ship", 0⟩) := by decide +kernel
  obtain ⟨row, found, hstored⟩ := Option.map_eq_some_iff.mp hrow
  obtain ⟨hstatus, hrest⟩ := Prod.mk.inj hstored
  obtain ⟨howner, hkey⟩ := Prod.mk.inj hrest
  have hmine : row.fromRow.workerId = some m.id := howner.trans (congrArg some hm.symm)
  have stored : StoredStep (shipped.after (Sample.after (calls ++ [poll]))) row.fromRow := by
    refine ⟨row, ?_, rfl⟩
    rw [hkey]
    exact found
  have hrecorded := (hattributed row.fromRow stored hmine).resolve_left (by simp [hstatus])
  generalize shipped.after (Sample.after (calls ++ [poll])) = db at stored
  exact ⟨⟨⟨db, 3000000⟩, [m]⟩, m, row.fromRow, List.mem_cons_self, stored, hmine, hstatus, hrecorded⟩

end Fleet
end WorkflowEngine
