import WorkflowEngine.Acceptance
import WorkflowEngine.Deadlines
import WorkflowEngine.Systems.Traces

/-!
# A workflow as a sequential program

Seen from one execution, the engine runs a sequential program: it stands at an
attempt of a step, and each attempt that ends moves it on, as the definition
and the decision of the logic say. Claims, renewals and whatever happens to
other executions do not move it.
-/

namespace WorkflowEngine
open Txn Txn.Program Systems Orchestrator Ledger

structure Position where
  status : WorkflowExecutionStatus
  stepName : String
  attempt : Int32
  state : Json
  failureReason : Option String

inductive Ending where
  | completes (decision : NextStepDecision)
  | fails (reason : String)
  | canceled

def Position.after (d : WorkflowDefinition) (p : Position) : Ending → Option Position
  | .completes decision =>
    if decision.workflowComplete then
      some { p with status := .completed, state := decision.updatedState }
    else decision.nextStepName.bind fun next =>
      if stepDefinitionExists d next then
        some { p with stepName := next, attempt := 0, state := decision.updatedState }
      else none
  | .fails reason =>
    match findStepDefinition d p.stepName with
    | .ok step =>
      if p.attempt < maxRetriesForStep step then some { p with attempt := p.attempt + 1 }
      else some { p with status := .failed, failureReason := some reason }
    | .error _ => none
  | .canceled => some { p with status := .canceled }

/-- A running execution moves on when its attempt ends. -/
def Proceeds (d : WorkflowDefinition) (p : Position) (ending : Ending) (q : Position) : Prop :=
  p.status = .running ∧ p.after d ending = some q

def WorkflowExecution.position (e : WorkflowExecution) : Position where
  status := e.status
  stepName := e.currentStepName
  attempt := e.currentStepAttempt
  state := e.state
  failureReason := e.failureReason

@[simp] theorem WorkflowExecution.position_stored (e : WorkflowExecution) :
    e.stored.position = e.position := rfl

variable {d : WorkflowDefinition} {e : WorkflowExecution} {decision : NextStepDecision}
  {reason next : String} {now : TimePoint}

theorem proceeds_finish (running : e.status = .running) (complete : decision.workflowComplete = true) :
    Proceeds d e.position (.completes decision)
      (e.completedAtState decision.updatedState now).position := by
  refine ⟨running, ?_⟩
  rw [Position.after, if_pos complete]
  rfl

theorem proceeds_advance (running : e.status = .running) (more : ¬ decision.workflowComplete = true)
    (hnext : decision.nextStepName = some next) (defined : stepDefinitionExists d next = true) :
    Proceeds d e.position (.completes decision)
      (e.movedTo decision.updatedState next).position := by
  refine ⟨running, ?_⟩
  rw [Position.after, if_neg more, hnext, Option.bind_some, if_pos defined]
  rfl

theorem Position.after_fails {p : Position} {step : WorkflowStep}
    (found : findStepDefinition d p.stepName = .ok step) :
    p.after d (.fails reason) = if p.attempt < maxRetriesForStep step
      then some { p with attempt := p.attempt + 1 }
      else some { p with status := .failed, failureReason := some reason } := by
  simp only [Position.after, found]

theorem proceeds_retry {step : WorkflowStep} (running : e.status = .running)
    (found : findStepDefinition d e.currentStepName = .ok step)
    (budget : e.currentStepAttempt < maxRetriesForStep step) :
    Proceeds d e.position (.fails reason) e.retried.position :=
  ⟨running, (Position.after_fails (p := e.position) found).trans (if_pos budget)⟩

theorem proceeds_exhaust {step : WorkflowStep} (running : e.status = .running)
    (found : findStepDefinition d e.currentStepName = .ok step)
    (spent : ¬ e.currentStepAttempt < maxRetriesForStep step) :
    Proceeds d e.position (.fails reason) (e.failedFor reason now).position :=
  ⟨running, (Position.after_fails (p := e.position) found).trans (if_neg spent)⟩

theorem proceeds_cancel (running : e.status = .running) :
    Proceeds d e.position .canceled (e.canceledAt now).position := ⟨running, rfl⟩

variable {E : Engine schema} {env : Environment} {tx tx' : Tx E} {db db' : E.Db}
  {id name workerId : String}

/-- The store has the execution's next attempt, free from a time that the clock tells. -/
def Opened (env : Environment) (db : E.Db) (delay : Option Seconds) (r : WorkflowExecution) : Prop :=
  ∃ n m input, E.get db .steps r.currentKey.text = some
    (r.pendingStep input (env.answer n .clock) (delay.map (env.answer m .clock).addSeconds)).toRow

theorem completeStep_proceeds {output : Json} {delay : Option Seconds} {r : WorkflowExecution}
    (enc : Encoded tx.view)
    (hr : Returns env (completeStep id name workerId output delay) tx r tx') :
    ∃ e d decision, (view tx.view).execution id = some e ∧ e.currentStepName = name ∧
      (view tx.view).definition e.versionKey = some d ∧
      env.answer (tx.ticks + 1) (.decideNextStep (e.completionContext output)) = .ok decision ∧
      Proceeds d e.position (.completes decision) r.position ∧ r.versionKey = e.versionKey ∧
      E.get tx'.view .executions id = some r.toRow ∧
      (r.status = .running → Opened env tx'.view delay r) := by
  simp only [completeStep, validateExecutionId, validateStepName, validateWorkerId, returns_bind,
    returns_throwIf, returns_decideNextStep, returns_nowForStorage, returns_putStep] at hr
  obtain ⟨-, _, ⟨-, rfl⟩, -, _, ⟨-, rfl⟩, -, _, ⟨-, rfl⟩, -, _, ⟨-, rfl⟩, e, tx₁, he, s, tx₂, hs,
    d, tx₃, hd, decision, _, ⟨hdecision, rfl⟩, _, _, ⟨-, rfl⟩, -, _, rfl, h⟩ := hr
  obtain ⟨hexec, rfl, hplain, hrunning, rfl, hv₁, ht₁⟩ := getCurrentExecution_spec enc he
  obtain ⟨-, -, -, hv₂⟩ := getClaimedStep_spec (hv₁.symm ▸ enc) hplain hs
  obtain ⟨hdef, -, ht₃⟩ := getDefinitionOf_spec hd
  rw [ht₃, getClaimedStep_ticks hs, ht₁] at hdecision
  rw [hv₂, hv₁] at hdef
  split_ifs at h with hcomplete
  · simp only [returns_bind, returns_nowForStorage, returns_putExecution, returns_pure] at h
    obtain ⟨_, _, ⟨-, rfl⟩, -, _, rfl, rfl, rfl⟩ := h
    refine ⟨e, d, decision, hexec, rfl, hdef, hdecision, proceeds_finish hrunning hcomplete, rfl, ?_,
      fun hr => by cases hr⟩
    rw [Tx.stage_view]
    exact E.get_put_self ..
  · obtain ⟨next, n, hnext, hdefined, rfl, hview⟩ := advance_cases h
    refine ⟨e, d, decision, hexec, rfl, hdef, hdecision,
      proceeds_advance hrunning hcomplete hnext hdefined, rfl, ?_, fun _ => ?_⟩
    · rw [hview, E.get_put_table _ _ (by decide)]
      exact E.get_put_self ..
    · rw [hview]
      exact ⟨n, _, _, get_putStep ..⟩

theorem failStep_proceeds {r : WorkflowExecution} (enc : Encoded tx.view)
    (hr : Returns env (failStep id name workerId reason) tx r tx') :
    ∃ e d, (view tx.view).execution id = some e ∧ e.currentStepName = name ∧
      (view tx.view).definition e.versionKey = some d ∧
      Proceeds d e.position (.fails reason) r.position ∧ r.versionKey = e.versionKey ∧
      E.get tx'.view .executions id = some r.toRow ∧
      (r.status = .running → Opened env tx'.view none r) := by
  obtain ⟨e, tx₁, s, tx₂, d, tx₃, step, db, he, hs, hd, hstep, -, h⟩ := failStep_cases hr
  obtain ⟨hexec, rfl, hplain, hrunning, rfl, hv₁, -⟩ := getCurrentExecution_spec enc he
  obtain ⟨-, -, -, hv₂⟩ := getClaimedStep_spec (hv₁.symm ▸ enc) hplain hs
  obtain ⟨hdef, -, -⟩ := getDefinitionOf_spec hd
  rw [hv₂, hv₁] at hdef
  rcases h with ⟨budget, rfl, n, hview⟩ | ⟨spent, n, rfl, hview⟩
  · refine ⟨e, d, hexec, rfl, hdef, proceeds_retry hrunning hstep budget, rfl, ?_, fun _ => ?_⟩
    · rw [hview, E.get_put_table _ _ (by decide)]
      exact E.get_put_self ..
    · rw [hview]
      exact ⟨n, 0, _, get_putStep ..⟩
  · refine ⟨e, d, hexec, rfl, hdef, proceeds_exhaust hrunning hstep spent, rfl, ?_,
      fun hr => by cases hr⟩
    rw [hview]
    exact E.get_put_self ..

theorem cancelWorkflow_proceeds {r : WorkflowExecution} (enc : Encoded tx.view)
    (hr : Returns env (cancelWorkflow id) tx r tx') :
    ∃ e, (view tx.view).execution id = some e ∧
      (∀ d, Proceeds d e.position .canceled r.position) ∧ r.versionKey = e.versionKey ∧
      E.get tx'.view .executions id = some r.toRow := by
  obtain ⟨row, tx₁, tx₂, hrow, hrunning, -, -, rfl, hview⟩ := cancelWorkflow_cases hr
  obtain ⟨hexec, hid, -⟩ := enc.execution hrow
  refine ⟨row.fromRow, hexec, fun d => proceeds_cancel hrunning, rfl, ?_⟩
  rw [hview, ← hid]
  exact E.get_put_self ..

namespace Ledger

variable {L L' : Ledger} {ev : Event} {e' : WorkflowExecution} {k : StepKey}

def Event.Quiet : Event → Prop
  | .registered _ | .started _ _ | .claimed _ _ | .renewed _ _ _ => True
  | _ => False

theorem Transition.quiet (h : Transition L ev L') (hev : Event.Quiet ev)
    (he : L.execution id = some e) : L'.execution id = some e := by
  cases h with
  | start definition fresh =>
    rw [setStep_execution, setExecution_execution, if_neg]
    · rwa [execution, takeLock_executionRow]
    · intro hid
      rw [← hid, he] at fresh
      cases fresh
  | register | claim | renew => exact he
  | finish | advance | retry | exhaust | cancel => exact hev.elim

theorem quiet_of_run {evs : List Event} (h : Run Transition L evs L')
    (hevs : ∀ ev ∈ evs, Event.Quiet ev) (he : L.execution id = some e) :
    L'.execution id = some e :=
  (h.always (I := fun L => L.execution id = some e) (P := Event.Quiet) (Q := fun _ => True)
    (fun _ _ _ he hev ht => ⟨ht.quiet hev he, trivial⟩) hevs he).1

/-- The execution goes from one ledger to the other along the program, by an ending of a kind if at
all. -/
def Follows (d : WorkflowDefinition) (P : Ending → Prop) (e : WorkflowExecution) (L' : Ledger)
    (id : String) : Prop :=
  ∃ e' endings, L'.execution id = some e' ∧ e'.versionKey = e.versionKey ∧ endings.length ≤ 1 ∧
    Run (Proceeds d) e.position endings e'.position ∧ ∀ ending ∈ endings, P ending

theorem follows_same {P : Ending → Prop} (he : L'.execution id = some e) : Follows d P e L' id :=
  ⟨e, [], he, rfl, Nat.zero_le _, .nil, by simp⟩

theorem follows_single {P : Ending → Prop} {ending : Ending} (he : L'.execution id = some e')
    (hversion : e'.versionKey = e.versionKey) (hproceeds : Proceeds d e.position ending e'.position)
    (hp : P ending) : Follows d P e L' id :=
  ⟨e', [ending], he, hversion, Nat.le_refl _, .single hproceeds,
    fun _ h => List.mem_singleton.mp h ▸ hp⟩

theorem Failing.unreported {s : WorkflowStepExecution} (h : L.Failing e s now none reason) :
    reason = "lease expired" := by
  cases h
  rfl

def Unclaimed (L : Ledger) (id : String) : Prop :=
  ∀ e s, L.execution id = some e → e.status = .running → L.step e.currentKey = some s →
    s.status ≠ .running

theorem SweepEvent.unreported {workerId : Option String} {key' : StepKey} {now' : TimePoint}
    (h : SweepEvent now k (.retried key' workerId now') ∨
      SweepEvent now k (.exhausted key' workerId now')) : workerId = none := by
  rcases h with (h | h) | (h | h) <;> cases h <;> rfl

theorem Transition.sweep_unclaimed (h : Transition L ev L') (inv : Lifecycle L)
    (hev : SweepEvent now k ev) (unclaimed : Unclaimed L id) :
    Unclaimed L' id ∧ L'.execution id = L.execution id := by
  have hframe : ev.subject ≠ some id → Unclaimed L' id ∧ L'.execution id = L.execution id := by
    intro hsubject
    have same := h.frame inv hsubject
    refine ⟨fun e s he hr hs => ?_, same.execution⟩
    rw [same.execution] at he
    refine unclaimed e s he hr ?_
    rw [← hs]
    exact (same.step e.currentKey ((inv id).execution_id e he)).symm
  have hfailing : ∀ {e₀ s₀ workerId reason now₀}, L.Failing e₀ s₀ now₀ workerId reason →
      e₀.workflowExecutionId ≠ id := by
    intro e₀ s₀ workerId reason now₀ failing hid
    have current := failing.current
    exact unclaimed e₀ s₀ (hid ▸ current.execution) current.running current.step failing.claimed
  cases h with
  | retry failing | exhaust failing =>
    exact hframe fun hs => hfailing failing (Option.some_inj.mp hs)
  | _ => rcases hev with hev | hev <;> cases hev

def Lapsed (d : WorkflowDefinition) (e : WorkflowExecution) (L' : Ledger) (id : String) : Prop :=
  Unclaimed L' id ∧ ∃ e', L'.execution id = some e' ∧ e'.versionKey = e.versionKey ∧
    Proceeds d e.position (.fails "lease expired") e'.position

theorem Transition.sweep_lapsed (h : Transition L ev L') (hev : SweepEvent now k ev)
    (he : L.execution id = some e) (hd : L.definition e.versionKey = some d) :
    L'.execution id = some e ∨ Lapsed d e L' id := by
  cases h with
  | @retry e₀ s d₀ step workerId reason now₀ at_ createdAt failing definition found budget =>
    obtain rfl := SweepEvent.unreported (.inl hev)
    by_cases hid : id = e₀.workflowExecutionId
    · subst hid
      obtain rfl := Option.some_inj.mp (failing.current.execution.symm.trans he)
      obtain rfl := Option.some_inj.mp (definition.symm.trans hd)
      obtain rfl := failing.unreported
      have hexec : (((L.setStep (s.failedFor "lease expired" at_)).setExecution e₀.retried).setStep
          (e₀.retried.pendingStep s.input createdAt none)).execution e₀.workflowExecutionId =
            some e₀.retried.stored := by
        rw [setStep_execution, setExecution_execution]
        exact if_pos rfl
      refine .inr ⟨fun e' s' he' _ hs' => ?_, _, hexec, rfl,
        proceeds_retry failing.current.running found budget⟩
      rw [hexec] at he'
      obtain rfl := Option.some_inj.mp he'
      rw [setStep_step, WorkflowExecution.stored_currentKey, WorkflowExecution.pendingStep_stepKey,
        if_pos rfl] at hs'
      obtain rfl := Option.some_inj.mp hs'
      nofun
    · left
      rw [setStep_execution, setExecution_execution]
      exact (if_neg hid).trans he
  | @exhaust e₀ s d₀ step workerId reason now₀ at_ at' failing definition found spent =>
    obtain rfl := SweepEvent.unreported (.inr hev)
    by_cases hid : id = e₀.workflowExecutionId
    · subst hid
      obtain rfl := Option.some_inj.mp (failing.current.execution.symm.trans he)
      obtain rfl := Option.some_inj.mp (definition.symm.trans hd)
      obtain rfl := failing.unreported
      have hexec : ((L.setStep (s.failedFor "lease expired" at_)).setExecution
          (e₀.failedFor "lease expired" at')).execution e₀.workflowExecutionId =
            some (e₀.failedFor "lease expired" at').stored := by
        rw [setExecution_execution]
        exact if_pos rfl
      have hproceeds : Proceeds d₀ e₀.position (.fails "lease expired")
          (e₀.failedFor "lease expired" at').position :=
        proceeds_exhaust failing.current.running found spent
      refine .inr ⟨fun e' s' he' hr _ => ?_, _, hexec, rfl, hproceeds⟩
      rw [hexec] at he'
      obtain rfl := Option.some_inj.mp he'
      cases hr
    · left
      rw [setExecution_execution]
      exact (if_neg hid).trans he
  | _ => rcases hev with hev | hev <;> cases hev

theorem lapsed_of_run {evs : List Event} (h : Run Transition L evs L') (inv : Lifecycle L)
    (hevs : ∀ ev ∈ evs, ∃ key, SweepEvent now key ev) (he : L.execution id = some e)
    (hd : L.definition e.versionKey = some d) : L'.execution id = some e ∨ Lapsed d e L' id := by
  induction h with
  | nil => exact .inl he
  | @snoc _ _ evs ev run last ih =>
    have hevs' : ∀ ev ∈ evs, ∃ key, SweepEvent now key ev := fun ev hev =>
      hevs ev (List.mem_append_left _ hev)
    obtain ⟨key, hev⟩ := hevs ev (List.mem_append_right _ (List.mem_singleton_self _))
    rcases ih hevs' with he' | ⟨unclaimed, e', he', hversion, hproceeds⟩
    · refine last.sweep_lapsed hev he' ?_
      rw [definition_of_run run fun ev hev d hreg => ?_]
      · exact hd
      · obtain ⟨key, hev'⟩ := hevs' ev hev
        rcases hev' with h | h <;> cases hreg.symm.trans h
    · obtain ⟨unclaimed', hsame⟩ := last.sweep_unclaimed (lifecycle_of_run run inv) hev unclaimed
      exact .inr ⟨unclaimed', e', hsame.trans he', hversion, hproceeds⟩

end Ledger

/-- What call ends the attempt of an execution, and how. -/
inductive Call.Ends (c : Call) (e : WorkflowExecution) : Ending → Prop
  | completes {workerId : String} {output : Json} {delay : Option Seconds}
      {decision : NextStepDecision}
      (operation : c.operation =
        .completeStep e.workflowExecutionId e.currentStepName workerId output delay)
      (decides : c.env.answer 1 (.decideNextStep (e.completionContext output)) = .ok decision) :
      c.Ends e (.completes decision)
  | fails {workerId reason : String}
      (operation : c.operation =
        .failStep e.workflowExecutionId e.currentStepName workerId reason) :
      c.Ends e (.fails reason)
  | expires (operation : c.operation = .sweepExpiredLeases) : c.Ends e (.fails "lease expired")
  | canceled (operation : c.operation = .cancelWorkflow e.workflowExecutionId) : c.Ends e .canceled

section Endings

variable {c : Call}

theorem completeStep_follows {output : Json} {delay : Option Seconds} {r : WorkflowExecution}
    (sound : Sound db) (hop : c.operation = .completeStep id name workerId output delay)
    (he : (view db).execution id = some e) (hd : (view db).definition e.versionKey = some d)
    (hr : Returns c.env (completeStep id name workerId output delay) (Tx.begin db) r tx) :
    Follows d (c.Ends e) e (view tx.view) id := by
  have hid := (sound.lifecycle id).execution_id e he
  obtain ⟨e₁, d₁, decision, he₁, rfl, hd₁, hdecision, hproceeds, hversion, hget, -⟩ :=
    completeStep_proceeds sound.encoded hr
  obtain rfl := Option.some_inj.mp (he₁.symm.trans he)
  obtain rfl := Option.some_inj.mp (hd₁.symm.trans hd)
  rw [← hid] at hop
  exact follows_single (view_execution.mpr ⟨_, hget, WorkflowExecution.fromRow_toRow _⟩) hversion
    hproceeds (.completes hop hdecision)

theorem failStep_follows {r : WorkflowExecution} (sound : Sound db)
    (hop : c.operation = .failStep id name workerId reason)
    (he : (view db).execution id = some e) (hd : (view db).definition e.versionKey = some d)
    (hr : Returns c.env (failStep id name workerId reason) (Tx.begin db) r tx) :
    Follows d (c.Ends e) e (view tx.view) id := by
  have hid := (sound.lifecycle id).execution_id e he
  obtain ⟨e₁, d₁, he₁, rfl, hd₁, hproceeds, hversion, hget, -⟩ := failStep_proceeds sound.encoded hr
  obtain rfl := Option.some_inj.mp (he₁.symm.trans he)
  obtain rfl := Option.some_inj.mp (hd₁.symm.trans hd)
  rw [← hid] at hop
  exact follows_single (view_execution.mpr ⟨_, hget, WorkflowExecution.fromRow_toRow _⟩) hversion
    hproceeds (.fails hop)

theorem cancelWorkflow_follows {r : WorkflowExecution} (sound : Sound db)
    (hop : c.operation = .cancelWorkflow id) (he : (view db).execution id = some e)
    (hr : Returns c.env (cancelWorkflow id) (Tx.begin db) r tx) :
    Follows d (c.Ends e) e (view tx.view) id := by
  have hid := (sound.lifecycle id).execution_id e he
  obtain ⟨e₁, he₁, hproceeds, hversion, hget⟩ := cancelWorkflow_proceeds sound.encoded hr
  obtain rfl := Option.some_inj.mp (he₁.symm.trans he)
  rw [← hid] at hop
  exact follows_single (view_execution.mpr ⟨_, hget, WorkflowExecution.fromRow_toRow _⟩) hversion
    (hproceeds d) (.canceled hop)

theorem Call.Step.follows (call : Call.Step db c db') (sound : Sound db)
    (he : (view db).execution id = some e) (hd : (view db).definition e.versionKey = some d) :
    Follows d (c.Ends e) e (view db') id := by
  rcases call.cases sound with ⟨r, evs, hr, heff, -⟩ | ⟨-, rfl⟩
  swap
  · exact follows_same he
  obtain ⟨-, rfl⟩ := call
  obtain ⟨tx, hret, hview⟩ := Call.result_ok hr
  obtain ⟨op, env⟩ := c
  have hledger : view (Call.after ⟨op, env⟩ db) = view tx.view := congrArg view hview.symm
  generalize view (Call.after ⟨op, env⟩ db) = L' at heff hledger ⊢
  have hframe : ∀ {ev : Event}, Transition (view db) ev L' → ev.subject ≠ some id →
      Follows d (Call.Ends ⟨op, env⟩ e) e L' id := fun step hsubject =>
    follows_same ((step.frame sound.lifecycle hsubject).execution.trans he)
  cases heff with
  | @completeStep workerId output delay e₀ r ev L' event step =>
    by_cases hsame : e₀.workflowExecutionId = id
    · subst hsame
      simp only [Operation.program, returns_bind, returns_pure] at hret
      obtain ⟨_, _, hret, -, rfl⟩ := hret
      exact hledger ▸ completeStep_follows sound rfl he hd hret
    · refine hframe step ?_
      rcases event with rfl | ⟨next, rfl⟩ <;> exact fun h => hsame (Option.some_inj.mp h)
  | @failStep workerId reason e₀ r ev L' event step =>
    by_cases hsame : e₀.workflowExecutionId = id
    · subst hsame
      simp only [Operation.program, returns_bind, returns_pure] at hret
      obtain ⟨_, _, hret, -, rfl⟩ := hret
      exact hledger ▸ failStep_follows sound rfl he hd hret
    · refine hframe step ?_
      rcases event with rfl | rfl <;> exact fun h => hsame (Option.some_inj.mp h)
  | @cancelWorkflow id' r L' step =>
    by_cases hsame : id' = id
    · subst hsame
      simp only [Operation.program, returns_bind, returns_pure] at hret
      obtain ⟨_, _, hret, -, rfl⟩ := hret
      exact hledger ▸ cancelWorkflow_follows sound rfl he hret
    · exact hframe step fun h => hsame (Option.some_inj.mp h)
  | sweepExpiredLeases events run counted swept =>
    rcases lapsed_of_run run sound.lifecycle events he hd with
      he' | ⟨-, e', he', hversion, hproceeds⟩
    · exact follows_same he'
    · exact follows_single he' hversion hproceeds (.expires rfl)
  | registerWorkflowDefinition => exact follows_same he
  | startWorkflow key given definition step => exact follows_same (step.quiet trivial he)
  | pollAndClaimWorkflowSteps claims complete =>
    refine follows_same (quiet_of_run claims.run (fun ev hev => ?_) he)
    obtain ⟨s, -, rfl⟩ := List.mem_map.mp hev
    trivial
  | keepAliveStep step => exact follows_same (step.quiet trivial he)

end Endings

/-- A registration under the version leaves its definition as it is. -/
def Call.KeepsDefinition (c : Call) (d : WorkflowDefinition) (key : VersionKey) : Prop :=
  ∀ d', c.operation = .registerWorkflowDefinition d' →
    (d'.workflowName, d'.workflowVersion) = key → d' = d

theorem Call.Step.definition_kept {c : Call} {key : VersionKey} (call : Call.Step db c db')
    (sound : Sound db) (hd : (view db).definition key = some d) (keeps : c.KeepsDefinition d key) :
    (view db').definition key = some d := by
  rcases call.cases sound with ⟨r, evs, -, heff, -⟩ | ⟨-, rfl⟩
  · by_cases hop : ∃ d', c.operation = .registerWorkflowDefinition d'
    · obtain ⟨d', hop⟩ := hop
      obtain ⟨op, env⟩ := c
      obtain rfl : op = .registerWorkflowDefinition d' := hop
      generalize view db' = L' at heff ⊢
      cases heff with
      | registerWorkflowDefinition =>
        rw [setDefinition_definition]
        split_ifs with hkey
        · rw [keeps d' rfl hkey.symm]
        · exact hd
    · rw [definition_of_run heff.run (heff.not_registered fun d' h => hop ⟨d', h⟩)]
      exact hd
  · exact hd

/-- An execution of the version stands at the position, and the version has the definition. -/
structure Standing (id : String) (key : VersionKey) (d : WorkflowDefinition) (db : E.Db)
    (p : Position) : Prop where
  sound : Sound db
  execution : ∃ e, (view db).execution id = some e ∧ e.versionKey = key ∧ e.position = p
  definition : (view db).definition key = some d

/-- The call takes the execution along the program of its definition, by at most one ending: the one
that the call brings about of the attempt that the stored execution is at. -/
def Call.Takes (d : WorkflowDefinition) (id : String) (db : E.Db) (x : Call × List Ending)
    (db' : E.Db) : Prop :=
  Call.Step db x.1 db' ∧ ∃ row row' : WorkflowExecutionRow, E.get db .executions id = some row ∧
    E.get db' .executions id = some row' ∧ x.2.length ≤ 1 ∧
    Run (Proceeds d) row.fromRow.position x.2 row'.fromRow.position ∧
    ∀ ending ∈ x.2, x.1.Ends row.fromRow ending

theorem Standing.follows {key : VersionKey} {c : Call} {p : Position} (h : Standing id key d db p)
    (keeps : c.KeepsDefinition d key) (call : Call.Step db c db') :
    ∃ part q, Run (Proceeds d) p part q ∧ Call.Takes d id db (c, part) db' ∧
      Standing id key d db' q := by
  obtain ⟨e, he, rfl, rfl⟩ := h.execution
  obtain ⟨e', endings, he', hversion, hlength, hrun, hends⟩ := call.follows h.sound he h.definition
  obtain ⟨row, hrow, rfl⟩ := view_execution.mp he
  obtain ⟨row', hrow', rfl⟩ := view_execution.mp he'
  exact ⟨endings, _, hrun, ⟨call, row, row', hrow, hrow', hlength, hrun, hends⟩, call.sound h.sound,
    ⟨_, he', hversion, rfl⟩, call.definition_kept h.sound h.definition keeps⟩

/-- Over any calls, an execution goes where the program that its definition describes takes it: each
call ends at most one attempt, as the request says and the logic decides about the stored
execution. -/
theorem executions_follow_course {calls : List Call} (reachable : Reachable E db)
    (run : Calls E db calls db') {row : WorkflowExecutionRow} {registered : WorkflowDefinitionRow}
    (found : E.get db .executions id = some row) (hd : E.get db .definitions
      (definitionKey row.fromRow.workflowName row.fromRow.workflowVersion) = some registered)
    (keeps : ∀ c ∈ calls, c.KeepsDefinition registered.fromRow row.fromRow.versionKey) :
    ∃ (row' : WorkflowExecutionRow) (parts : List (List Ending)),
      E.get db' .executions id = some row' ∧ parts.length = calls.length ∧
      Run (Call.Takes registered.fromRow id) db (calls.zip parts) db' ∧
      Run (Proceeds registered.fromRow) row.fromRow.position parts.flatten row'.fromRow.position := by
  have sound := reachable.sound
  obtain ⟨hexec, -, -⟩ := sound.encoded.execution found
  have standing : Standing id row.fromRow.versionKey registered.fromRow db row.fromRow.position :=
    ⟨sound, ⟨_, hexec, rfl, rfl⟩, Encoded.definition (k := row.fromRow.versionKey) hd⟩
  obtain ⟨parts, q, hlength, htakes, hrun, standing'⟩ :=
    run.parts (fun _ _ _ _ h keeps call => h.follows keeps call) keeps standing
  obtain ⟨e, he, -, rfl⟩ := standing'.execution
  obtain ⟨row', hrow', rfl⟩ := view_execution.mp he
  exact ⟨row', parts, hrow', hlength, htakes, hrun⟩

theorem executions_follow_course_lapse : ∃ (row row' : WorkflowExecutionRow)
    (parts : List (List Ending)),
    Sample.store.get (Sample.after (Sample.begin (Sample.definition false 1))) .executions
      (Sample.id 0) = some row ∧
    Sample.store.get (Sample.after Sample.lapse) .executions (Sample.id 0) = some row' ∧
    row'.fromRow.currentStepAttempt = 1 ∧ parts.length = 3 ∧
    Run (Proceeds (Sample.definition false 1)) row.fromRow.position parts.flatten
      row'.fromRow.position := by
  have hreachable : Reachable Sample.store
      (Sample.after (Sample.begin (Sample.definition false 1))) :=
    reachable_play (by decide +kernel)
  have hrun := Sample.calls_lapse
  have hrow : (Sample.store.get (Sample.after (Sample.begin (Sample.definition false 1))) .executions
      (Sample.id 0)).map (fun row : WorkflowExecutionRow => row.fromRow.versionKey) =
        some ("order", 1) := by decide +kernel
  have hdefinition : Sample.store.get (Sample.after (Sample.begin (Sample.definition false 1)))
      .definitions (definitionKey "order" 1) = some (Sample.definition false 1).toRow := by
    decide +kernel
  have hattempt := Sample.lapse_rows.1
  have hkeeps : ∀ c ∈ Sample.lapse.drop 2, c.KeepsDefinition
      (Sample.definition false 1).toRow.fromRow ("order", 1) := by
    intro c hc d' hop
    have hops : (Sample.lapse.drop 2).map Call.operation =
        [.pollAndClaimWorkflowSteps "order" 1 "first" 1, .sweepExpiredLeases,
          .pollAndClaimWorkflowSteps "order" 1 "first" 1] := rfl
    have hmem := List.mem_map_of_mem (f := Call.operation) hc
    rw [hops, hop] at hmem
    simp at hmem
  have hlength : (Sample.lapse.drop 2).length = 3 := rfl
  obtain ⟨row, found, hversion⟩ := Option.map_eq_some_iff.mp hrow
  generalize Sample.after Sample.lapse = db' at hrun hattempt ⊢
  generalize Sample.after (Sample.begin (Sample.definition false 1)) = db at *
  generalize Sample.lapse.drop 2 = calls at *
  have hregistered : Sample.store.get db .definitions
      (definitionKey row.fromRow.workflowName row.fromRow.workflowVersion) =
        some (Sample.definition false 1).toRow := by
    obtain ⟨hname, hnumber⟩ := Prod.mk.inj hversion
    rw [hname, hnumber]
    exact hdefinition
  obtain ⟨row', parts, found', hparts, -, hcourse⟩ := executions_follow_course hreachable hrun found
    hregistered (hversion ▸ hkeeps)
  rw [found'] at hattempt
  rw [WorkflowDefinition.fromRow_toRow] at hcourse
  exact ⟨row, row', parts, found, found', Option.some_inj.mp hattempt,
    hparts.trans hlength, hcourse⟩

end WorkflowEngine
