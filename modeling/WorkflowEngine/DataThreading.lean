import WorkflowEngine.RetryBudget

/-!
# Data threading

Under the logic that routes by a step's output, a claimed attempt carries the
output of the step completed last without its routing key, or the input that
the execution was started with. Retries, sweeps and claims of a lapsed attempt
hand the same value on.
-/

namespace WorkflowEngine
open Txn Txn.Program Ledger Orchestrator

namespace StepOutputRoutingLogic

def decideNextStep (context : StepCompletionContext) : Except Exception NextStepDecision := do
  if ← context.stepOutput.has "nextStep" then
    let nextStep ← context.stepOutput.at "nextStep"
    if nextStep.isString then
      let nextStepName ← nextStep.asString
      if nextStepName ≠ "" then
        let fields ← context.stepOutput.asObject
        return {
          workflowComplete := false
          nextStepName := some nextStepName
          nextStepInput := .object (fields.erase "nextStep") }
  return { workflowComplete := true }

/-- The output names the next step, and the rest of it is that step's input. -/
def Routed (output : Json) (nextStepName : String) (input : Json) : Prop :=
  ∃ fields : Json.Object, output = .object fields ∧
    fields.get? "nextStep" = some (.string nextStepName) ∧
    input = .object (fields.erase "nextStep")

theorem decideNextStep_routed {context : StepCompletionContext} {decision : NextStepDecision}
    {nextStepName : String} (h : decideNextStep context = .ok decision)
    (hnext : decision.nextStepName = some nextStepName) :
    Routed context.stepOutput nextStepName decision.nextStepInput := by
  have hdone : ∀ {d : NextStepDecision}, (Except.ok { workflowComplete := true } :
      Except Exception NextStepDecision) = .ok d → d.nextStepName ≠ some nextStepName := by
    intro d hd
    obtain rfl := Except.ok.inj hd
    nofun
  cases ho : context.stepOutput with
  | object fields =>
    simp only [decideNextStep, ho, Json.has_object, Json.Object.count_eq] at h
    cases hf : Json.Object.get? fields "nextStep" with
    | none =>
      rw [hf] at h
      exact absurd hnext (hdone h)
    | some value =>
      simp only [hf, Json.at_object fields "nextStep" hf] at h
      cases value with
      | string name =>
        by_cases hname : name = ""
        · subst hname
          exact absurd hnext (hdone h)
        · have hvalue : Except.ok { nextStepName := some name
                                    nextStepInput := Json.object (Json.Object.erase fields "nextStep") } =
              (Except.ok decision : Except Exception NextStepDecision) := by
            simpa [Json.isString, Json.asString, Json.asObject, hname, Bind.bind, Except.bind,
              Pure.pure, Except.pure] using h
          obtain rfl := Except.ok.inj hvalue
          obtain rfl := Option.some_inj.mp hnext
          exact ⟨fields, rfl, hf, rfl⟩
      | _ => exact absurd hnext (hdone h)
  | _ =>
    simp only [decideNextStep, ho] at h
    exact absurd hnext (hdone h)

end StepOutputRoutingLogic
open StepOutputRoutingLogic (Routed)

variable {E : Engine schema} {db db' : E.Db} {env : Environment} {tx tx' : Tx E} {L L' : Ledger}

def Event.enters : Event → Bool
  | .started _ _ | .advanced _ _ _ _ => true
  | _ => false

namespace Ledger
variable {e e' : WorkflowExecution} {s s' t : WorkflowStepExecution}

theorem Current.written (h : (L.setExecution e).Current e' s')
    (hid : e'.workflowExecutionId = e.workflowExecutionId) : e' = e.stored := by
  have hexecution := h.execution
  rw [setExecution_execution, if_pos hid] at hexecution
  exact (Option.some_inj.mp hexecution).symm

theorem Current.entered (h : ((L.setExecution e).setStep t).Current e' s')
    (hid : e'.workflowExecutionId = e.workflowExecutionId) (hkey : t.stepKey = e.currentKey) :
    e' = e.stored ∧ s' = t.stored := by
  have hexecution := h.execution
  rw [setStep_execution, setExecution_execution, if_pos hid] at hexecution
  obtain rfl := Option.some_inj.mp hexecution
  have hstep := h.step
  rw [setStep_step, WorkflowExecution.stored_currentKey, if_pos hkey.symm] at hstep
  exact ⟨rfl, (Option.some_inj.mp hstep).symm⟩

structure Passes (e : WorkflowExecution) (s : WorkflowStepExecution) (e' : WorkflowExecution)
    (s' : WorkflowStepExecution) : Prop where
  id : e'.workflowExecutionId = e.workflowExecutionId
  version : e'.versionKey = e.versionKey
  step : e'.currentStepName = e.currentStepName
  input : s'.input = s.input

theorem Passes.refl (e : WorkflowExecution) (s : WorkflowStepExecution) : Passes e s e s :=
  ⟨rfl, rfl, rfl, rfl⟩

theorem Passes.trans {e₁ e₂ e₃ : WorkflowExecution} {s₁ s₂ s₃ : WorkflowStepExecution}
    (h : Passes e₁ s₁ e₂ s₂) (h' : Passes e₂ s₂ e₃ s₃) : Passes e₁ s₁ e₃ s₃ :=
  ⟨h'.id.trans h.id, h'.version.trans h.version, h'.step.trans h.step, h'.input.trans h.input⟩

theorem Current.passes {s₀ s₁ : WorkflowStepExecution} (h : (L.setStep s₁).Current e s)
    (hs : L.step s₀.stepKey = some s₀) (hkey : s₁.stepKey = s₀.stepKey)
    (hinput : s₁.input = s₀.input) : ∃ e' s', L.Current e' s' ∧ Passes e' s' e s := by
  have hexecution : L.execution e.workflowExecutionId = some e := h.execution
  have hstep := h.step
  rw [setStep_step, hkey] at hstep
  split_ifs at hstep with hk
  · obtain rfl := Option.some_inj.mp hstep
    exact ⟨e, s₀, ⟨hexecution, h.running, hk ▸ hs⟩, rfl, rfl, rfl, hinput⟩
  · exact ⟨e, s, ⟨hexecution, h.running, hstep⟩, .refl e s⟩

theorem Transition.passes {ev : Event} (h : Transition L ev L') (inv : Lifecycle L)
    (hc : L'.Current e' s')
    (hev : ev.subject = some e'.workflowExecutionId → ev.enters = false) :
    ∃ e s, L.Current e s ∧ Passes e s e' s' := by
  by_cases hid : ev.subject = some e'.workflowExecutionId
  swap
  · exact ⟨e', s', (h.frame inv hid).current hc rfl, .refl e' s'⟩
  -- An execution that was written as ended is not Running.
  have hended : ∀ {L₀ : Ledger} {e₀ : WorkflowExecution}, (L₀.setExecution e₀).Current e' s' →
      e'.workflowExecutionId = e₀.workflowExecutionId → e₀.status = .running := by
    intro L₀ e₀ hc hid
    have hrunning := hc.running
    rw [hc.written hid] at hrunning
    exact hrunning
  cases h with
  | register d => cases hid
  | start => cases hev hid
  | claim step claimable definition duration => exact hc.passes step rfl rfl
  | @renew e s d workerId now at_ lease held definition duration =>
    have hstep := held.step
    rw [← held.step_key inv] at hstep
    exact hc.passes hstep rfl rfl
  | finish held => cases hended hc (Option.some_inj.mp hid).symm
  | advance => cases hev hid
  | @retry e s d step workerId reason now at_ createdAt failing definition found budget =>
    obtain ⟨rfl, rfl⟩ := hc.entered (Option.some_inj.mp hid).symm rfl
    exact ⟨e, s, failing.current, rfl, rfl, rfl, rfl⟩
  | exhaust failing definition found spent => cases hended hc (Option.some_inj.mp hid).symm
  | cancel execution running => cases hended hc (Option.some_inj.mp hid).symm

theorem passes_of_run {evs : List Event} (h : Systems.Run Transition L evs L') (inv : Lifecycle L)
    (hc : L'.Current e' s')
    (hevs : ∀ ev ∈ evs, ev.subject = some e'.workflowExecutionId → ev.enters = false) :
    ∃ e s, L.Current e s ∧ Passes e s e' s' := by
  induction h generalizing e' s' with
  | nil => exact ⟨e', s', hc, .refl e' s'⟩
  | @snoc L₁ L₂ evs ev run last ih =>
    have hlast := hevs ev (List.mem_append_right _ (List.mem_singleton_self ev))
    obtain ⟨e₁, s₁, hc₁, hpass⟩ := last.passes (lifecycle_of_run run inv) hc hlast
    obtain ⟨e, s, hc₀, hpass₀⟩ := ih hc₁ fun ev hev =>
      hpass.id ▸ hevs ev (List.mem_append_left _ hev)
    exact ⟨e, s, hc₀, hpass₀.trans hpass⟩

theorem Transition.claimed_current {now : TimePoint} (h : Transition L (.claimed s now) L')
    (inv : Lifecycle L) : ∃ e s₀, L.Current e s₀ ∧ s.stepKey = e.currentKey ∧
      s.versionKey = e.versionKey ∧ s.input = s₀.input := by
  cases h with
  | @claim s₀ d workerId now lease step claimable definition duration =>
    obtain ⟨e, hc, hkey, hversion, -⟩ :=
      inv.current_of_active step (active_of_isClaimable claimable)
    exact ⟨e, s₀, hc, hkey.symm, hversion, rfl⟩

theorem claimed_current_of_run {evs : List Event} {now : TimePoint}
    (h : Systems.Run Transition L evs L') (inv : Lifecycle L)
    (hevs : ∀ ev ∈ evs, ev.enters = false) (hs : .claimed s now ∈ evs) :
    ∃ e s₀, L.Current e s₀ ∧ s.workflowExecutionId = e.workflowExecutionId ∧
      s.stepName = e.currentStepName ∧ s.versionKey = e.versionKey ∧ s.input = s₀.input := by
  induction h with
  | nil => cases hs
  | @snoc L₁ L₂ evs ev run last ih =>
    have hbefore : ∀ ev ∈ evs, ev.enters = false :=
      fun ev hev => hevs ev (List.mem_append_left _ hev)
    rcases List.mem_append.mp hs with hs | hs
    · exact ih hbefore hs
    · rw [← List.mem_singleton.mp hs] at last
      obtain ⟨e₁, s₁, hc₁, hkey, hversion, hinput⟩ := last.claimed_current (lifecycle_of_run run inv)
      obtain ⟨e, s₀, hc, hpass⟩ := passes_of_run run inv hc₁ fun ev hev _ => hbefore ev hev
      refine ⟨e, s₀, hc, ?_, ?_, hversion.trans hpass.version, hinput.trans hpass.input⟩
      · exact (congrArg StepKey.workflowExecutionId hkey).trans hpass.id
      · exact (congrArg StepKey.stepName hkey).trans hpass.step

end Ledger

theorem completeStep_routes {id name workerId : String} {output : Json} {delay : Option Seconds}
    {r : WorkflowExecution} (h : Holds tx.view L)
    (routes : ∀ n context, env.answer n (.decideNextStep context) =
      StepOutputRoutingLogic.decideNextStep context)
    (hr : Returns env (completeStep id name workerId output delay) tx r tx') :
    ∃ L', Holds tx'.view L' ∧ ∀ e s, L'.Current e s → e.workflowExecutionId = id →
      Routed output e.currentStepName s.input := by
  obtain ⟨-, e, tx₁, s, tx₂, d, tx₃, decision, tx₄, he, hs, hd, hdecision, hv₄, -, houtcome⟩ :=
    completeStep_cases hr
  obtain ⟨hid, -, hpe, hps, -, hL⟩ := held_of_request h he rfl rfl hs
  obtain ⟨-, hv, -⟩ := getDefinitionOf_spec hd
  have hL₁ := ((hL.of_eq hv).putStep (s.completedWith output _) hps).of_eq hv₄
  rw [routes] at hdecision
  subst hid
  rcases houtcome with ⟨n, rfl, hview⟩ | hadvance
  · refine ⟨_, (hL₁.putExecution (e.completedAtState decision.updatedState _) hpe).of_eq hview, ?_⟩
    intro e' s' hcurrent hid'
    have hrunning := hcurrent.running
    rw [hcurrent.written hid'] at hrunning
    cases hrunning
  · obtain ⟨next, createdAt, scheduledAt, hnext, -, hL₂⟩ :=
      advance_spec (e := { e with state := decision.updatedState }) hL₁ hpe hadvance
    refine ⟨_, hL₂, ?_⟩
    intro e' s' hcurrent hid'
    obtain ⟨rfl, rfl⟩ := hcurrent.entered hid' rfl
    exact StepOutputRoutingLogic.decideNextStep_routed hdecision hnext

def Entry.completion (x : Entry) (id : String) : Option Json :=
  match x.call.operation, x.result with
  | .completeStep id' _ _ output _, .ok _ => if id' = id then some output else none
  | _, _ => none

def lastOutput (h : List Entry) (id : String) : Option Json :=
  h.reverse.findSome? fun x => x.completion id

theorem lastOutput_concat (h : List Entry) (x : Entry) (id : String) :
    lastOutput (h ++ [x]) id = (x.completion id).or (lastOutput h id) := by
  simp only [lastOutput, List.reverse_append, List.reverse_singleton, List.singleton_append,
    List.findSome?_cons]
  cases x.completion id <;> rfl

/-- The execution was started with this input, at the step that its definition began with then. -/
def Started (E : Engine schema) (h : List Entry) (key : VersionKey) (id stepName : String)
    (input : Json) : Prop :=
  ∃ h₁ x h₂ db e definition, h = h₁ ++ x :: h₂ ∧ History E E.empty h₁ db ∧
    x.call.operation = .startWorkflow key.1 key.2 input ∧ x.result = .ok (.execution e) ∧
    e.workflowExecutionId = id ∧
    E.get db .definitions (definitionKey key.1 key.2) = some definition ∧
    definition.startWorkflowStepName = stepName

theorem Started.concat {h : List Entry} {key : VersionKey} {id stepName : String} {input : Json}
    (started : Started E h key id stepName input) (x : Entry) :
    Started E (h ++ [x]) key id stepName input := by
  obtain ⟨h₁, y, h₂, db, e, definition, rfl, hrest⟩ := started
  exact ⟨h₁, y, h₂ ++ [x], db, e, definition, by simp, hrest⟩

/-- Where the name and the input of an execution's current step come from. -/
def Origin (E : Engine schema) (h : List Entry) (key : VersionKey) (id stepName : String)
    (input : Json) : Prop :=
  match lastOutput h id with
  | none => Started E h key id stepName input
  | some output => Routed output stepName input

theorem Origin.concat {h : List Entry} {x : Entry} {key : VersionKey} {id stepName : String}
    {input : Json} (origin : Origin E h key id stepName input) (hx : x.completion id = none) :
    Origin E (h ++ [x]) key id stepName input := by
  unfold Origin at *
  rw [lastOutput_concat, hx, Option.none_or]
  cases hlast : lastOutput h id with
  | none =>
    rw [hlast] at origin
    exact origin.concat x
  | some output =>
    rw [hlast] at origin
    exact origin

/-- Routing decisions of the call are made by the step's output. -/
def Call.RoutesByOutput (c : Call) : Prop :=
  ∀ n context, c.env.answer n (.decideNextStep context) =
    StepOutputRoutingLogic.decideNextStep context

/-- Every attempt that is due has the input that its execution has come to. -/
structure Threaded (h : List Entry) (db : E.Db) : Prop where
  current : ∀ e s, (view db).Current e s →
    Origin E h e.versionKey e.workflowExecutionId e.currentStepName s.input
  completed : ∀ id output, lastOutput h id = some output →
    ((view db).execution id).isSome = true

theorem Entry.completion_eq_some {x : Entry} {id : String} {output : Json} :
    x.completion id = some output ↔ ∃ stepName workerId delay r,
      x.call.operation = .completeStep id stepName workerId output delay ∧ x.result = .ok r := by
  constructor
  · intro hx
    unfold Entry.completion at hx
    split at hx
    · rename_i id' stepName workerId output' delay r hop hr
      split at hx
      · rename_i hid
        obtain rfl := Option.some_inj.mp hx
        exact ⟨stepName, workerId, delay, r, hid ▸ hop, hr⟩
      · cases hx
    · cases hx
  · intro ⟨stepName, workerId, delay, r, hop, hr⟩
    unfold Entry.completion
    rw [hop, hr]
    exact if_pos rfl

theorem Effect.started {now : TimePoint} {op : Operation} {r : Response} {evs : List Event}
    {e : WorkflowExecution} {b : Bool} (h : Effect L now op r evs L') (hev : .started e b ∈ evs) :
    op = .startWorkflow e.workflowName e.workflowVersion e.input ∧ r = .execution e ∧
      Transition L (.started e b) L' := by
  cases h with
  | startWorkflow key given definition step =>
    cases List.mem_singleton.mp hev
    cases key
    cases given
    exact ⟨rfl, rfl, step⟩
  | completeStep event step => rcases event with rfl | ⟨next, rfl⟩ <;> simp at hev
  | failStep event step => rcases event with rfl | rfl <;> simp at hev
  | sweepExpiredLeases events run counted swept =>
    obtain ⟨key, hsweep⟩ := events _ hev
    rcases hsweep with hsweep | hsweep <;> cases hsweep
  | _ => simp at hev

theorem Ledger.Transition.current_started {e e' : WorkflowExecution} {s' : WorkflowStepExecution}
    {b : Bool} (h : Transition L (.started e b) L') (hc : L'.Current e' s')
    (hid : e'.workflowExecutionId = e.workflowExecutionId) :
    ∃ d, L.definition e.versionKey = some d ∧ e'.versionKey = e.versionKey ∧
      e'.currentStepName = d.startWorkflowStepName ∧ s'.input = e.input := by
  cases h with
  | @start d _ createdAt definition fresh unlocked running first attempt state =>
    obtain ⟨rfl, rfl⟩ := hc.entered hid rfl
    exact ⟨d, definition, rfl, first, rfl⟩

theorem Threaded.started {h : List Entry} {x : Entry} {e e' : WorkflowExecution}
    {s' : WorkflowStepExecution} {b : Bool} (t : Threaded h db) (run : History E E.empty h db)
    (hop : x.call.operation = .startWorkflow e.workflowName e.workflowVersion e.input)
    (hr : x.result = .ok (.execution e)) (start : Transition (view db) (.started e b) L')
    (hc : L'.Current e' s') (hid : e'.workflowExecutionId = e.workflowExecutionId) :
    Origin E (h ++ [x]) e'.versionKey e'.workflowExecutionId e'.currentStepName s'.input := by
  obtain ⟨d, hd, hkey, hname, hinput⟩ := start.current_started hc hid
  have hlast : lastOutput (h ++ [x]) e'.workflowExecutionId = none := by
    have hx : x.completion e'.workflowExecutionId = none := by
      unfold Entry.completion
      rw [hop, hr]
    rw [lastOutput_concat, hx, Option.none_or]
    cases hlast : lastOutput h e'.workflowExecutionId with
    | none => rfl
    | some output =>
      have hsome := t.completed _ output hlast
      rw [hid, start.fresh] at hsome
      cases hsome
  unfold Origin
  rw [hlast]
  obtain ⟨definition, hget, rfl⟩ := Option.map_eq_some_iff.mp hd
  refine ⟨h, x, [], db, e, definition, rfl, run, ?_, hr, hid.symm, ?_, hname.symm⟩
  · rw [hkey, hinput]
    exact hop
  · rw [hkey]
    exact hget

theorem execution_isSome_of_run {evs : List Event} {id : String}
    (h : Systems.Run Transition L evs L') (hs : (L.execution id).isSome = true) :
    (L'.execution id).isSome = true :=
  h.invariant (I := fun L => (L.execution id).isSome = true)
    (fun _ _ _ hs ht => ht.execution_isSome hs) hs

theorem Effect.completed {now : TimePoint} {r : Response} {evs : List Event}
    {id stepName workerId : String} {output : Json} {delay : Option Seconds}
    (h : Effect L now (.completeStep id stepName workerId output delay) r evs L') :
    (L'.execution id).isSome = true := by
  have hrun := h.run
  obtain ⟨ev, k, rfl, step, hrequest, rfl, -⟩ := h.request rfl
  obtain ⟨e, s, held, rfl⟩ := step.held hrequest
  apply execution_isSome_of_run hrun
  exact Option.isSome_iff_exists.mpr ⟨e, held.execution⟩

theorem Call.routed {c : Call} {id stepName workerId : String} {output : Json}
    {delay : Option Seconds} {r : Response} (sound : Sound db) (routes : c.RoutesByOutput)
    (hop : c.operation = .completeStep id stepName workerId output delay)
    (hr : c.result db = .ok r) {e : WorkflowExecution} {s : WorkflowStepExecution}
    (hc : (view (c.after db)).Current e s) (hid : e.workflowExecutionId = id) :
    Routed output e.currentStepName s.input := by
  obtain ⟨tx, hret, hview⟩ := Call.result_ok hr
  rw [← hview] at hc
  rw [hop] at hret
  simp only [Operation.program, returns_bind, returns_pure] at hret
  obtain ⟨_, _, hret, -, rfl⟩ := hret
  obtain ⟨L', h', hrouted⟩ := completeStep_routes sound.holds routes hret
  rw [h'.view_eq] at hc
  exact hrouted e s hc hid

theorem Entry.Step.threaded {h : List Entry} {x : Entry} (step : Entry.Step db x db')
    (run : History E E.empty h db) (routes : x.call.RoutesByOutput) (t : Threaded h db) :
    Threaded (h ++ [x]) db' := by
  have sound : Sound db := sound_of_calls (History.calls run) sound_empty
  rcases step.1.cases sound with ⟨r, evs, hr, heff, -⟩ | ⟨⟨ex, herr⟩, rfl⟩
  swap
  · have hx : ∀ id, x.completion id = none := by
      intro id
      cases hx : x.completion id with
      | none => rfl
      | some output =>
        obtain ⟨-, -, -, r, -, hr⟩ := Entry.completion_eq_some.mp hx
        rw [step.2, herr] at hr
        cases hr
    refine ⟨fun e s hc => (t.current e s hc).concat (hx _), ?_⟩
    intro id output hlast
    rw [lastOutput_concat, hx, Option.none_or] at hlast
    exact t.completed id output hlast
  have hresult : x.result = .ok r := step.2.trans hr
  constructor
  · intro e s hc
    cases hx : x.completion e.workflowExecutionId with
    | some output =>
      obtain ⟨stepName, workerId, delay, -, hop, -⟩ := Entry.completion_eq_some.mp hx
      unfold Origin
      rw [lastOutput_concat, hx, Option.some_or]
      rw [step.1.2] at hc
      exact Call.routed sound routes hop hr hc rfl
    | none =>
      by_cases hstart : ∃ e₀ b, .started e₀ b ∈ evs ∧
          e.workflowExecutionId = e₀.workflowExecutionId
      · obtain ⟨e₀, b, hev, hid⟩ := hstart
        obtain ⟨hop, rfl, hstart⟩ := heff.started hev
        exact t.started run hop hresult hstart hc hid
      · have hevs : ∀ ev ∈ evs, ev.subject = some e.workflowExecutionId → ev.enters = false := by
          intro ev hev hsubject
          cases ev with
          | started e₀ b => exact absurd ⟨e₀, b, hev, (Option.some_inj.mp hsubject).symm⟩ hstart
          | advanced k workerId now next =>
            obtain ⟨stepName, workerId, output, delay, hop⟩ :=
              heff.advances hev (beq_iff_eq.mpr (Option.some_inj.mp hsubject))
            rw [Entry.completion_eq_some.mpr ⟨stepName, workerId, delay, r, hop, hresult⟩] at hx
            cases hx
          | _ => rfl
        obtain ⟨e₀, s₀, hc₀, hpass⟩ := passes_of_run heff.run sound.lifecycle hc hevs
        rw [hpass.version, hpass.id, hpass.step, hpass.input]
        exact (t.current e₀ s₀ hc₀).concat (hpass.id ▸ hx)
  · intro id output hlast
    rw [lastOutput_concat] at hlast
    cases hx : x.completion id with
    | none =>
      rw [hx, Option.none_or] at hlast
      exact execution_isSome_of_run heff.run (t.completed id output hlast)
    | some output' =>
      obtain ⟨stepName, workerId, delay, -, hop, -⟩ := Entry.completion_eq_some.mp hx
      rw [hop] at heff
      exact heff.completed

theorem threaded_empty : Threaded (E := E) [] E.empty := by
  constructor
  · intro e s hc
    have hexecution := hc.execution
    rw [view_empty] at hexecution
    cases hexecution
  · intro id output hlast
    cases hlast

theorem History.threaded {h : List Entry} (run : History E E.empty h db)
    (routes : ∀ x ∈ h, x.call.RoutesByOutput) : Threaded h db := by
  induction run with
  | nil => exact threaded_empty
  | snoc run last ih =>
    have hlast := routes _ (List.mem_append_right _ (List.mem_singleton_self _))
    exact last.threaded run hlast (ih fun x hx => routes x (List.mem_append_left _ hx))

/-- A step that a poll hands out has the input and the name that its execution has come to: those
of the output that was accepted last, or those of the start. -/
theorem claimed_input_threaded {h : List Entry} {c : Call} {steps : List WorkflowStepExecution}
    {s : WorkflowStepExecution} (run : History E E.empty h db)
    (routes : ∀ x ∈ h, x.call.RoutesByOutput) (hr : c.result db = .ok (.claimed steps))
    (hs : s ∈ steps) : Origin E h s.versionKey s.workflowExecutionId s.stepName s.input := by
  have sound : Sound db := sound_of_calls (History.calls run) sound_empty
  have fresh : c.Fresh db := by
    intro name version input e hop hr'
    rw [hr] at hr'
    cases hr'
  obtain ⟨evs, L', heff, -⟩ := c.effect sound.holds sound.lifecycle fresh hr
  generalize c.operation = op at heff
  cases heff with
  | pollAndClaimWorkflowSteps claims complete =>
    have hevs : ∀ ev ∈ steps.map (fun s => Event.claimed s c.now), ev.enters = false := by
      intro ev hev
      obtain ⟨s, -, rfl⟩ := List.mem_map.mp hev
      rfl
    obtain ⟨e, s₀, hc, hid, hname, hversion, hinput⟩ :=
      claimed_current_of_run claims.run sound.lifecycle hevs (List.mem_map_of_mem hs)
    rw [hversion, hid, hname, hinput]
    exact (History.threaded run routes).current e s₀ hc

def Call.routedByOutput (c : Call) : Call where
  operation := c.operation
  env := { c.env with
    answer := fun n q => match q with
      | .decideNextStep context => StepOutputRoutingLogic.decideNextStep context
      | q => c.env.answer n q }

theorem Call.routesByOutput (c : Call) : c.routedByOutput.RoutesByOutput := fun _ _ => rfl

namespace Sample

noncomputable def reshipped : List Call :=
  let calls := begin (definition false 0)
  let claimed := calls ++ [poll 2000000 "first" (script 0 "ship" calls)]
  let completed := claimed ++ [⟨.completeStep (id 0) "ship" "first"
    (.object [("nextStep", .string "ship"), ("total", .int64 7)]) none, scripted 3000000 0 [] {}⟩]
  completed.map Call.routedByOutput

end Sample

theorem claimed_input_threaded_reshipped : ∃ h db steps s,
    History Sample.store Sample.store.empty h db ∧
    (Sample.poll 4000000 "second" (Sample.script 0 "ship" Sample.reshipped)).result db =
      .ok (.claimed steps) ∧ s ∈ steps ∧ s.input = .object [("total", .int64 7)] ∧
    Origin Sample.store h s.versionKey s.workflowExecutionId s.stepName s.input := by
  have run := @history_record Sample.store Sample.store.empty Sample.reshipped (by decide +kernel)
  have routes : ∀ x ∈ record Sample.store Sample.store.empty Sample.reshipped,
      x.call.RoutesByOutput := by
    intro x hx
    obtain ⟨c, -, hc⟩ := List.mem_map.mp (call_mem_of_record hx)
    rw [← hc]
    exact c.routesByOutput
  have hclaimed : (Entry.mk (Sample.poll 4000000 "second" (Sample.script 0 "ship" Sample.reshipped))
      ((Sample.poll 4000000 "second" (Sample.script 0 "ship" Sample.reshipped)).result
        (play Sample.store Sample.store.empty Sample.reshipped))).claimed.map
          WorkflowStepExecution.input = [.object [("total", .int64 7)]] := by
    decide +kernel
  generalize Sample.poll 4000000 "second" (Sample.script 0 "ship" Sample.reshipped) = c
    at hclaimed ⊢
  generalize record Sample.store Sample.store.empty Sample.reshipped = h at run routes
  generalize play Sample.store Sample.store.empty Sample.reshipped = db at run hclaimed
  unfold Entry.claimed at hclaimed
  split at hclaimed
  · rename_i steps hr
    obtain ⟨s, hs, hinput⟩ := List.mem_map.mp (hclaimed ▸ List.mem_singleton_self _)
    exact ⟨h, db, steps, s, run, hr, hs, hinput, claimed_input_threaded run routes hr hs⟩
  · cases hclaimed

end WorkflowEngine
