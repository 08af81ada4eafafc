import WorkflowEngine.Leases

/-!
# Step history

A row is found by execution, step name and attempt, and the attempt starts
again at 0 when a step completes. A terminal row is therefore the record of its
visit until the execution comes to the same attempt of the same step again; the
row then becomes the Pending row of the new visit.
-/

namespace WorkflowEngine
open Txn Ledger

def Event.opens : Event → Option StepKey
  | .started e _ => some e.currentKey
  | .advanced k _ _ next => some ⟨k.workflowExecutionId, next, 0⟩
  | .retried k _ _ => some ⟨k.workflowExecutionId, k.stepName, k.attempt + 1⟩
  | _ => none

namespace Ledger
variable {L L' : Ledger} {ev : Event} {k : StepKey} {row : WorkflowStepExecutionRow}

/-- The execution has just come to this attempt. -/
def Opened (L : Ledger) (k : StepKey) : Prop :=
  ∃ e input createdAt scheduledAt, L.execution k.workflowExecutionId = some e ∧
    e.status = .running ∧ e.currentKey = k ∧
    L.step k = some (e.pendingStep input createdAt scheduledAt).stored

theorem ne_of_active {k' : StepKey} {s : WorkflowStepExecution} (hs : L.step k' = some s)
    (ha : s.status.Active) (hrow : L.stepRow k = some row)
    (terminal : ¬ row.fromRow.status.Active) : k ≠ k' := by
  intro hk
  subst hk
  have hstep : L.step k = some row.fromRow := step_eq_some.mpr ⟨row, hrow, rfl⟩
  rw [hs] at hstep
  rw [← Option.some_inj.mp hstep] at terminal
  exact terminal ha

theorem setStep_row {s : WorkflowStepExecution} (hne : k ≠ s.stepKey) :
    (L.setStep s).stepRow k = L.stepRow k := by
  rw [setStep_stepRow, if_neg hne]

theorem Transition.row_kept (h : Transition L ev L') (inv : Lifecycle L)
    (hrow : L.stepRow k = some row) (terminal : ¬ row.fromRow.status.Active)
    (hev : ev.opens ≠ some k) : L'.stepRow k = some row := by
  have hcurrent : ∀ {e : WorkflowExecution} {s : WorkflowStepExecution}, L.Current e s →
      s.status = .running → k ≠ s.stepKey := by
    intro e s hc hr
    rw [hc.step_key inv]
    exact ne_of_active hc.step (.inr hr) hrow terminal
  have hopen : ∀ {k' : StepKey}, some k' ≠ some k → k ≠ k' := fun hne he => hne (congrArg some he.symm)
  cases h with
  | register d => exact hrow
  | start definition fresh unlocked running first attempt state =>
    rw [setStep_row, setExecution_stepRow, takeLock_stepRow, hrow]
    exact hopen hev
  | claim step claimable definition duration =>
    have hne := ne_of_active step (active_of_isClaimable claimable) hrow terminal
    rw [setStep_row, hrow]
    exact hne
  | renew held definition duration =>
    have hne := hcurrent held.toCurrent held.claimed
    rw [setStep_row, hrow]
    exact hne
  | finish held =>
    have hne := hcurrent held.toCurrent held.claimed
    rw [setExecution_stepRow, setStep_row, hrow]
    exact hne
  | advance held definition defined =>
    have hne := hcurrent held.toCurrent held.claimed
    rw [setStep_row, setExecution_stepRow, setStep_row, hrow]
    · exact hne
    · exact hopen hev
  | retry failing definition found budget =>
    have hne := hcurrent failing.current failing.claimed
    rw [setStep_row, setExecution_stepRow, setStep_row, hrow]
    · exact hne
    · exact hopen hev
  | exhaust failing definition found spent =>
    have hne := hcurrent failing.current failing.claimed
    rw [setExecution_stepRow, setStep_row, hrow]
    exact hne
  | cancel execution running =>
    rw [setExecution_stepRow, cancelSteps]
    dsimp only
    split_ifs
    · rw [hrow, Option.map_some, cancelRow, if_neg terminal]
    · exact hrow

theorem opened_pending (L : Ledger) (e : WorkflowExecution) (input : Json) (createdAt : TimePoint)
    (scheduledAt : Option TimePoint) (hr : e.status = .running) :
    Opened ((L.setExecution e).setStep (e.pendingStep input createdAt scheduledAt))
      e.currentKey := by
  refine ⟨e.stored, input, createdAt, scheduledAt, ?_, hr, rfl, ?_⟩
  · rw [setStep_execution, setExecution_execution]
    exact if_pos rfl
  · rw [setStep_step]
    exact if_pos rfl

theorem Transition.opened (h : Transition L ev L') (hev : ev.opens = some k) : Opened L' k := by
  cases h with
  | start definition fresh unlocked running first attempt state =>
    obtain rfl := Option.some_inj.mp hev
    exact opened_pending _ _ _ _ _ running
  | @advance e s d workerId next now at_ createdAt scheduledAt output state input held definition
      defined =>
    obtain rfl := Option.some_inj.mp hev
    exact opened_pending _ (e.movedTo state next) _ _ _ held.running
  | @retry e s d step workerId reason now at_ createdAt failing definition found budget =>
    obtain rfl := Option.some_inj.mp hev
    exact opened_pending _ e.retried _ _ _ failing.current.running
  | _ => cases hev

theorem Opened.idle (h : Opened L k) : Idle L k.workflowExecutionId := by
  obtain ⟨e, input, createdAt, scheduledAt, hex, -, hk, hs⟩ := h
  intro e' s' hc hid
  have hex' := hc.execution
  rw [hid, hex] at hex'
  obtain rfl := Option.some_inj.mp hex'
  have hs' := hc.step
  rw [hk, hs] at hs'
  obtain rfl := Option.some_inj.mp hs'
  nofun

theorem Opened.congr (h : Opened L k) (same : SameAt L L' k.workflowExecutionId) : Opened L' k := by
  obtain ⟨e, input, createdAt, scheduledAt, hex, hr, hk, hs⟩ := h
  refine ⟨e, input, createdAt, scheduledAt, ?_, hr, hk, ?_⟩
  · rw [same.execution, hex]
  · rw [same.step k rfl, hs]

theorem Idle.congr {id : String} (h : Idle L id) (same : SameAt L L' id) : Idle L' id :=
  fun e s hc hid => h e s (same.current hc hid) hid

/-- What a sweep that started at `L₀` has made of the execution of a terminal row so far: nothing,
or a new attempt at another key or none, or a new attempt at the row's key. -/
def Swept (L₀ L : Ledger) (k : StepKey) (row : WorkflowStepExecutionRow) : Prop :=
  SameAt L₀ L k.workflowExecutionId ∨ (L.stepRow k = some row ∧ Idle L k.workflowExecutionId) ∨
    (Opened L k ∧ ∃ e s, L₀.Current e s ∧ e.retried.currentKey = k)

theorem Transition.swept {L₀ : Ledger} {now : TimePoint} {key : StepKey} (h : Transition L ev L')
    (inv : Lifecycle L) (hev : SweepEvent now key ev) (hrow : L₀.stepRow k = some row)
    (terminal : ¬ row.fromRow.status.Active) (swept : Swept L₀ L k row) : Swept L₀ L' k row := by
  by_cases hid : ev.subject = some k.workflowExecutionId
  swap
  · have same := h.frame inv hid
    rcases swept with hsame | ⟨hkept, hidle⟩ | ⟨hopened, hretry⟩
    · exact .inl (hsame.trans same)
    · exact .inr (.inl ⟨(same.stepRow k rfl).trans hkept, hidle.congr same⟩)
    · exact .inr (.inr ⟨hopened.congr same, hretry⟩)
  obtain ⟨e, s, expired, rfl⟩ := h.expired hev
  have hide : e.workflowExecutionId = k.workflowExecutionId := by
    rw [hev.subject] at hid
    exact Option.some_inj.mp hid
  have hbusy : ¬ Idle L k.workflowExecutionId :=
    fun hidle => hidle e s expired.toCurrent hide expired.claimed
  rcases swept with hsame | ⟨-, hidle⟩ | ⟨hopened, -⟩
  swap
  · exact absurd hidle hbusy
  swap
  · exact absurd hopened.idle hbusy
  by_cases hopens : ev.opens = some k
  · refine .inr (.inr ⟨h.opened hopens, e, s, hsame.current expired.toCurrent hide, ?_⟩)
    rcases hev with rfl | rfl
    · exact Option.some_inj.mp hopens
    · cases hopens
  · refine .inr (.inl ⟨h.row_kept inv ((hsame.stepRow k rfl).trans hrow) terminal hopens, ?_⟩)
    refine h.idle ?_
    rcases hev with rfl | rfl
    · exact congrArg some hide
    · exact congrArg some hide

end Ledger
variable {E : Engine schema} {db db' : E.Db} {row : WorkflowStepExecutionRow}

/-- How a call comes to an attempt that the execution was at before: the logic routes it to the
step, or the attempt before this one fails. -/
inductive Reopens (db : E.Db) (row : WorkflowStepExecutionRow) : Operation → Prop
  | route {name workerId : String} {output : Json} {delay : Option Seconds}
      (first : row.fromRow.attempt = 0) :
      Reopens db row (.completeStep row.workflowExecutionId name workerId output delay)
  | fail {workerId reason : String} {e : WorkflowExecution} {s : WorkflowStepExecution}
      (current : (view db).Current e s) (retry : e.retried.currentKey = row.fromRow.stepKey) :
      Reopens db row (.failStep row.workflowExecutionId row.stepName workerId reason)
  | sweep {e : WorkflowExecution} {s : WorkflowStepExecution} (current : (view db).Current e s)
      (retry : e.retried.currentKey = row.fromRow.stepKey) :
      Reopens db row .sweepExpiredLeases

theorem isClaimable_terminal {s : WorkflowStepExecution} {now : TimePoint}
    (terminal : ¬ s.status.Active) : Orchestrator.isClaimable s now = false := by
  by_contra h
  exact terminal (active_of_isClaimable (Bool.eq_true_of_not_eq_false h))

theorem row_kept_or_opened {L' : Ledger} {ev : Event} {op : Operation}
    (step : Transition (view db) ev L') (inv : Lifecycle (view db))
    (hrow : (view db).stepRow row.fromRow.stepKey = some row)
    (terminal : ¬ row.fromRow.status.Active)
    (hreopens : ev.opens = some row.fromRow.stepKey → Reopens db row op) :
    L'.stepRow row.fromRow.stepKey = some row ∨
      (Opened L' row.fromRow.stepKey ∧ Reopens db row op) := by
  by_cases hopens : ev.opens = some row.fromRow.stepKey
  · exact .inr ⟨step.opened hopens, hreopens hopens⟩
  · exact .inl (step.row_kept inv hrow terminal hopens)

theorem started_opens_other {L' : Ledger} {e : WorkflowExecution} {singleton : Bool}
    (step : Transition (view db) (.started e singleton) L') (inv : Lifecycle (view db))
    (hrow : (view db).stepRow row.fromRow.stepKey = some row) :
    (Event.started e singleton).opens ≠ some row.fromRow.stepKey := by
  intro hopens
  have hid : e.workflowExecutionId = row.fromRow.workflowExecutionId :=
    congrArg StepKey.workflowExecutionId (Option.some_inj.mp hopens)
  have hstep : (view db).step row.fromRow.stepKey = some row.fromRow :=
    step_eq_some.mpr ⟨row, hrow, rfl⟩
  obtain ⟨e', he', -⟩ := (inv _).step_execution _ _ rfl hstep
  have fresh := step.fresh
  rw [hid] at fresh
  exact absurd (fresh.symm.trans he') nofun

theorem Effect.row_kept {L' : Ledger} {now : TimePoint} {op : Operation} {r : Response}
    {evs : List Event} (h : Effect (view db) now op r evs L') (inv : Lifecycle (view db))
    (hrow : (view db).stepRow row.fromRow.stepKey = some row)
    (terminal : ¬ row.fromRow.status.Active) :
    L'.stepRow row.fromRow.stepKey = some row ∨
      (Opened L' row.fromRow.stepKey ∧ Reopens db row op) := by
  cases h with
  | registerWorkflowDefinition d => exact .inl hrow
  | startWorkflow key given definition step =>
    exact .inl (step.row_kept inv hrow terminal (started_opens_other step inv hrow))
  | pollAndClaimWorkflowSteps claims complete =>
    exact .inl (claims.other hrow (isClaimable_terminal terminal)).2
  | keepAliveStep step => exact .inl (step.row_kept inv hrow terminal nofun)
  | @completeStep workerId output delay e r ev L' event step =>
    refine row_kept_or_opened step inv hrow terminal fun hopens => ?_
    rcases event with rfl | ⟨next, rfl⟩
    · cases hopens
    have hkey := Option.some_inj.mp hopens
    have hid : e.workflowExecutionId = row.workflowExecutionId :=
      congrArg StepKey.workflowExecutionId hkey
    rw [hid]
    exact .route (congrArg StepKey.attempt hkey).symm
  | @failStep workerId reason e r ev L' event step =>
    refine row_kept_or_opened step inv hrow terminal fun hopens => ?_
    rcases event with rfl | rfl
    swap
    · cases hopens
    obtain ⟨e', s', held, hk⟩ := step.held rfl
    have hkey := Option.some_inj.mp hopens
    have hid : e.workflowExecutionId = row.workflowExecutionId :=
      congrArg StepKey.workflowExecutionId hkey
    have hname : e.currentStepName = row.stepName := congrArg StepKey.stepName hkey
    rw [hid, hname]
    refine .fail held.toCurrent (Eq.trans ?_ hkey)
    rw [← hk]
    rfl
  | cancelWorkflow step => exact .inl (step.row_kept inv hrow terminal nofun)
  | sweepExpiredLeases events run counted swept =>
    have hI := run.always
      (I := fun L => Lifecycle L ∧ Swept (view db) L row.fromRow.stepKey row)
      (P := fun ev => ∃ key, SweepEvent now key ev) (Q := fun _ => True)
      (fun L ev L' ⟨inv, swept⟩ ⟨key, hev⟩ ht =>
        ⟨⟨ht.lifecycle inv, ht.swept inv hev hrow terminal swept⟩, trivial⟩)
      events ⟨inv, .inl (SameAt.refl _ _)⟩
    rcases hI.1.2 with same | ⟨hkept, -⟩ | ⟨hopened, e, s, current, retry⟩
    · exact .inl ((same.stepRow _ rfl).trans hrow)
    · exact .inl hkept
    · exact .inr ⟨hopened, .sweep current retry⟩

/-- The row stands at the execution's current attempt and is as a new attempt's row is. -/
structure Reopened (db : E.Db) (row : WorkflowStepExecutionRow) : Prop where
  execution : ∃ found, E.get db .executions row.workflowExecutionId = some found ∧
    found.fromRow.status = .running ∧ found.fromRow.currentKey = row.fromRow.stepKey
  step : ∃ found, E.get db .steps row.key = some found ∧ found.fromRow.status = .pending ∧
    found.fromRow.stepKey = row.fromRow.stepKey ∧ found.workerId = none ∧
    found.leaseExpiresAt = none ∧ found.failureReason = none ∧ found.startedAt = none ∧
    found.completedAt = none ∧ found.output = .object []

theorem reopened_of_opened (h : Opened (view db) row.fromRow.stepKey)
    (htext : row.key = row.fromRow.stepKey.text) : Reopened db row := by
  obtain ⟨e, input, createdAt, scheduledAt, hex, hr, hk, hs⟩ := h
  constructor
  · obtain ⟨found, hfound, rfl⟩ := view_execution.mp hex
    exact ⟨found, hfound, hr, hk⟩
  · obtain ⟨found, hfound, hfields, hkey⟩ := view_step.mp hs
    refine ⟨found, htext ▸ hfound, ?_, ?_, ?_, ?_, ?_, ?_, ?_, ?_⟩
    · rw [hfields]
      rfl
    · rw [hfields, hkey]
    · exact congrArg WorkflowStepExecution.workerId hfields
    · have hlease := congrArg WorkflowStepExecution.leaseExpiresAt hfields
      exact Option.map_eq_none_iff.mp hlease
    · exact congrArg WorkflowStepExecution.failureReason hfields
    · have hstarted := congrArg WorkflowStepExecution.startedAt hfields
      exact Option.map_eq_none_iff.mp hstarted
    · have hcompleted := congrArg WorkflowStepExecution.completedAt hfields
      exact Option.map_eq_none_iff.mp hcompleted
    · exact congrArg WorkflowStepExecution.output hfields

theorem terminal_row_kept_or_reopened {c : Call} (sound : Sound db)
    (found : E.get db .steps row.key = some row) (terminal : ¬ row.fromRow.status.Active)
    (step : Call.Step db c db') :
    E.get db' .steps row.key = some row ∨ (Reopens db row c.operation ∧ Reopened db' row) := by
  obtain ⟨hrow, -, htext⟩ := sound.encoded.step_row found
  rcases step.cases sound with ⟨r, evs, -, heff, -⟩ | ⟨-, rfl⟩
  swap
  · exact .inl found
  rcases heff.row_kept sound.lifecycle hrow terminal with hkept | ⟨hopened, hreopens⟩
  · rw [htext]
    exact .inl (view_stepRow.mp hkept).1
  · exact .inr ⟨hreopens, reopened_of_opened hopened htext⟩

/-- A terminal row is never changed, in all its fields, until a call brings its execution to the
same attempt of the same step again. -/
theorem terminal_row_kept_until_reopened {h : List Entry} (reachable : Reachable E db)
    (found : E.get db .steps row.key = some row) (terminal : ¬ row.fromRow.status.Active)
    (run : History E db h db') :
    E.get db' .steps row.key = some row ∨
      ∃ h₁ x h₂ db₁ db₂, h = h₁ ++ x :: h₂ ∧ History E db h₁ db₁ ∧ Entry.Step db₁ x db₂ ∧
        E.get db₁ .steps row.key = some row ∧ Reopens db₁ row x.call.operation ∧
        Reopened db₂ row := by
  have hsound : ∀ {h db'}, History E db h db' → Sound db' :=
    fun run => sound_of_calls run.calls reachable.sound
  induction run with
  | nil => exact .inl found
  | @snoc db₀ db₃ h y run last ih =>
    rcases ih with hkept | ⟨h₁, x, h₂, db₁, db₂, rfl, run₁, step, hkept, hreopens, hreopened⟩
    · rcases terminal_row_kept_or_reopened (hsound run) hkept terminal last.1 with
        hkept' | ⟨hreopens, hreopened⟩
      · exact .inl hkept'
      · exact .inr ⟨_, _, [], _, _, rfl, run, last, hkept, hreopens, hreopened⟩
    · exact .inr ⟨h₁, x, h₂ ++ [y], db₁, db₂, by simp, run₁, step, hkept, hreopens, hreopened⟩

theorem failed_row_of_ship {db : Sample.store.Db} {c : Call}
    (hbefore : (Sample.store.get db .steps (stepExecutionKey (Sample.id 0) "ship" 0)).map
      (fun row : WorkflowStepExecutionRow => row.fromRow.status) = some .failed)
    (hc : ∀ name version input, c.operation ≠ .startWorkflow name version input) :
    ∃ row : WorkflowStepExecutionRow, Sample.store.get db .steps row.key = some row ∧
      row.key = stepExecutionKey (Sample.id 0) "ship" 0 ∧ row.fromRow.status = .failed ∧
      ¬ row.fromRow.status.Active ∧ History Sample.store db [⟨c, c.result db⟩] (c.after db) := by
  obtain ⟨row, found, hfailed⟩ := Option.map_eq_some_iff.mp hbefore
  have hkey : row.key = stepExecutionKey (Sample.id 0) "ship" 0 :=
    Sample.store.key_of_get _ .steps _ _ found
  refine ⟨row, hkey ▸ found, hkey, hfailed, ?_, .single ⟨⟨Call.fresh_of_not_start hc, rfl⟩, rfl⟩⟩
  rw [hfailed]
  decide

theorem lapse_failed : (Sample.store.get (Sample.after Sample.lapse) .steps
    (stepExecutionKey (Sample.id 0) "ship" 0)).map
      (fun row : WorkflowStepExecutionRow => row.fromRow.status) = some .failed := by
  decide +kernel

theorem reachable_lapse : Reachable Sample.store (Sample.after Sample.lapse) :=
  reachable_play (by decide +kernel)

theorem terminal_row_kept_until_reopened_canceled :
    ∃ row : WorkflowStepExecutionRow, row.fromRow.status = .failed ∧
      Sample.store.get ((Sample.cancel 22000000000 (Sample.script 0 "ship" Sample.lapse)).after
        (Sample.after Sample.lapse)) .steps row.key = some row := by
  have hop : (Sample.cancel 22000000000 (Sample.script 0 "ship" Sample.lapse)).operation =
      .cancelWorkflow (Sample.id 0) := rfl
  have reachable := reachable_lapse
  have hbefore := lapse_failed
  generalize Sample.cancel 22000000000 (Sample.script 0 "ship" Sample.lapse) = cancel at hop ⊢
  generalize Sample.after Sample.lapse = db at reachable hbefore ⊢
  obtain ⟨row, found, -, hfailed, terminal, run⟩ :=
    failed_row_of_ship (c := cancel) hbefore (by rw [hop]; nofun)
  refine ⟨row, hfailed, ?_⟩
  rcases terminal_row_kept_until_reopened reachable found terminal run with
    hkept | ⟨h₁, x, h₂, db₁, db₂, hsplit, -, -, -, hreopens, -⟩
  · exact hkept
  · have hx : x = ⟨cancel, cancel.result db⟩ := by
      rw [← List.mem_singleton, hsplit]
      simp
    rw [hx, hop] at hreopens
    cases hreopens

/-- A step that is routed back to itself takes the row of its first failure. -/
theorem failed_row_reopened_by_loop :
    ¬ ∀ (db db' : Sample.store.Db) (row row' : WorkflowStepExecutionRow) (h : List Entry),
      Reachable Sample.store db → Sample.store.get db .steps row.key = some row →
      ¬ row.fromRow.status.Active → History Sample.store db h db' →
      Sample.store.get db' .steps row.key = some row' →
      row'.fromRow.status = row.fromRow.status ∧ row'.output = row.output ∧
        row'.failureReason = row.failureReason ∧ row'.workerId = row.workerId ∧
        row'.startedAt = row.startedAt ∧ row'.completedAt = row.completedAt := by
  intro hall
  have hafter : (Sample.store.get ((Sample.complete 22000000000 "first"
      { nextStepName := some "ship" }).after (Sample.after Sample.lapse)) .steps
        (stepExecutionKey (Sample.id 0) "ship" 0)).map
          (fun row : WorkflowStepExecutionRow => row.fromRow.status) = some .pending := by
    decide +kernel
  have hop : ∀ name version input, (Sample.complete 22000000000 "first"
      { nextStepName := some "ship" }).operation ≠ .startWorkflow name version input := by
    intro name version input
    nofun
  have reachable := reachable_lapse
  have hbefore := lapse_failed
  generalize Sample.complete 22000000000 "first" { nextStepName := some "ship" } = loop
    at hafter hop
  generalize Sample.after Sample.lapse = db at reachable hbefore hafter
  obtain ⟨row, found, hkey, hfailed, terminal, run⟩ := failed_row_of_ship hbefore hop
  obtain ⟨row', found', hpending⟩ := Option.map_eq_some_iff.mp hafter
  have hsame := hall _ _ row row' _ reachable found terminal run (hkey ▸ found')
  rw [hpending, hfailed] at hsame
  cases hsame.1

end WorkflowEngine
