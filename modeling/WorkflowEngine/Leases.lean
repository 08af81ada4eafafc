import WorkflowEngine.ActiveSteps

/-!
# Leases

The three tests that decide expiry split time at the same instant. Before the
deadline the owner and a cancellation alone can change a claimed row; from the
deadline on the owner's requests are refused until the step is claimed again.
-/

namespace WorkflowEngine
open Txn Ledger

/-- A worker's request: execution, step and worker. -/
def Operation.request : Operation → Option (String × String × String)
  | .keepAliveStep id name workerId | .completeStep id name workerId _ _
  | .failStep id name workerId _ => some (id, name, workerId)
  | _ => none

/-- The request behind an event, with the reading it was checked by. -/
def Event.request : Event → Option (StepKey × String × TimePoint)
  | .renewed k workerId now | .finished k workerId now | .advanced k workerId now _
  | .retried k (some workerId) now | .exhausted k (some workerId) now => some (k, workerId, now)
  | _ => none

namespace Ledger

variable {L L' : Ledger} {ev : Event} {e : WorkflowExecution} {s : WorkflowStepExecution}
  {k : StepKey} {row : WorkflowStepExecutionRow} {now : TimePoint}

theorem Transition.held {workerId : String} (h : Transition L ev L')
    (hr : ev.request = some (k, workerId, now)) :
    ∃ e s, L.Held e s workerId now ∧ e.currentKey = k := by
  cases h with
  | renew held definition duration =>
    cases hr
    exact ⟨_, _, held, rfl⟩
  | finish held =>
    cases hr
    exact ⟨_, _, held, rfl⟩
  | advance held definition defined =>
    cases hr
    exact ⟨_, _, held, rfl⟩
  | retry failing definition found budget =>
    cases failing with
    | reported held =>
      cases hr
      exact ⟨_, _, held, rfl⟩
    | expired h => cases hr
  | exhaust failing definition found spent =>
    cases failing with
    | reported held =>
      cases hr
      exact ⟨_, _, held, rfl⟩
    | expired h => cases hr
  | _ => cases hr

theorem Transition.subject_of_request {workerId : String} (h : Transition L ev L')
    (hr : ev.request = some (k, workerId, now)) : ev.subject = some k.workflowExecutionId := by
  obtain ⟨e, s, -, rfl⟩ := h.held hr
  cases h with
  | renew => exact congrArg (Option.map fun q => q.1.workflowExecutionId) hr
  | finish => exact congrArg (Option.map fun q => q.1.workflowExecutionId) hr
  | advance => exact congrArg (Option.map fun q => q.1.workflowExecutionId) hr
  | retry failing =>
    cases failing with
    | reported held => exact congrArg (Option.map fun q => q.1.workflowExecutionId) hr
    | expired h => cases hr
  | exhaust failing =>
    cases failing with
    | reported held => exact congrArg (Option.map fun q => q.1.workflowExecutionId) hr
    | expired h => cases hr
  | _ => cases hr

theorem Transition.expired (h : Transition L ev L') (hev : SweepEvent now k ev) :
    ∃ e s, L.Expired e s now ∧ e.currentKey = k := by
  rcases hev with rfl | rfl
  · cases h with
    | retry failing definition found budget =>
      cases failing with
      | expired h => exact ⟨_, _, h, rfl⟩
  · cases h with
    | exhaust failing definition found spent =>
      cases failing with
      | expired h => exact ⟨_, _, h, rfl⟩

theorem Current.eq_of_active (h : L.Current e s) (inv : Lifecycle L)
    (hrow : L.stepRow k = some row) (ha : row.fromRow.status.Active)
    (hid : e.workflowExecutionId = k.workflowExecutionId) :
    e.currentKey = k ∧ s = row.fromRow := by
  have hstep : L.step k = some row.fromRow := step_eq_some.mpr ⟨row, hrow, rfl⟩
  have hk := (inv e.workflowExecutionId).current_only h.execution hstep hid.symm ha
  refine ⟨hk.symm, ?_⟩
  have hs := h.step
  rw [← hk, hstep] at hs
  exact (Option.some_inj.mp hs).symm

theorem Transition.claim_other (h : Transition L (.claimed s now) L')
    (hrow : L.stepRow k = some row)
    (hnot : Orchestrator.isClaimable row.fromRow now = false) :
    s.stepKey ≠ k ∧ L'.stepRow k = some row := by
  cases h with
  | @claim s d workerId now lease step claimable definition duration =>
    have hne : s.stepKey ≠ k := by
      intro h
      obtain rfl := h
      obtain ⟨row', hrow', rfl⟩ := step_eq_some.mp step
      rw [hrow] at hrow'
      obtain rfl := Option.some_inj.mp hrow'
      rw [hnot] at claimable
      cases claimable
    refine ⟨hne, ?_⟩
    rw [setStep_stepRow, WorkflowStepExecution.claimedBy_stepKey, if_neg (Ne.symm hne), hrow]

structure Leased (row : WorkflowStepExecutionRow) (workerId : String) (deadline : TimePoint) :
    Prop where
  running : row.fromRow.status = .running
  owner : row.fromRow.workerId = some workerId
  lease : row.fromRow.leaseExpiresAt = some deadline

theorem Leased.active {workerId : String} {deadline : TimePoint}
    (h : Leased row workerId deadline) : row.fromRow.status.Active := .inr h.running

theorem Leased.isClaimable {workerId : String} {deadline : TimePoint}
    (h : Leased row workerId deadline) :
    Orchestrator.isClaimable row.fromRow now = decide (deadline ≤ now) := by
  simp [Orchestrator.isClaimable, h.running, h.lease]

theorem Leased.leaseExpired {workerId : String} {deadline : TimePoint}
    (h : Leased row workerId deadline) :
    Orchestrator.leaseExpired row.fromRow now = decide (deadline ≤ now) := by
  simp [Orchestrator.leaseExpired, h.lease]

theorem Transition.sweep_spares {k' : StepKey} (h : Transition L ev L') (inv : Lifecycle L)
    (hev : SweepEvent now k' ev) (hrow : L.stepRow k = some row) (ha : row.fromRow.status.Active)
    (hnot : Orchestrator.leaseExpired row.fromRow now = false) :
    ev.subject ≠ some k.workflowExecutionId := by
  obtain ⟨e, s, he, rfl⟩ := h.expired hev
  rw [hev.subject]
  intro hid
  obtain ⟨-, rfl⟩ := he.toCurrent.eq_of_active inv hrow ha (Option.some_inj.mp hid)
  obtain ⟨deadline, hd, hle⟩ := he.lease
  simp only [Orchestrator.leaseExpired, hd, decide_eq_false_iff_not] at hnot
  exact hnot hle

theorem Transition.sweep_other {workerId : String} {deadline : TimePoint} {k' : StepKey}
    (h : Transition L ev L') (inv : Lifecycle L) (hev : SweepEvent now k' ev)
    (hrow : L.stepRow k = some row) (leased : Leased row workerId deadline)
    (hnow : now < deadline) : ev.subject ≠ some k.workflowExecutionId := by
  refine h.sweep_spares inv hev hrow leased.active ?_
  rw [leased.leaseExpired]
  exact decide_eq_false (not_le.mpr hnow)

theorem Transition.fresh {b : Bool} (h : Transition L (.started e b) L') :
    L.execution e.workflowExecutionId = none := by
  cases h with
  | start definition fresh => exact fresh

end Ledger

theorem Claims.other {L L' : Ledger} {workerId : String} {now : TimePoint}
    {steps : List WorkflowStepExecution} {k : StepKey} {row : WorkflowStepExecutionRow}
    (h : Claims L workerId now steps L') (hrow : L.stepRow k = some row)
    (hnot : Orchestrator.isClaimable row.fromRow now = false) :
    (∀ s ∈ steps, s.stepKey ≠ k) ∧ L'.stepRow k = some row := by
  obtain ⟨hrow', hkeys⟩ := h.run.always (I := fun L => L.stepRow k = some row)
    (P := fun ev => ∃ s, ev = .claimed s now) (Q := fun ev => ∀ s, ev = .claimed s now → s.stepKey ≠ k)
    (fun L ev L' hI hP ht => by
      obtain ⟨s, rfl⟩ := hP
      obtain ⟨hne, hkept⟩ := ht.claim_other hI hnot
      exact ⟨hkept, by rintro _ ⟨⟩; exact hne⟩)
    (fun ev hev => by
      obtain ⟨s, -, rfl⟩ := List.mem_map.mp hev
      exact ⟨s, rfl⟩) hrow
  exact ⟨fun s hs => hkeys _ (List.mem_map.mpr ⟨s, hs, rfl⟩) s rfl, hrow'⟩

theorem Effect.request {L L' : Ledger} {now : TimePoint} {op : Operation} {r : Response}
    {evs : List Event} {id name workerId : String} (h : Effect L now op r evs L')
    (hr : op.request = some (id, name, workerId)) :
    ∃ ev k, evs = [ev] ∧ Transition L ev L' ∧ ev.request = some (k, workerId, now) ∧
      k.workflowExecutionId = id ∧ k.stepName = name := by
  cases h with
  | keepAliveStep step =>
    cases hr
    exact ⟨_, _, rfl, step, rfl, rfl, rfl⟩
  | completeStep event step =>
    cases hr
    rcases event with rfl | ⟨next, rfl⟩
    · exact ⟨_, _, rfl, step, rfl, rfl, rfl⟩
    · exact ⟨_, _, rfl, step, rfl, rfl, rfl⟩
  | failStep event step =>
    cases hr
    rcases event with rfl | rfl
    · exact ⟨_, _, rfl, step, rfl, rfl, rfl⟩
    · exact ⟨_, _, rfl, step, rfl, rfl, rfl⟩
  | _ => cases hr

theorem Call.fresh_of_request {E : Engine schema} {db : E.Db} {c : Call}
    {q : String × String × String} (h : c.operation.request = some q) : c.Fresh db :=
  Call.fresh_of_not_start fun name version input hop => by
    rw [hop] at h
    cases h

variable {E : Engine schema} {db db' : E.Db} {id name workerId : String} {deadline : TimePoint}
  {row : WorkflowStepExecutionRow}

theorem other_worker_throws {c : Call} {other : String} (sound : Sound db)
    (found : E.get db .steps row.key = some row) (leased : Leased row workerId deadline)
    (hc : c.operation.request = some (row.workflowExecutionId, row.stepName, other))
    (hne : other ≠ workerId) : (∃ ex, c.result db = .error ex) ∧ c.after db = db := by
  rcases Call.Step.cases ⟨Call.fresh_of_request hc, rfl⟩ sound with
    ⟨r, evs, -, heff, -⟩ | ⟨herr, hdb⟩
  · obtain ⟨ev, k, -, ht, hev, hid, -⟩ := heff.request hc
    obtain ⟨e, s, held, rfl⟩ := ht.held hev
    obtain ⟨hrow, -, -⟩ := sound.encoded.step_row found
    obtain ⟨-, rfl⟩ := held.toCurrent.eq_of_active sound.lifecycle hrow leased.active hid
    have howner := held.owner
    rw [leased.owner] at howner
    exact absurd (Option.some_inj.mp howner).symm hne
  · exact ⟨herr, hdb⟩

theorem Effect.leased_kept {L L' : Ledger} {now : TimePoint} {op : Operation} {r : Response}
    {evs : List Event} {k : StepKey} (h : Effect L now op r evs L') (inv : Lifecycle L)
    (hrow : L.stepRow k = some row) (leased : Leased row workerId deadline)
    (hnow : now < deadline) :
    L'.stepRow k = some row ∨ op.request = some (k.workflowExecutionId, k.stepName, workerId) ∨
      op = .cancelWorkflow k.workflowExecutionId := by
  have hkept : ∀ {ev : Event} {L'}, Transition L ev L' → ev.subject ≠ some k.workflowExecutionId →
      L'.stepRow k = some row := fun ht hid => ((ht.frame inv hid).stepRow k rfl).trans hrow
  have hrequest : ∀ q, op.request = some q → L'.stepRow k = some row ∨
      op.request = some (k.workflowExecutionId, k.stepName, workerId) := by
    intro h hq
    obtain ⟨id, name, worker⟩ := h
    obtain ⟨ev, k', -, ht, hev, rfl, rfl⟩ := h.request hq
    obtain ⟨e, s, held, rfl⟩ := ht.held hev
    by_cases hid : e.workflowExecutionId = k.workflowExecutionId
    · right
      obtain ⟨rfl, rfl⟩ := held.toCurrent.eq_of_active inv hrow leased.active hid
      have howner := held.owner
      rw [leased.owner] at howner
      rw [hq, Option.some_inj.mp howner]
    · left
      refine hkept ht ?_
      rw [ht.subject_of_request hev]
      exact fun he => hid (Option.some_inj.mp he)
  cases h with
  | registerWorkflowDefinition d => exact .inl hrow
  | startWorkflow key given definition step =>
    left
    refine hkept step fun hid => ?_
    obtain ⟨s, hs⟩ : ∃ s, L.step k = some s := ⟨_, step_eq_some.mpr ⟨row, hrow, rfl⟩⟩
    obtain ⟨e', he', -⟩ := (inv _).step_execution k s rfl hs
    have fresh := step.fresh
    rw [Option.some_inj.mp hid, he'] at fresh
    cases fresh
  | pollAndClaimWorkflowSteps claims complete =>
    refine .inl (claims.other hrow ?_).2
    rw [leased.isClaimable]
    exact decide_eq_false (not_le.mpr hnow)
  | cancelWorkflow step =>
    rename_i id r
    by_cases hid : id = k.workflowExecutionId
    · exact .inr (.inr (congrArg _ hid))
    · exact .inl (hkept step fun he => hid (Option.some_inj.mp he))
  | sweepExpiredLeases events run counted swept =>
    have hI := run.always (I := fun L => Lifecycle L ∧ L.stepRow k = some row)
      (P := fun ev => ∃ key, SweepEvent now key ev) (Q := fun _ => True)
      (fun L ev L' ⟨inv, hrow⟩ ⟨key, hev⟩ ht => by
        have hid := ht.sweep_other inv hev hrow leased hnow
        exact ⟨⟨ht.lifecycle inv, ((ht.frame inv hid).stepRow k rfl).trans hrow⟩, trivial⟩)
      events ⟨inv, hrow⟩
    exact .inl hI.1.2
  | keepAliveStep step =>
    rcases hrequest _ rfl with hkeep | hreq
    · exact .inl hkeep
    · exact .inr (.inl hreq)
  | completeStep event step =>
    rcases hrequest _ rfl with hkeep | hreq
    · exact .inl hkeep
    · exact .inr (.inl hreq)
  | failStep event step =>
    rcases hrequest _ rfl with hkeep | hreq
    · exact .inl hkeep
    · exact .inr (.inl hreq)

/-- The row of a running lease changes by its owner's requests and by cancellation only. -/
theorem leased_row_kept {c : Call} (sound : Sound db)
    (found : E.get db .steps row.key = some row) (leased : Leased row workerId deadline)
    (step : Call.Step db c db') (hnow : c.now < deadline) :
    E.get db' .steps row.key = some row ∨
      c.operation.request = some (row.workflowExecutionId, row.stepName, workerId) ∨
      c.operation = .cancelWorkflow row.workflowExecutionId := by
  obtain ⟨hrow, -, htext⟩ := sound.encoded.step_row found
  rcases step.cases sound with ⟨r, evs, -, heff, -⟩ | ⟨-, rfl⟩
  · rcases heff.leased_kept sound.lifecycle hrow leased hnow with hkept | hreq | hcancel
    · rw [htext]
      exact .inl (view_stepRow.mp hkept).1
    · exact .inr (.inl hreq)
    · exact .inr (.inr hcancel)
  · exact .inl found

theorem leased_row_not_claimed {c : Call} {steps : List WorkflowStepExecution} (sound : Sound db)
    (found : E.get db .steps row.key = some row) (leased : Leased row workerId deadline)
    (hnow : c.now < deadline) (hc : c.result db = .ok (.claimed steps)) :
    ∀ s ∈ steps, s.stepKey ≠ row.fromRow.stepKey := by
  obtain ⟨hrow, -, -⟩ := sound.encoded.step_row found
  obtain ⟨workerId, L', claims⟩ := claims_of_poll sound hc
  refine (claims.other hrow ?_).1
  rw [leased.isClaimable]
  exact decide_eq_false (not_le.mpr hnow)

def Event.rests : Event → Option String
  | .started e _ => some e.workflowExecutionId
  | .finished k _ _ | .advanced k _ _ _ | .retried k _ _ | .exhausted k _ _ =>
      some k.workflowExecutionId
  | .canceled id => some id
  | .registered _ | .claimed _ _ | .renewed _ _ _ => none

namespace Ledger

/-- The execution is not Running, or its current attempt is not claimed. -/
def Idle (L : Ledger) (id : String) : Prop :=
  ∀ e s, L.Current e s → e.workflowExecutionId = id → s.status ≠ .running

/-- No claim of the execution's step runs beyond `t`. -/
def Unheld (L : Ledger) (id name : String) (t : TimePoint) : Prop :=
  ∀ e s, L.Current e s → e.workflowExecutionId = id → e.currentStepName = name →
    s.status = .running → ∀ deadline, s.leaseExpiresAt = some deadline → deadline ≤ t

variable {L L' : Ledger} {ev : Event} {e : WorkflowExecution} {s : WorkflowStepExecution}
  {id name : String} {t : TimePoint}

theorem idle_of_ended (hr : e.status ≠ .running) :
    Idle (L.setExecution e) e.workflowExecutionId := by
  intro e' s' hc hid _
  have hex := hc.execution
  rw [hid, setExecution_execution, if_pos rfl] at hex
  obtain rfl := Option.some_inj.mp hex
  exact hr hc.running

theorem idle_of_pending (hk : s.stepKey = e.currentKey) (hp : s.status = .pending) :
    Idle ((L.setExecution e).setStep s) e.workflowExecutionId := by
  intro e' s' hc hid hr
  have hex := hc.execution
  rw [hid, setStep_execution, setExecution_execution, if_pos rfl] at hex
  obtain rfl := Option.some_inj.mp hex
  have hst := hc.step
  rw [setStep_step, WorkflowExecution.stored_currentKey, if_pos hk.symm] at hst
  obtain rfl := Option.some_inj.mp hst
  rw [WorkflowStepExecution.stored_status, hp] at hr
  cases hr

theorem Transition.idle (h : Transition L ev L') (hev : ev.rests = some id) : Idle L' id := by
  cases h with
  | @start d e createdAt =>
    obtain rfl := Option.some_inj.mp hev
    exact idle_of_pending (e := e) rfl rfl
  | @finish e s workerId now at_ at' output state =>
    obtain rfl := Option.some_inj.mp hev
    exact idle_of_ended (e := e.completedAtState state at') nofun
  | @advance e s d workerId next now at_ createdAt scheduledAt output state =>
    obtain rfl := Option.some_inj.mp hev
    exact idle_of_pending (e := e.movedTo state next) rfl rfl
  | @retry e s =>
    obtain rfl := Option.some_inj.mp hev
    exact idle_of_pending (e := e.retried) rfl rfl
  | @exhaust e s d step workerId reason now at_ at' =>
    obtain rfl := Option.some_inj.mp hev
    exact idle_of_ended (e := e.failedFor reason at') nofun
  | @cancel e now =>
    obtain rfl := Option.some_inj.mp hev
    exact idle_of_ended (e := e.canceledAt now) nofun
  | _ => cases hev

theorem SameAt.current (same : SameAt L L' id) (hc : L'.Current e s)
    (hid : e.workflowExecutionId = id) : L.Current e s := by
  subst hid
  have hex := hc.execution
  have hst := hc.step
  rw [same.execution] at hex
  rw [same.step _ rfl] at hst
  exact ⟨hex, hc.running, hst⟩

theorem Transition.current (h : Transition L ev L') (inv : Lifecycle L) (hc : L'.Current e s)
    (hr : s.status = .running) :
    (L.Current e s ∧ ev.subject ≠ some e.workflowExecutionId) ∨
      (∃ s' now, ev = .claimed s' now ∧ s'.stepKey = e.currentKey ∧ s = s'.stored) ∨
      ∃ s' workerId now, ev = .renewed e.currentKey workerId now ∧ L.Held e s' workerId now ∧
        s.workerId = s'.workerId := by
  by_cases hid : ev.subject = some e.workflowExecutionId
  swap
  · exact .inl ⟨(h.frame inv hid).current hc rfl, hid⟩
  by_cases hrest : ev.rests = some e.workflowExecutionId
  · exact absurd hr (h.idle hrest e s hc rfl)
  cases h with
  | @claim s' d workerId now lease step claimable definition duration =>
    obtain ⟨e', hc', hk, -, -⟩ := inv.current_of_active step (active_of_isClaimable claimable)
    have hide : e'.workflowExecutionId = e.workflowExecutionId :=
      (congrArg StepKey.workflowExecutionId hk).trans (Option.some_inj.mp hid)
    have hsame : e' = e := by
      have hex := hc'.execution
      rw [hide] at hex
      exact Option.some_inj.mp (hex.symm.trans hc.execution)
    subst hsame
    have hst := hc.step
    rw [setStep_step, WorkflowStepExecution.claimedBy_stepKey, if_pos hk] at hst
    exact .inr (.inl ⟨_, now, rfl, hk.symm, (Option.some_inj.mp hst).symm⟩)
  | @renew e' s' d workerId now at_ lease held definition duration =>
    have hide : e'.workflowExecutionId = e.workflowExecutionId := Option.some_inj.mp hid
    have hsame : e' = e := by
      have hex := held.execution
      rw [hide] at hex
      exact Option.some_inj.mp (hex.symm.trans hc.execution)
    subst hsame
    have hst := hc.step
    rw [setStep_step, WorkflowStepExecution.renewedUntil_stepKey, held.step_key inv,
      if_pos rfl] at hst
    obtain rfl := Option.some_inj.mp hst
    exact .inr (.inr ⟨s', workerId, now, rfl, held, rfl⟩)
  | register d => cases hid
  | _ => exact absurd hid hrest

theorem Transition.unheld (h : Transition L ev L') (inv : Lifecycle L) (hU : Unheld L id name t)
    (hclaim : ∀ s now, ev = .claimed s now → ¬ (s.workflowExecutionId = id ∧ s.stepName = name))
    (hreq : ∀ k workerId now, ev.request = some (k, workerId, now) → t ≤ now) :
    Unheld L' id name t := by
  intro e s hc hid hname hr deadline hd
  rcases h.current inv hc hr with ⟨hold, -⟩ | ⟨s', now, rfl, hk, -⟩ | ⟨s', w, now, rfl, held, -⟩
  · exact hU e s hold hid hname hr deadline hd
  · exact absurd ⟨(congrArg StepKey.workflowExecutionId hk).trans hid,
      (congrArg StepKey.stepName hk).trans hname⟩ (hclaim s' now rfl)
  · obtain ⟨deadline', hd', hlt⟩ := held.lease
    have hle := hU e s' held.toCurrent hid hname held.claimed deadline' hd'
    exact absurd (hlt.trans_le hle) (not_lt.mpr (hreq _ _ _ rfl))

end Ledger

theorem Effect.claimed_mem {L L' : Ledger} {now now' : TimePoint} {op : Operation} {r : Response}
    {evs : List Event} {s : WorkflowStepExecution} (h : Effect L now op r evs L')
    (hs : .claimed s now' ∈ evs) : ∃ steps, r = .claimed steps ∧ s ∈ steps := by
  cases h with
  | pollAndClaimWorkflowSteps claims complete =>
    obtain ⟨s', hs', he⟩ := List.mem_map.mp hs
    cases he
    exact ⟨_, rfl, hs'⟩
  | completeStep event step =>
    rcases event with rfl | ⟨next, rfl⟩ <;> simp at hs
  | failStep event step =>
    rcases event with rfl | rfl <;> simp at hs
  | sweepExpiredLeases events run counted swept =>
    obtain ⟨key, hev⟩ := events _ hs
    rcases hev with hev | hev <;> cases hev
  | _ => simp at hs

theorem Effect.request_now {L L' : Ledger} {now now' : TimePoint} {op : Operation} {r : Response}
    {evs : List Event} {ev : Event} {k : StepKey} {w : String} (h : Effect L now op r evs L')
    (hev : ev ∈ evs) (hr : ev.request = some (k, w, now')) : now' = now := by
  cases h with
  | pollAndClaimWorkflowSteps claims complete =>
    obtain ⟨s', hs', rfl⟩ := List.mem_map.mp hev
    cases hr
  | keepAliveStep step =>
    rw [List.mem_singleton.mp hev] at hr
    cases hr
    rfl
  | completeStep event step =>
    rw [List.mem_singleton.mp hev] at hr
    rcases event with rfl | ⟨next, rfl⟩ <;> cases hr <;> rfl
  | failStep event step =>
    rw [List.mem_singleton.mp hev] at hr
    rcases event with rfl | rfl <;> cases hr <;> rfl
  | sweepExpiredLeases events run counted swept =>
    obtain ⟨key, hev⟩ := events _ hev
    rcases hev with rfl | rfl <;> cases hr
  | _ =>
    rw [List.mem_singleton.mp hev] at hr
    cases hr

theorem Entry.Step.unheld {x : Entry} {t : TimePoint} (step : Entry.Step db x db')
    (sound : Sound db) (hU : Unheld (view db) id name t) (hnow : t ≤ x.call.now)
    (hclaim : ∀ s ∈ x.claimed, ¬ (s.workflowExecutionId = id ∧ s.stepName = name)) :
    Unheld (view db') id name t := by
  obtain ⟨hstep, hresult⟩ := step
  rcases hstep.cases sound with ⟨r, evs, hr, heff, -⟩ | ⟨-, rfl⟩
  swap
  · exact hU
  rw [hr] at hresult
  have hI := heff.run.always (I := fun L => Lifecycle L ∧ Unheld L id name t)
    (P := fun ev => ev ∈ evs) (Q := fun _ => True) (fun L ev L' ⟨inv, hU⟩ hev ht => by
      refine ⟨⟨ht.lifecycle inv, ht.unheld inv hU ?_ ?_⟩, trivial⟩
      · intro s now h
        obtain rfl := h
        obtain ⟨steps, rfl, hs⟩ := heff.claimed_mem hev
        refine hclaim s ?_
        simp only [claimed, hresult]
        exact hs
      · intro k w now hreq
        rw [heff.request_now hev hreq]
        exact hnow) (fun ev hev => hev) ⟨sound.lifecycle, hU⟩
  exact hI.1.2

/-- Once the lease has run out the owner's requests are refused until the step is claimed. -/
theorem lapsed_request_throws {h : List Entry} {c : Call} {t : TimePoint} (sound : Sound db)
    (found : E.get db .steps row.key = some row) (leased : Leased row workerId deadline)
    (run : History E db h db') (ht : deadline ≤ t) (clock : ClockFrom t (h.map Entry.call ++ [c]))
    (hclaim : ∀ x ∈ h, ∀ s ∈ x.claimed,
      ¬ (s.workflowExecutionId = row.workflowExecutionId ∧ s.stepName = row.stepName))
    (hc : c.operation.request = some (row.workflowExecutionId, row.stepName, workerId)) :
    (∃ ex, c.result db' = .error ex) ∧ c.after db' = db' := by
  obtain ⟨hrow, -, -⟩ := sound.encoded.step_row found
  have hU : Unheld (view db) row.workflowExecutionId row.stepName t := by
    intro e s hcur hid hname hr deadline' hd
    obtain ⟨-, rfl⟩ := hcur.eq_of_active sound.lifecycle hrow leased.active hid
    rw [leased.lease] at hd
    exact Option.some_inj.mp hd ▸ ht
  have hnow := clock.le_now
  have hI := run.always
    (I := fun db => Sound db ∧ Unheld (view db) row.workflowExecutionId row.stepName t)
    (P := fun x => x ∈ h) (Q := fun _ => True) (fun db x db' ⟨sound, hU⟩ hx hstep => by
      have htx : t ≤ x.call.now :=
        hnow _ (List.mem_append_left _ (List.mem_map.mpr ⟨x, hx, rfl⟩))
      exact ⟨⟨hstep.1.sound sound, hstep.unheld sound hU htx (hclaim x hx)⟩, trivial⟩)
    (fun x hx => hx) ⟨sound, hU⟩
  obtain ⟨sound', hU'⟩ := hI.1
  rcases Call.Step.cases ⟨Call.fresh_of_request hc, rfl⟩ sound' with
    ⟨r, evs, -, heff, -⟩ | ⟨herr, hdb⟩
  · obtain ⟨ev, k, -, ht', hev, hid, hname⟩ := heff.request hc
    obtain ⟨e, s, held, rfl⟩ := ht'.held hev
    obtain ⟨deadline', hd, hlt⟩ := held.lease
    have hle := hU' e s held.toCurrent hid hname held.claimed deadline' hd
    exact absurd (hlt.trans_le hle) (not_lt.mpr (hnow c (by simp)))
  · exact ⟨herr, hdb⟩

theorem lapsed_row_swept {c : Call} {r : Response} (sound : Sound db)
    (found : E.get db .steps row.key = some row) (leased : Leased row workerId deadline)
    (hnow : deadline ≤ c.now) (hc : c.operation = .sweepExpiredLeases) (hr : c.result db = .ok r)
    (registered : (view db).definition row.fromRow.versionKey ≠ none) :
    ∃ row', E.get (c.after db) .steps row.key = some row' ∧ row'.fromRow.status = .failed := by
  obtain ⟨hrow, -, htext⟩ := sound.encoded.step_row found
  obtain ⟨d, hd⟩ := Option.ne_none_iff_exists'.mp registered
  have hstep : (view db).step row.fromRow.stepKey = some row.fromRow :=
    step_eq_some.mpr ⟨row, hrow, rfl⟩
  obtain ⟨e, hcur, -, hv, -⟩ := sound.lifecycle.current_of_active hstep leased.active
  have hdue : Due (view db) row.fromRow c.now :=
    ⟨e, d, ⟨hcur, leased.running, deadline, leased.lease, hnow⟩, hv ▸ hd⟩
  have fresh : c.Fresh db := Call.fresh_of_not_start fun name version input hop => by
    rw [hc] at hop
    cases hop
  rcases Call.Step.cases ⟨fresh, rfl⟩ sound with ⟨r, evs, -, heff, -⟩ | ⟨⟨ex, herr⟩, -⟩
  · rw [hc] at heff
    cases heff with
    | sweepExpiredLeases events run counted swept =>
      obtain ⟨t, ht, hfailed⟩ := swept row.fromRow hstep hdue
      obtain ⟨row', hrow', rfl, -⟩ := view_step.mp ht
      exact ⟨row', htext ▸ hrow', hfailed⟩
  · rw [hr] at herr
    cases herr

theorem lapsed_row_claimed {c : Call} {name other : String} {version : Int32} {maxResults : ℕ}
    {steps : List WorkflowStepExecution} (sound : Sound db)
    (found : E.get db .steps row.key = some row) (leased : Leased row workerId deadline)
    (hnow : deadline ≤ c.now)
    (hc : c.operation = .pollAndClaimWorkflowSteps name version other maxResults)
    (hversion : row.fromRow.versionKey = (name, version))
    (hr : c.result db = .ok (.claimed steps)) (room : steps.length < maxResults) :
    ∃ s ∈ steps, s.stepKey = row.fromRow.stepKey := by
  obtain ⟨hrow, -, -⟩ := sound.encoded.step_row found
  have fresh : c.Fresh db := Call.fresh_of_not_start fun name version input hop => by
    rw [hc] at hop
    cases hop
  rcases Call.Step.cases ⟨fresh, rfl⟩ sound with ⟨r, evs, hres, heff, -⟩ | ⟨⟨ex, herr⟩, -⟩
  · rw [hr] at hres
    cases hres
    rw [hc] at heff
    cases heff with
    | pollAndClaimWorkflowSteps claims complete =>
      refine complete room row.fromRow (step_eq_some.mpr ⟨row, hrow, rfl⟩) hversion ?_
      rw [leased.isClaimable]
      exact decide_eq_true hnow
  · rw [hr] at herr
    cases herr

/-- Until its deadline a claimed row belongs to its owner; from the deadline on it is open to
polls and sweeps, and closed to the owner until the step is claimed again. -/
theorem lease_exclusivity (reachable : Reachable E db)
    (found : E.get db .steps row.key = some row) (leased : Leased row workerId deadline) :
    (∀ (c : Call) (db' : E.Db), Call.Step db c db' → c.now < deadline →
      (∀ steps, c.result db = .ok (.claimed steps) →
        ∀ s ∈ steps, s.stepKey ≠ row.fromRow.stepKey) ∧
      (∀ other, other ≠ workerId →
        c.operation.request = some (row.workflowExecutionId, row.stepName, other) →
        (∃ ex, c.result db = .error ex) ∧ db' = db) ∧
      (E.get db' .steps row.key = some row ∨
        c.operation.request = some (row.workflowExecutionId, row.stepName, workerId) ∨
        c.operation = .cancelWorkflow row.workflowExecutionId)) ∧
    (∀ (h : List Entry) (db' : E.Db) (t : TimePoint) (c : Call), History E db h db' →
      deadline ≤ t → ClockFrom t (h.map Entry.call ++ [c]) →
      (∀ x ∈ h, ∀ s ∈ x.claimed,
        ¬ (s.workflowExecutionId = row.workflowExecutionId ∧ s.stepName = row.stepName)) →
      c.operation.request = some (row.workflowExecutionId, row.stepName, workerId) →
      (∃ ex, c.result db' = .error ex) ∧ c.after db' = db') ∧
    (∀ c : Call, deadline ≤ c.now →
      (∀ r, c.operation = .sweepExpiredLeases → c.result db = .ok r →
        (view db).definition row.fromRow.versionKey ≠ none →
        ∃ row', E.get (c.after db) .steps row.key = some row' ∧ row'.fromRow.status = .failed) ∧
      (∀ name version other maxResults steps,
        c.operation = .pollAndClaimWorkflowSteps name version other maxResults →
        row.fromRow.versionKey = (name, version) → c.result db = .ok (.claimed steps) →
        steps.length < maxResults → ∃ s ∈ steps, s.stepKey = row.fromRow.stepKey)) := by
  have sound := reachable.sound
  refine ⟨?_, ?_, ?_⟩
  · intro c db' step hnow
    refine ⟨fun steps hc => leased_row_not_claimed sound found leased hnow hc, ?_,
      leased_row_kept sound found leased step hnow⟩
    intro other hne hc
    rw [step.2]
    exact other_worker_throws sound found leased hc hne
  · intro h db' t c run ht clock hclaim hc
    exact lapsed_request_throws sound found leased run ht clock hclaim hc
  · intro c hnow
    exact ⟨fun r hc hr hd => lapsed_row_swept sound found leased hnow hc hr hd,
      fun name version other maxResults steps hc hv hr room =>
        lapsed_row_claimed sound found leased hnow hc hv hr room⟩

theorem lease_exclusivity_two_workers :
    let calls := Sample.begin (Sample.definition false 0)
    let claimed := calls ++ [Sample.poll 2000000 "first" (Sample.script 0 "ship" calls)]
    ∃ ex, (Sample.complete 3000000 "second" {}).result (Sample.after claimed) = .error ex := by
  intro calls claimed
  have reachable : Reachable Sample.store (Sample.after claimed) :=
    reachable_play (by decide +kernel)
  have hrow : (Sample.store.get (Sample.after claimed) .steps
      (stepExecutionKey (Sample.id 0) "ship" 0)).map (fun row : WorkflowStepExecutionRow =>
        (row.fromRow.status, row.fromRow.workerId, row.fromRow.leaseExpiresAt,
          row.workflowExecutionId, row.stepName)) =
      some (.running, some "first", some 10002000000, Sample.id 0, "ship") := by
    decide +kernel
  obtain ⟨row, found, hfields⟩ := Option.map_eq_some_iff.mp hrow
  obtain ⟨hr, ho, hl, hid, hname⟩ : row.fromRow.status = .running ∧
      row.fromRow.workerId = some "first" ∧ row.fromRow.leaseExpiresAt = some 10002000000 ∧
      row.workflowExecutionId = Sample.id 0 ∧ row.stepName = "ship" := by
    simpa only [Prod.mk.injEq] using hfields
  have hkey : row.key = stepExecutionKey (Sample.id 0) "ship" 0 :=
    Sample.store.key_of_get _ .steps _ _ found
  have fresh : (Sample.complete 3000000 "second" {}).Fresh (Sample.after claimed) :=
    Call.fresh_of_request rfl
  refine ((lease_exclusivity reachable (hkey ▸ found) ⟨hr, ho, hl⟩).1 _ _ ⟨fresh, rfl⟩
    (by decide)).2.1 "second" (by decide) ?_ |>.1
  rw [hid, hname]
  rfl

end WorkflowEngine
