import WorkflowEngine.Acceptance
import WorkflowEngine.Attribution

/-!
# A worker in time is not turned away

Whatever the workers of a fleet do, the store sees calls one after another. A
worker that asks before the deadline it was granted still holds its step, so
its keep-alives and its report are accepted unless the execution has ended, or
the definition or the logic does not allow what it asks.
-/

namespace WorkflowEngine
open Txn Txn.Program Systems Orchestrator

namespace Fleet
open ExecuteStep (StepHandler Outcome reportRequest find)
open Worker (Config)

variable {E : Engine schema} {store store' : Store E} {m m' : Member} {i : ℕ}
  {fleet fleet' : Fleet E} {events : List FleetEvent} {request : Transport.Request} {x : Entry}

theorem served_step (h : MemberStep i store m (.served request x) store' m') :
    Entry.Step store.db x store'.db := by
  cases h with
  | served h asks result answers timed =>
    obtain ⟨-, hafter⟩ := result_of_reply asks answers
    exact ⟨⟨fresh_of_worker ((worker_asks h).named asks), hafter⟩, result⟩

theorem Step.history {e : FleetEvent} (h : Step fleet e fleet') :
    History E fleet.store.db e.entry.toList fleet'.store.db := by
  cases h with
  | @member i e store members h =>
    obtain ⟨m, m', hm, hstep, -⟩ := h.inv
    cases e with
    | own e =>
      cases hstep
      exact .nil
    | served request x => exact .single (served_step hstep)
  | other h => exact .single h

theorem history_of_run (run : Run Step fleet events fleet') :
    History E fleet.store.db (events.filterMap FleetEvent.entry) fleet'.store.db := by
  induction run with
  | nil => exact .nil
  | snoc run last ih =>
    rw [filterMap_concat]
    exact ih.append last.history

theorem reachable_of_run {configs : List Config} {now : TimePoint}
    (run : Run Step (start E configs now) events fleet) : Reachable E fleet.store.db :=
  ⟨_, (history_of_run run).calls⟩

theorem asks_request {config : Config} {thread : Worker.Thread}
    {reply : Except Exception Transport.Response} {step : WorkflowStepExecution}
    {claim' : Option WorkflowStepExecution} {op : Operation}
    (h : Asks config thread reply (some step) request claim') (hop : request.operation = some op) :
    op.request = some (step.workflowExecutionId, step.stepName, config.workerId) := by
  cases h with
  | keepAlive =>
    obtain rfl := Option.some_inj.mp hop
    rfl
  | @report _ outcome handled =>
    rcases reportRequest_operation config.workerId step outcome with
      ⟨output, -, hreport⟩ | ⟨reason, -, hreport⟩
    · obtain rfl := Option.some_inj.mp (hreport.symm.trans hop)
      rfl
    · obtain rfl := Option.some_inj.mp (hreport.symm.trans hop)
      rfl

theorem HeldUntil.held {db : E.Db} {workerId : String} {step : WorkflowStepExecution}
    {deadline now : TimePoint} (h : HeldUntil db workerId step deadline) (sound : Sound db)
    (hnow : now < deadline) : ∃ e s, (view db).Held e s workerId now ∧
      e.workflowExecutionId = step.workflowExecutionId ∧ e.currentStepName = step.stepName := by
  obtain ⟨row, found, hid, hname, leased⟩ := h
  obtain ⟨hrow, -, -⟩ := sound.encoded.step_row found
  obtain ⟨e, current, hkey, -⟩ := sound.lifecycle.current_of_active
    (Ledger.step_eq_some.mpr ⟨row, hrow, rfl⟩) leased.active
  refine ⟨e, row.fromRow, ⟨current, leased.running, leased.owner, deadline, leased.lease, hnow⟩, ?_, ?_⟩
  · exact (congrArg StepKey.workflowExecutionId hkey).trans hid
  · exact (congrArg StepKey.stepName hkey).trans hname

/-- A keep-alive or a report that a worker of a fleet sends for its step is accepted if it is served
before the deadline last granted and the execution has not ended, as far as the definition and the
logic allow it. -/
theorem timely_requests_accepted {configs : List Config} {now : TimePoint}
    (distinct : (configs.map Config.workerId).Nodup)
    (run : Run Step (start E configs now) events fleet) (hm : m ∈ fleet.members)
    {step : WorkflowStepExecution} (claim : m.claim = some step)
    (served : MemberStep i fleet.store m (.served request x) store' m')
    (timely : ∀ d ∈ m.deadline, x.call.now < d)
    (unended : ¬ Ended fleet.store.db step.workflowExecutionId) :
    (∃ r, x.result = .ok r) ↔ step.stepName ≠ "" ∧ m.id ≠ "" ∧
      ∃ e d, (view fleet.store.db).execution step.workflowExecutionId = some e ∧
        (view fleet.store.db).definition e.versionKey = some d ∧
        x.call.operation.Fits x.call.env e d := by
  have reachable := reachable_of_run run
  obtain ⟨members, -⟩ := claims_exclusive distinct run
  have hcall := served_step served
  cases served with
  | @served request x now' reply worker h asks result answers timed =>
    have hrequest : x.call.operation.request =
        some (step.workflowExecutionId, step.stepName, m.id) := by
      have hasks := worker_asks h
      rw [show threadClaim m.worker.thread = some step from claim] at hasks
      exact asks_request hasks asks
    rw [hcall.2, request_accepted_iff reachable.sound hrequest]
    rcases members m hm step claim with ⟨d, hd, held⟩ | ⟨d, hd, hlapsed⟩ | hended
    · obtain ⟨e, s, current, hid, hname⟩ := held.held reachable.sound (timely d hd)
      have hexec := current.execution
      rw [hid] at hexec
      constructor
      · intro h
        obtain ⟨⟨-, hstep, hworker⟩, e', s', d', current', hid', -, hd', fits⟩ := h
        exact ⟨hstep, hworker, e', d', hid' ▸ current'.execution, hd', fits⟩
      · intro h
        obtain ⟨hstep, hworker, e', d', he', hd', fits⟩ := h
        obtain rfl := Option.some_inj.mp (hexec.symm.trans he')
        exact ⟨⟨reachable.identified _ e hexec, hstep, hworker⟩, e, s, d', current, hid, hname, hd',
          fits⟩
    · exact absurd (timely d hd) (not_lt.mpr (hlapsed.trans timed.now_le.1))
    · exact absurd hended unended

theorem granted_of_polledStep {reply : Except Exception Transport.Response}
    {step : WorkflowStepExecution} (h : Worker.polledStep (some reply) = some step) :
    granted reply = some step := by
  cases reply with
  | error e => cases h
  | ok response => cases response <;> first | exact h | cases h

theorem timely_requests_accepted_shipped : ∃ (fleet : Fleet Sample.store) (m m' : Member)
    (step : WorkflowStepExecution) (store' : Store Sample.store) (request : Transport.Request)
    (x : Entry), m ∈ fleet.members ∧ m.claim = some step ∧
      MemberStep 0 fleet.store m (.served request x) store' m' ∧
      (∀ d ∈ m.deadline, x.call.now < d) ∧
      ¬ Ended fleet.store.db step.workflowExecutionId ∧ ∃ r, x.result = .ok r := by
  let calls := Sample.begin (Sample.definition false 0)
  let poll := Sample.poll 2000000 "first" (Sample.script 0 "ship" calls)
  obtain ⟨_, hbegun⟩ := run_begun [shipper "first"]
  obtain ⟨_, reply, hpoll, hclaimed⟩ := run_polls (E := Sample.store)
    ⟨Sample.after calls, 1000000⟩ [] [] { config := shipper "first" } poll 2000000 rfl rfl
    (.stopped (fun _ => rfl) (by decide))
  have hhanded : (Worker.polledStep (some reply)).map
      (fun s => (s.workflowExecutionId, s.stepName, s.stored.leaseExpiresAt)) =
        some (Sample.id 0, "ship", some 10002000000) := by
    rw [hclaimed]
    decide +kernel
  obtain ⟨step, hstep, hfields⟩ := Option.map_eq_some_iff.mp hhanded
  obtain ⟨hid, hrest⟩ := Prod.mk.inj hfields
  obtain ⟨hname, hlease⟩ := Prod.mk.inj hrest
  have hop : (reportRequest "first" step (some (.returned (.object [])))).operation =
      some shipped.operation := by
    rw [shipped, ← hid, ← hname]
    rfl
  have registered : find (shipper "first").handlers step.stepName =
      some fun _ outcome => outcome = .returned (.object []) := by
    rw [hname]
    rfl
  let handed := Member.serve { config := shipper "first" } { thread := .polling (.served reply) } reply
  have ends : (fun (_ : WorkflowStepExecution) outcome => outcome = Outcome.returned (.object [])) step
      (.returned (.object [])) := rfl
  obtain ⟨_, hhandles⟩ := run_handles (E := Sample.store) ⟨Sample.after (calls ++ [poll]), 2000000⟩
    [] [] handed rfl hstep registered ends
  have distinct : ([shipper "first"].map Config.workerId).Nodup := by decide
  have run := (hbegun.append hpoll).append hhandles
  have hexecution : (Sample.store.get (Sample.after (calls ++ [poll])) .executions (Sample.id 0)).map
      (fun row : WorkflowExecutionRow => (row.fromRow.status, row.fromRow.versionKey)) =
        some (.running, "order", 1) := by decide +kernel
  have hdefinition : Sample.store.get (Sample.after (calls ++ [poll])) .definitions
      (definitionKey "order" 1) = some (Sample.definition false 0).toRow := by decide +kernel
  obtain ⟨row, hrow, hfound⟩ := Option.map_eq_some_iff.mp hexecution
  obtain ⟨hrunning, hversion⟩ := Prod.mk.inj hfound
  generalize Sample.after (calls ++ [poll]) = db at run hrow hdefinition
  have hserve : MemberStep 0 ⟨db, 2000000⟩
      { handed with worker :=
          { thread := .executing (.reporting step (some (.returned (.object []))) .sent) } }
      (.served (reportRequest "first" step (some (.returned (.object []))))
        ⟨shipped, shipped.result db⟩) _ _ :=
    .served (.thread (.execute (.report (.serve _)))) hop rfl rfl
      (.stopped (fun _ => rfl) (by decide : (2000000 : TimePoint) ≤ 3000000))
  have hexec : (view db).execution step.workflowExecutionId = some row.fromRow :=
    view_execution.mpr ⟨row, hid.symm ▸ hrow, rfl⟩
  have hd : (view db).definition row.fromRow.versionKey = some (Sample.definition false 0) := by
    rw [hversion]
    exact (Encoded.definition (k := ("order", 1)) hdefinition).trans
      (congrArg some (WorkflowDefinition.fromRow_toRow _))
  have unended : ¬ Ended db step.workflowExecutionId := by
    intro ended
    obtain ⟨e, he, hended⟩ := ended
    obtain rfl := Option.some_inj.mp (hexec.symm.trans he)
    exact hended hrunning
  have timely : ∀ d ∈ handed.deadline, shipped.now < d := by
    intro d hd
    have hdeadline : handed.deadline = some 10002000000 := by
      rw [show handed.deadline = (granted reply).elim none fun step => step.stored.leaseExpiresAt from
        rfl, granted_of_polledStep hstep]
      exact hlease
    obtain rfl := Option.some_inj.mp (hdeadline.symm.trans hd)
    decide
  have named : "first" ≠ "" := by decide
  have accepted := (timely_requests_accepted distinct run List.mem_cons_self rfl hserve timely
    unended).mpr ⟨by simp [hname], named, row.fromRow, _, hexec, hd, by simp, _, rfl, .inl rfl⟩
  exact ⟨⟨⟨db, 2000000⟩, [_]⟩, _, _, step, _, _, _, List.mem_cons_self, rfl, hserve, timely, unended,
    accepted⟩

end Fleet
end WorkflowEngine
