import WorkflowEngine.Course

/-!
# Every course can be taken

The converse of `Course`: where the definition lets an execution go, the engine
can take it. One worker that polls and reports at a single instant is enough,
as long as each attempt of the version is at a step that has a lease.
-/

namespace WorkflowEngine
open Txn Txn.Program Systems Orchestrator Ledger
open Iso8601 (Exact yearTenThousand)

namespace Ledger

variable {L L' : Ledger} {ev : Event} {d : WorkflowDefinition} {key : VersionKey}
  {e : WorkflowExecution} {s : WorkflowStepExecution}

/-- Each active attempt of the version is at a step of the definition. -/
def Charted (L : Ledger) (key : VersionKey) (d : WorkflowDefinition) : Prop :=
  ∀ k s, L.step k = some s → s.versionKey = key → s.status.Active →
    stepDefinitionExists d s.stepName = true

theorem Charted.defined {k : StepKey} (h : Charted L key d) (hs : L.step k = some s)
    (ha : s.status.Active) : s.versionKey = key → stepDefinitionExists d s.stepName = true :=
  fun hversion => h k s hs hversion ha

theorem Charted.setStep (h : Charted L key d) (hs : s.versionKey = key → s.status.Active →
    stepDefinitionExists d s.stepName = true) : Charted (L.setStep s) key d := by
  intro k found hfound
  rw [setStep_step] at hfound
  split_ifs at hfound
  · obtain rfl := Option.some_inj.mp hfound
    exact hs
  · exact h k found hfound

theorem Charted.setStep_ended (h : Charted L key d) (hs : ¬ s.status.Active) :
    Charted (L.setStep s) key d := h.setStep fun _ ha => absurd ha hs

theorem Charted.enter (h : Charted L key d) {input : Json} {createdAt : TimePoint}
    {scheduledAt : Option TimePoint}
    (he : e.versionKey = key → stepDefinitionExists d e.currentStepName = true) :
    Charted ((L.setExecution e).setStep (e.pendingStep input createdAt scheduledAt)) key d :=
  Charted.setStep (L := L.setExecution e) h fun hversion _ => he hversion

theorem Transition.charted (h : Transition L ev L') (charted : Charted L key d)
    (hd : L.definition key = some d)
    (hev : ∀ e b, ev = .started e b → e.versionKey = key →
      stepDefinitionExists d e.currentStepName = true) : Charted L' key d := by
  cases h with
  | register => exact charted
  | @start d' e =>
    refine Charted.enter (L := L.takeLock d'.singleton e) ?_ (hev e _ rfl)
    intro k s hs
    rw [takeLock_step] at hs
    exact charted k s hs
  | claim step claimable =>
    have hdefined := charted.defined step (active_of_isClaimable claimable)
    exact charted.setStep fun hversion _ => hdefined hversion
  | renew held =>
    have hdefined := charted.defined held.step (.inr held.claimed)
    exact charted.setStep fun hversion _ => hdefined hversion
  | finish => exact charted.setStep_ended (not_active_completed rfl)
  | @advance e s d' workerId next now at_ createdAt scheduledAt output state input held definition
      defined =>
    refine (charted.setStep_ended (not_active_completed rfl)).enter fun hversion => ?_
    obtain rfl := Option.some_inj.mp (definition.symm.trans (hversion ▸ hd))
    exact defined
  | @retry e s d' step workerId reason now at_ createdAt failing definition found =>
    refine (charted.setStep_ended (not_active_failed rfl)).enter fun hversion => ?_
    obtain rfl := Option.some_inj.mp (definition.symm.trans (hversion ▸ hd))
    exact findStepDefinition_ok_iff.mp ⟨step, found⟩
  | exhaust => exact charted.setStep_ended (not_active_failed rfl)
  | cancel =>
    intro k s hs hversion ha
    rw [setExecution_step, cancelSteps_step] at hs
    obtain ⟨t, ht, rfl⟩ := Option.map_eq_some_iff.mp hs
    split_ifs at hversion ha ⊢ with hcanceled
    · exact charted k t ht hversion hcanceled.2
    · exact charted k t ht hversion ha

theorem charted_of_run {evs : List Event} (h : Run Transition L evs L')
    (charted : Charted L key d) (hd : L.definition key = some d)
    (hevs : ∀ ev ∈ evs, (∀ d, ev ≠ .registered d) ∧ ∀ e b, ev ≠ .started e b) :
    Charted L' key d := by
  have hstep : ∀ L ev L', (Charted L key d ∧ L.definition key = some d) →
      ((∀ d, ev ≠ .registered d) ∧ ∀ e b, ev ≠ .started e b) → Transition L ev L' →
      (Charted L' key d ∧ L'.definition key = some d) ∧ True := by
    intro L ev L' hL hev step
    obtain ⟨charted, hd⟩ := hL
    refine ⟨⟨step.charted charted hd fun e b h => absurd h (hev.2 e b), ?_⟩, trivial⟩
    rw [step.definition hev.1]
    exact hd
  exact (h.always (Q := fun _ => True) hstep hevs ⟨charted, hd⟩).1.1

end Ledger

variable {E : Engine schema} {db db' : E.Db} {id workerId : String} {key : VersionKey}
  {d : WorkflowDefinition} {now : TimePoint} {p q : Position}

inductive Operation.By (workerId : String) : Operation → Prop
  | poll (name : String) (version : Int32) (maxResults : ℕ) :
      By workerId (.pollAndClaimWorkflowSteps name version workerId maxResults)
  | complete (id name : String) (output : Json) (delay : Option Seconds) :
      By workerId (.completeStep id name workerId output delay)
  | fail (id name reason : String) : By workerId (.failStep id name workerId reason)
  | cancel (id : String) : By workerId (.cancelWorkflow id)

structure Call.Instant (c : Call) (workerId : String) (now : TimePoint) : Prop where
  operation : c.operation.By workerId
  clock : ∀ n, c.reading n = now

/-- The definition gives each of its steps a name and a lease that ends before the year 10000. -/
def Leases (d : WorkflowDefinition) (now : TimePoint) : Prop :=
  ∀ name, stepDefinitionExists d name = true → name ≠ "" ∧
    ∃ lease, d.lease name = .ok lease ∧ now.addSeconds lease < yearTenThousand

structure Ground (key : VersionKey) (d : WorkflowDefinition) (db : E.Db) : Prop where
  fromEpoch : ReachableFromEpoch E db
  definition : (view db).definition key = some d
  charted : Charted (view db) key d

/-- The execution stands at the position, and its current attempt may be claimed. -/
structure Ready (id : String) (key : VersionKey) (d : WorkflowDefinition) (now : TimePoint)
    (db : E.Db) (p : Position) : Prop extends Ground key d db where
  execution : ∃ e, (view db).execution id = some e ∧ e.versionKey = key ∧ e.position = p
  due : p.status = .running → ∃ s, (view db).step ⟨id, p.stepName, p.attempt⟩ = some s ∧
    s.Claimable now

theorem Ground.sound (h : Ground key d db) : Sound db := h.fromEpoch.reachable.sound

theorem ReachableFromEpoch.step {c : Call} (h : ReachableFromEpoch E db) (call : Call.Step db c db')
    (clock : ∀ n, 0 ≤ c.reading n) : ReachableFromEpoch E db' := by
  obtain ⟨calls, run, hcalls⟩ := h
  refine ⟨calls ++ [c], run.snoc call, ?_⟩
  simpa only [List.forall_mem_append, List.forall_mem_singleton] using ⟨hcalls, clock⟩

theorem Operation.By.unstarted {op : Operation} (h : op.By workerId) :
    (∀ d, op ≠ .registerWorkflowDefinition d) ∧
      ∀ name version input, op ≠ .startWorkflow name version input := by
  cases h <;> simp

theorem Call.Instant.step {c : Call} (h : c.Instant workerId now) (db : E.Db) :
    Call.Step db c (c.after db) :=
  ⟨Call.fresh_of_not_start h.operation.unstarted.2, rfl⟩

theorem Call.Instant.keepsDefinition {c : Call} (h : c.Instant workerId now) :
    c.KeepsDefinition d key := fun d' hop _ => absurd hop (h.operation.unstarted.1 d')

theorem Ground.after {c : Call} (h : Ground key d db) (hc : c.Instant workerId now) (hnow : 0 ≤ now) :
    Ground key d (c.after db) := by
  have hstep := hc.step db
  refine ⟨h.fromEpoch.step hstep fun n => (hc.clock n).symm ▸ hnow,
    hstep.definition_kept h.sound h.definition hc.keepsDefinition, ?_⟩
  rcases hstep.cases h.sound with ⟨r, evs, hr, heff, -⟩ | ⟨-, hsame⟩
  · refine charted_of_run heff.run h.charted h.definition fun ev hev => ⟨?_, ?_⟩
    · exact heff.not_registered hc.operation.unstarted.1 ev hev
    · rintro e b rfl
      exact hc.operation.unstarted.2 _ _ _ (heff.started hev).1
  · rw [hsame]
    exact h.charted

theorem Orchestrator.Leasing.owned {s t : WorkflowStepExecution} (h : Leasing d workerId now s t) :
    Owned t workerId now := by
  obtain ⟨lease, hlease, rfl⟩ := h
  obtain ⟨step, -, hstep⟩ := Cxx.bind_eq_ok.mp hlease
  refine ⟨rfl, rfl, now.addSeconds lease, rfl, ?_⟩
  exact lt_add_of_pos_right now (mul_pos (one_le_lease hstep) (by decide))

/-- A poll that asks for everything that may be claimed. -/
theorem poll_claims_all (h : ReachableFromEpoch E db) {s : WorkflowStepExecution}
    (hd : (view db).definition s.versionKey = some d) (worker : workerId ≠ "")
    (leases : ∀ s', StoredStep db s' → s'.versionKey = s.versionKey → s'.Claimable now →
      ∃ lease, d.lease s'.stepName = .ok lease)
    (hs : StoredStep db s) (hclaimable : s.Claimable now) :
    ∃ c t, Call.Instant c workerId now ∧ Leasing d workerId now s t ∧
      E.get (c.after db) .steps t.stepKey.text = some t.toRow ∧
      ∀ table k, table ≠ .steps → E.get (c.after db) table k = E.get db table k := by
  have sound := h.reachable.sound
  let env := scripted now 0 [] {}
  let due := (candidatesIn env db s.workflowName s.workflowVersion).filter fun c => isClaimable c now
  let c : Call :=
    ⟨.pollAndClaimWorkflowSteps s.workflowName s.workflowVersion workerId due.length, env⟩
  have hmem : ∀ s', s' ∈ due ↔
      StoredStep db s' ∧ s'.versionKey = s.versionKey ∧ s'.Claimable now := fun s => mem_claimable sound
  have hdue : s ∈ due := (hmem s).mpr ⟨hs, rfl, hclaimable⟩
  have hall : claimable now due.length (candidatesIn env db s.workflowName s.workflowVersion) = due :=
    List.take_length
  obtain ⟨claimed, hclaimed⟩ := exists_claims workerId now fun s' hs' =>
    have hfound := (hmem s').mp hs'
    leases s' hfound.1 hfound.2.1 hfound.2.2
  obtain ⟨t, ht, hclaim⟩ := claimed_of_mem hclaimed hdue
  obtain ⟨row, hrow, hfrom⟩ := Option.map_eq_some_iff.mp hd
  have hnamed : row.fromRow.workflowName ≠ "" ∧ ¬ row.fromRow.workflowVersion < 1 :=
    h.holds .definitions _ row hrow
  obtain ⟨hname, hnumber⟩ := registered_key sound.encoded hrow
  rw [hname, hnumber] at hnamed
  have polling : Polling env (Tx.begin db) s.workflowName s.workflowVersion workerId due.length d :=
    ⟨⟨hnamed.1, hnamed.2, worker, (List.length_pos_of_mem hdue).ne'⟩, ⟨row, hrow, hfrom⟩, rfl⟩
  have hafter : c.after db = E.applyWrites db (claimed.map claimWrite) :=
    congrArg Prod.snd (poll_performs sound.encoded.keyed polling (hall.symm ▸ hclaimed))
  have hkeys : (claimed.map fun s => s.stepKey.text).Nodup := by
    refine claims_nodup hclaimed ?_
    rw [← hall]
    exact claimable_nodup sound.encoded.keyed ..
  refine ⟨c, t, ⟨.poll .., fun _ => rfl⟩, hclaim, ?_, fun table k hne => ?_⟩
  · rw [hafter, ← t.key_toRow_text]
    exact E.get_applyWrites_mem (claimWrites_nodup hkeys) (List.mem_map_of_mem ht)
  · rw [hafter]
    refine E.get_applyWrites_other ?_
    intro w hw heq
    obtain ⟨s', -, rfl⟩ := List.mem_map.mp hw
    rw [claimWrite_address] at heq
    cases heq
    exact hne rfl

theorem Ready.poll (h : Ready id key d now db p) (leases : Leases d now) (worker : workerId ≠ "")
    (hnow : Exact now) (running : p.status = .running) :
    ∃ c e s, Call.Instant c workerId now ∧ (view (c.after db)).Held e s workerId now ∧
      e.workflowExecutionId = id ∧ e.versionKey = key ∧ e.position = p := by
  have sound := h.sound
  obtain ⟨e, he, rfl, rfl⟩ := h.execution
  obtain ⟨s, hs, hclaimable⟩ := h.due running
  have hactive : ∀ {s : WorkflowStepExecution}, s.Claimable now → s.status.Active := fun hs =>
    active_of_isClaimable (isClaimable_iff.mpr hs)
  obtain ⟨row, hrow, hfrom, hkey⟩ := view_step.mp hs
  have hversion : s.versionKey = e.versionKey := by
    obtain ⟨e', he', hversion⟩ := (sound.lifecycle id).step_execution _ s rfl hs
    obtain rfl := Option.some_inj.mp (he.symm.trans he')
    exact hversion
  have hleases : ∀ s', StoredStep db s' → s'.versionKey = s.versionKey → s'.Claimable now →
      s'.stepName ≠ "" ∧
        ∃ lease, d.lease s'.stepName = .ok lease ∧ now.addSeconds lease < yearTenThousand := by
    intro s' hstored hsame hclaimable
    obtain ⟨row, hrow, hfrom⟩ := hstored
    exact leases _ (h.charted _ s' (view_step.mpr ⟨row, hrow, hfrom, rfl⟩) (hsame.trans hversion)
      (hactive hclaimable))
  have hstored : StoredStep db s := ⟨row, hkey.symm ▸ hrow, hfrom⟩
  obtain ⟨c, t, hc, hclaim, ht, hother⟩ := poll_claims_all h.fromEpoch (hversion.symm ▸ h.definition)
    worker (fun s' hs' hsame hclaimable =>
      have hlease := (hleases s' hs' hsame hclaimable).2
      ⟨_, hlease.choose_spec.1⟩) hstored hclaimable
  have hsettled : s.stored = s := hfrom ▸ h.fromEpoch.holds .steps _ row hrow
  have htsettled : t.stored = t := hclaim.stored hsettled hnow fun lease hlease => by
    obtain ⟨-, lease', hlease', hlt⟩ := hleases s hstored rfl hclaimable
    obtain rfl := Except.ok.inj (hlease'.symm.trans hlease)
    exact hlt
  have hexec : (view (c.after db)).execution id = some e := by
    obtain ⟨row, hrow, hfrom⟩ := view_execution.mp he
    exact view_execution.mpr ⟨row, (hother _ _ (by decide)).trans hrow, hfrom⟩
  have hid := (sound.lifecycle id).execution_id e he
  have hcurrent : t.stepKey = e.currentKey := by
    rw [hclaim.stepKey, hkey, ← hid]
    rfl
  have hstep : (view (c.after db)).step e.currentKey = some t :=
    view_step.mpr ⟨_, hcurrent ▸ ht, t.fromRow_toRow.trans htsettled, hcurrent⟩
  exact ⟨c, e, t, hc, ⟨⟨hid.symm ▸ hexec, running, hstep⟩, hclaim.owned⟩, hid, rfl, rfl⟩

theorem after_completes {decision : NextStepDecision} (h : p.after d (.completes decision) = some q) :
    Routed d decision := by
  rw [Position.after] at h
  split_ifs at h with hcomplete
  · exact .inl hcomplete
  · obtain ⟨next, hnext, h⟩ := Option.bind_eq_some_iff.mp h
    split_ifs at h with hdefined
    exact .inr ⟨next, hnext, hdefined⟩

theorem after_fails {reason : String} (h : p.after d (.fails reason) = some q) :
    stepDefinitionExists d p.stepName = true := by
  refine findStepDefinition_ok_iff.mp ?_
  cases hstep : findStepDefinition d p.stepName with
  | ok step => exact ⟨step, rfl⟩
  | error ex =>
    simp only [Position.after, hstep] at h
    cases h

theorem Proceeds.eq {ending : Ending} {q' : Position} (h : Proceeds d p ending q)
    (h' : Proceeds d p ending q') : q' = q := Option.some_inj.mp (h'.2.symm.trans h.2)

theorem Ground.ready {env : Environment} {r : WorkflowExecution} (h : Ground r.versionKey d db)
    (hget : E.get db .executions id = some r.toRow)
    (opened : r.status = .running → Opened env db none r) :
    Ready id r.versionKey d now db r.position := by
  have hexec : (view db).execution id = some r.stored :=
    view_execution.mpr ⟨_, hget, r.fromRow_toRow⟩
  refine ⟨h, ⟨_, hexec, rfl, rfl⟩, fun running => ?_⟩
  obtain ⟨n, m, input, hstep⟩ := opened running
  have hid : r.workflowExecutionId = id := (h.sound.lifecycle id).execution_id r.stored hexec
  subst hid
  refine ⟨_, view_step.mpr ⟨_, hstep, WorkflowStepExecution.fromRow_toRow _, rfl⟩, .inl ⟨rfl, ?_⟩⟩
  simp [WorkflowExecution.pendingStep, WorkflowStepExecution.stored, storedTime]

theorem Ground.accepted {e : WorkflowExecution} {s : WorkflowStepExecution} {c : Call}
    (h : Ground key d db) (hc : c.Instant workerId now) (leases : Leases d now)
    (worker : workerId ≠ "") (held : (view db).Held e s workerId now) (hversion : e.versionKey = key)
    (request : c.operation.request = some (e.workflowExecutionId, e.currentStepName, workerId))
    (fits : c.operation.Fits c.env e d) : ∃ r, c.result db = .ok r := by
  rw [request_accepted_iff h.sound request]
  have hname : s.stepName = e.currentStepName :=
    congrArg StepKey.stepName (held.toCurrent.step_key h.sound.lifecycle)
  have hdefined := h.charted _ s held.step
    ((held.toCurrent.version h.sound.lifecycle).trans hversion) (.inr held.claimed)
  rw [hname] at hdefined
  refine ⟨⟨h.fromEpoch.reachable.identified _ e held.execution, (leases _ hdefined).1, worker⟩, e, s,
    d, ?_, rfl, rfl, hversion ▸ h.definition, fits⟩
  rw [Call.now, hc.clock]
  exact held

theorem Ground.lands {ending : Ending} {e e' r : WorkflowExecution} {d' : WorkflowDefinition}
    {env : Environment} (h : Ground key d db) (after : Ground key d db')
    (he : (view db).execution id = some e) (hversion : e.versionKey = key)
    (move : Proceeds d e.position ending q) (he' : (view db).execution id = some e')
    (hd' : (view db).definition e'.versionKey = some d')
    (proceeds : Proceeds d' e'.position ending r.position)
    (same : r.versionKey = e'.versionKey) (hget : E.get db' .executions id = some r.toRow)
    (opened : r.status = .running → Opened env db' none r) : Ready id key d now db' q := by
  obtain rfl := Option.some_inj.mp (he.symm.trans he')
  rw [hversion] at hd' same
  obtain rfl := Option.some_inj.mp (h.definition.symm.trans hd')
  obtain rfl := proceeds.eq move
  subst same
  exact after.ready hget opened

theorem Ground.complete {decision : NextStepDecision} {e : WorkflowExecution}
    {s : WorkflowStepExecution} (h : Ground key d db) (held : (view db).Held e s workerId now)
    (hversion : e.versionKey = key) (move : Proceeds d e.position (.completes decision) q)
    (leases : Leases d now) (worker : workerId ≠ "") (hnow : Exact now) :
    ∃ c, Call.Instant c workerId now ∧ Ready e.workflowExecutionId key d now (c.after db) q := by
  let c : Call := ⟨.completeStep e.workflowExecutionId e.currentStepName workerId .null none,
    scripted now 0 [] decision⟩
  have hc : c.Instant workerId now := ⟨.complete .., fun _ => rfl⟩
  have fits : c.operation.Fits c.env e d := ⟨by simp, decision, rfl, after_completes move.2⟩
  obtain ⟨r, hr⟩ := h.accepted hc leases worker held hversion rfl fits
  obtain ⟨tx, hret, hview⟩ := Call.result_ok hr
  simp only [c, Operation.program, returns_bind, returns_pure] at hret
  obtain ⟨_, _, hret, -, rfl⟩ := hret
  obtain ⟨e', d', decision', he', -, hd', hdecision, proceeds, same, hget, opened⟩ :=
    completeStep_proceeds h.sound.encoded hret
  obtain rfl : decision = decision' := Except.ok.inj hdecision
  have after := h.after hc hnow.nonneg
  rw [hview] at hget opened
  exact ⟨c, hc, h.lands after held.execution hversion move he' hd' proceeds same hget opened⟩

theorem Ground.fail {reason : String} {e : WorkflowExecution} {s : WorkflowStepExecution}
    (h : Ground key d db) (held : (view db).Held e s workerId now) (hversion : e.versionKey = key)
    (move : Proceeds d e.position (.fails reason) q) (leases : Leases d now) (worker : workerId ≠ "")
    (hnow : Exact now) :
    ∃ c, Call.Instant c workerId now ∧ Ready e.workflowExecutionId key d now (c.after db) q := by
  let c : Call := ⟨.failStep e.workflowExecutionId e.currentStepName workerId reason,
    scripted now 0 [] {}⟩
  have hc : c.Instant workerId now := ⟨.fail .., fun _ => rfl⟩
  obtain ⟨r, hr⟩ := h.accepted hc leases worker held hversion rfl (after_fails move.2)
  obtain ⟨tx, hret, hview⟩ := Call.result_ok hr
  simp only [c, Operation.program, returns_bind, returns_pure] at hret
  obtain ⟨_, _, hret, -, rfl⟩ := hret
  obtain ⟨e', d', he', -, hd', proceeds, same, hget, opened⟩ := failStep_proceeds h.sound.encoded hret
  have after := h.after hc hnow.nonneg
  rw [hview] at hget opened
  exact ⟨c, hc, h.lands after held.execution hversion move he' hd' proceeds same hget opened⟩

theorem Ground.cancel {e : WorkflowExecution} (h : Ground key d db)
    (he : (view db).execution id = some e) (hversion : e.versionKey = key)
    (move : Proceeds d e.position .canceled q) (workerId : String) (hnow : 0 ≤ now) :
    ∃ c, Call.Instant c workerId now ∧ Ready id key d now (c.after db) q := by
  let c : Call := ⟨.cancelWorkflow id, scripted now 0 [] {}⟩
  have hc : c.Instant workerId now := ⟨.cancel .., fun _ => rfl⟩
  obtain ⟨row, hrow, hfrom⟩ := view_execution.mp he
  have hrunning : row.fromRow.status = .running := hfrom ▸ move.1
  obtain ⟨r, hr⟩ : ∃ r, c.result db = .ok r :=
    Call.result_isOk.mpr ((succeeds_bind_total fun _ => total_pure _).mpr
      (cancelWorkflow_succeeds.mpr ⟨h.fromEpoch.reachable.identified _ e he, row, hrow, hrunning⟩))
  obtain ⟨tx, hret, hview⟩ := Call.result_ok hr
  simp only [c, Operation.program, returns_bind, returns_pure] at hret
  obtain ⟨r', _, hret, -, rfl⟩ := hret
  obtain ⟨e', he', proceeds, same, hget⟩ := cancelWorkflow_proceeds h.sound.encoded hret
  have after := h.after hc hnow
  rw [hview] at hget
  have hd' : (view db).definition e'.versionKey = some d := by
    rw [← Option.some_inj.mp (he.symm.trans he'), hversion]
    exact h.definition
  have ended := congrArg Position.status (Option.some_inj.mp (proceeds d).2)
  have opened (hr : r'.status = .running) : Opened c.env (c.after db) none r' := by
    cases ended.trans hr
  exact ⟨c, hc, h.lands after he hversion move he' hd' (proceeds d) same hget opened⟩

theorem Ready.move {ending : Ending} (h : Ready id key d now db p) (move : Proceeds d p ending q)
    (leases : Leases d now) (worker : workerId ≠ "") (hnow : Exact now) :
    ∃ calls db', Calls E db calls db' ∧ (∀ c ∈ calls, Call.Instant c workerId now) ∧
      Ready id key d now db' q := by
  cases ending with
  | completes decision =>
    obtain ⟨poll, e, s, hpoll, held, rfl, hversion, rfl⟩ := h.poll leases worker hnow move.1
    have ground := h.toGround.after hpoll hnow.nonneg
    obtain ⟨c, hc, ready⟩ := ground.complete held hversion move leases worker hnow
    exact ⟨[poll, c], _, .cons (hpoll.step db) (.single (hc.step _)), by simp [hpoll, hc], ready⟩
  | fails reason =>
    obtain ⟨poll, e, s, hpoll, held, rfl, hversion, rfl⟩ := h.poll leases worker hnow move.1
    have ground := h.toGround.after hpoll hnow.nonneg
    obtain ⟨c, hc, ready⟩ := ground.fail held hversion move leases worker hnow
    exact ⟨[poll, c], _, .cons (hpoll.step db) (.single (hc.step _)), by simp [hpoll, hc], ready⟩
  | canceled =>
    obtain ⟨e, he, hversion, rfl⟩ := h.execution
    obtain ⟨c, hc, ready⟩ := h.toGround.cancel he hversion move workerId hnow.nonneg
    exact ⟨[c], _, .single (hc.step db), by simp [hc], ready⟩

theorem Ready.run {endings : List Ending} (h : Ready id key d now db p)
    (course : Run (Proceeds d) p endings q) (leases : Leases d now) (worker : workerId ≠ "")
    (hnow : Exact now) :
    ∃ calls db', Calls E db calls db' ∧ (∀ c ∈ calls, Call.Instant c workerId now) ∧
      Ready id key d now db' q := by
  induction course with
  | nil => exact ⟨[], db, .nil, by simp, h⟩
  | snoc _ last ih =>
    obtain ⟨calls, db₁, hcalls, hinstant, ready⟩ := ih
    obtain ⟨calls', db₂, hcalls', hinstant', ready'⟩ := ready.move last leases worker hnow
    refine ⟨calls ++ calls', db₂, hcalls.append hcalls', fun c hc => ?_, ready'⟩
    rcases List.mem_append.mp hc with hc | hc
    · exact hinstant c hc
    · exact hinstant' c hc

def CanGo (P : Call → Prop) (db : E.Db) (id : String) (q : Position) : Prop :=
  ∃ calls db' row, Calls E db calls db' ∧ (∀ c ∈ calls, P c) ∧
    E.get db' .executions id = some row ∧ row.fromRow.position = q

/-- Where an execution can go is what the program that its definition describes says, and one worker
can take it there at a single instant if its steps have leases and its current attempt is due. -/
theorem courses_taken (h : ReachableFromEpoch E db) {row : WorkflowExecutionRow}
    {registered : WorkflowDefinitionRow} (found : E.get db .executions id = some row)
    (hd : E.get db .definitions
      (definitionKey row.fromRow.workflowName row.fromRow.workflowVersion) = some registered)
    (leases : Leases registered.fromRow now)
    (charted : ∀ s, StoredStep db s → s.versionKey = row.fromRow.versionKey → s.status.Active →
      stepDefinitionExists registered.fromRow s.stepName = true)
    (due : row.fromRow.status = .running →
      ∃ s, StoredStep db s ∧ s.stepKey = row.fromRow.currentKey ∧ s.Claimable now)
    (worker : workerId ≠ "") (hnow : Exact now) :
    (CanGo (fun c => c.KeepsDefinition registered.fromRow row.fromRow.versionKey) db id q ↔
      ∃ endings, Run (Proceeds registered.fromRow) row.fromRow.position endings q) ∧
    ((∃ endings, Run (Proceeds registered.fromRow) row.fromRow.position endings q) →
      CanGo (fun c => c.Instant workerId now) db id q) := by
  have sound := h.reachable.sound
  obtain ⟨hexec, rfl, -⟩ := sound.encoded.execution found
  have hdefinition : (view db).definition row.fromRow.versionKey = some registered.fromRow :=
    Encoded.definition (k := row.fromRow.versionKey) hd
  have ready : Ready row.fromRow.workflowExecutionId row.fromRow.versionKey registered.fromRow now db
      row.fromRow.position := by
    refine ⟨⟨h, hdefinition, fun k s hs => ?_⟩, ⟨_, hexec, rfl, rfl⟩, fun running => ?_⟩
    · obtain ⟨step, hstep, hfrom, rfl⟩ := view_step.mp hs
      exact charted s ⟨step, hstep, hfrom⟩
    · obtain ⟨s, ⟨step, hstep, hfrom⟩, hkey, hclaimable⟩ := due running
      rw [hkey] at hstep
      exact ⟨s, view_step.mpr ⟨step, hstep, hfrom, hkey⟩, hclaimable⟩
  have taken : (∃ endings, Run (Proceeds registered.fromRow) row.fromRow.position endings q) →
      CanGo (fun c => c.Instant workerId now) db row.fromRow.workflowExecutionId q := by
    rintro ⟨endings, course⟩
    obtain ⟨calls, db', hcalls, hinstant, ready'⟩ := ready.run course leases worker hnow
    obtain ⟨e, he, -, rfl⟩ := ready'.execution
    obtain ⟨row', hrow', rfl⟩ := view_execution.mp he
    exact ⟨calls, db', row', hcalls, hinstant, hrow', rfl⟩
  refine ⟨⟨?_, ?_⟩, taken⟩
  · rintro ⟨calls, db', row', run, keeps, found', rfl⟩
    have standing : Standing row.fromRow.workflowExecutionId row.fromRow.versionKey
        registered.fromRow db row.fromRow.position :=
      ⟨sound, ⟨_, hexec, rfl, rfl⟩, hdefinition⟩
    obtain ⟨parts, q, -, -, hrun, standing'⟩ :=
      run.parts (fun _ _ _ _ h keeps call => h.follows keeps call) keeps standing
    obtain ⟨e, he, -, rfl⟩ := standing'.execution
    obtain ⟨row'', hrow'', rfl⟩ := view_execution.mp he
    obtain rfl := Option.some_inj.mp (found'.symm.trans hrow'')
    exact ⟨_, hrun⟩
  · rintro ⟨endings, course⟩
    obtain ⟨calls, db', row', hcalls, hinstant, hrow', hq⟩ := taken ⟨endings, course⟩
    exact ⟨calls, db', row', hcalls, fun c hc => (hinstant c hc).keepsDefinition, hrow', hq⟩

theorem courses_taken_retried :
    CanGo (fun c => c.Instant "first" 2000000)
      (Sample.after (Sample.begin (Sample.definition false 1))) (Sample.id 0)
      { status := .completed, stepName := "ship", attempt := 1, state := .object [],
        failureReason := none } := by
  have hreachable : ReachableFromEpoch Sample.store
      (Sample.after (Sample.begin (Sample.definition false 1))) := by
    refine ⟨_, calls_play (by decide +kernel), fun c hc n => ?_⟩
    rcases List.mem_pair.mp hc with rfl | rfl
    · exact (by decide : (0 : ℤ) ≤ 0)
    · exact (by decide : (0 : ℤ) ≤ 1000000)
  have hrow : (Sample.store.get (Sample.after (Sample.begin (Sample.definition false 1))) .executions
      (Sample.id 0)).map (fun row : WorkflowExecutionRow => (row.fromRow.versionKey,
        row.fromRow.currentKey, row.fromRow.status, row.fromRow.state, row.fromRow.failureReason)) =
      some (("order", 1), ⟨Sample.id 0, "ship", 0⟩, .running, .object [], none) := by decide +kernel
  have hregistered : Sample.store.get (Sample.after (Sample.begin (Sample.definition false 1)))
      .definitions (definitionKey "order" 1) = some (Sample.definition false 1).toRow := by
    decide +kernel
  have hnames : ∀ row ∈ Sample.store.rows (Sample.after (Sample.begin (Sample.definition false 1)))
      .steps, row.stepName = "ship" := by decide +kernel
  have hstep : (Sample.store.get (Sample.after (Sample.begin (Sample.definition false 1))) .steps
      (stepExecutionKey (Sample.id 0) "ship" 0)).map (fun row : WorkflowStepExecutionRow =>
        (row.fromRow.stepKey, isClaimable row.fromRow 2000000)) =
      some (⟨Sample.id 0, "ship", 0⟩, true) := by decide +kernel
  generalize Sample.after (Sample.begin (Sample.definition false 1)) = db at *
  obtain ⟨row, found, hfields⟩ := Option.map_eq_some_iff.mp hrow
  obtain ⟨step, hget, hclaim⟩ := Option.map_eq_some_iff.mp hstep
  simp only [Prod.mk.injEq] at hfields hclaim
  obtain ⟨hversion, hkey, hrunning, hstate, hreason⟩ := hfields
  obtain ⟨hstepKey, hclaimable⟩ := hclaim
  have hd : Sample.store.get db .definitions
      (definitionKey row.fromRow.workflowName row.fromRow.workflowVersion) =
        some (Sample.definition false 1).toRow := by
    obtain ⟨hname, hnumber⟩ := Prod.mk.inj hversion
    rw [hname, hnumber]
    exact hregistered
  have leases : Leases (Sample.definition false 1).toRow.fromRow 2000000 := by
    intro name hname
    rw [WorkflowDefinition.fromRow_toRow] at hname
    have hship : name = "ship" := by
      simpa [Sample.definition] using stepDefinitionExists_iff.mp hname
    exact hship ▸ ⟨by decide, 10, by decide, by decide⟩
  have charted : ∀ s, StoredStep db s → s.versionKey = row.fromRow.versionKey → s.status.Active →
      stepDefinitionExists (Sample.definition false 1).toRow.fromRow s.stepName = true := by
    intro s hs _ _
    obtain ⟨row, hrow, rfl⟩ := hs
    have hkey : schema.key .steps row = row.fromRow.stepKey.text :=
      Sample.store.key_of_get _ _ _ _ hrow
    rw [← hkey] at hrow
    have hname : row.fromRow.stepName = "ship" :=
      hnames row ((Sample.store.mem_rows db .steps row).mpr hrow)
    rw [hname]
    rfl
  have due : row.fromRow.status = .running →
      ∃ s, StoredStep db s ∧ s.stepKey = row.fromRow.currentKey ∧ s.Claimable 2000000 := fun _ =>
    ⟨step.fromRow, ⟨step, hstepKey.symm ▸ hget, rfl⟩, hstepKey.trans hkey.symm,
      isClaimable_iff.mp hclaimable⟩
  have hposition : row.fromRow.position =
      { status := .running, stepName := "ship", attempt := 0, state := .object [],
        failureReason := none } := by
    obtain ⟨-, hname, hattempt⟩ := StepKey.mk.inj hkey
    simp only [WorkflowExecution.position, hrunning, hstate, hreason, hname, hattempt]
  have hnow : Exact 2000000 := ⟨by decide, by decide, by decide⟩
  refine (courses_taken hreachable found hd leases charted due (by decide) hnow).2 ?_
  rw [hposition, WorkflowDefinition.fromRow_toRow]
  exact ⟨[.fails "carrier down", .completes { workflowComplete := true }],
    (Run.single ⟨rfl, rfl⟩).snoc ⟨rfl, rfl⟩⟩

end WorkflowEngine
