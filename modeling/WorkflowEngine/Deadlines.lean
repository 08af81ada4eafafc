import WorkflowEngine.Leases
import WorkflowEngine.Polling

/-!
# Deadlines in the store

A row holds its deadline as text. Up to the year 10000 the deadline is read as
it was set. Of a later year only four digits are read, and the step is free
before the time that was promised.
-/

namespace WorkflowEngine
open Txn Txn.Program Orchestrator
open Iso8601 (yearTenThousand stored le_stored_iff)

def leaseSeconds (d : Seconds) : Seconds := max 1 (d / 3)

theorem leaseSeconds_nonneg (d : Seconds) : 0 ≤ leaseSeconds d :=
  le_max_of_le_left (by decide : (0 : ℤ) ≤ 1)

namespace Duration

theorem parse_pos {text : String} {d : Seconds} (h : parseIso8601DurationToSeconds text = .ok d) :
    0 < d := by
  obtain ⟨p, -, rfl, hone, -⟩ := parseIso8601DurationToSeconds_eq_ok.mp h
  exact Int.natCast_pos.mpr hone

theorem calculateLeaseDuration_eq {text : String} {d : Seconds}
    (h : parseIso8601DurationToSeconds text = .ok d) :
    calculateLeaseDuration text = .ok (leaseSeconds d) := by
  have hthird : d.tdiv 3 = d / 3 := Int.tdiv_eq_ediv_of_nonneg (parse_pos h).le
  rw [calculateLeaseDuration, h, Cxx.ok_bind, hthird, leaseSeconds]
  dsimp only
  split_ifs with hshort
  · exact congrArg Except.ok (max_eq_left (Int.le_of_lt hshort)).symm
  · exact congrArg Except.ok (max_eq_right (not_lt.mp hshort)).symm

end Duration

variable {E : Engine schema} {db : E.Db}

/-- The step at the key waits or is held, and before the deadline no poll may claim it and no sweep
may fail it. -/
def Survives (db : E.Db) (k : StepKey) (deadline : TimePoint) : Prop :=
  ∃ s, StoredStep db s ∧ s.stepKey = k ∧ s.status.Active ∧
    ∀ t < deadline, isClaimable s t = false ∧ leaseExpired s t = false

/-- The definition that is registered for the step expects it to take this long. -/
def Timed (db : E.Db) (s : WorkflowStepExecution) (text : String) : Prop :=
  ∃ row step, E.get db .definitions (definitionKey s.workflowName s.workflowVersion) = some row ∧
    findStepDefinition row.fromRow s.stepName = .ok step ∧ step.expectedExecutionTime = some text

/-- The microsecond clock from the epoch on. -/
def Call.Ticking (c : Call) : Prop := ∀ n, 0 ≤ c.reading n ∧ 1000 ∣ c.reading n

theorem ticks_addSeconds {t : TimePoint} {d : Seconds} (h : 0 ≤ t ∧ 1000 ∣ t) (hd : 0 ≤ d) :
    0 ≤ t.addSeconds d ∧ 1000 ∣ t.addSeconds d := by
  refine ⟨TimePoint.addSeconds_nonneg h.1 hd, ?_⟩
  exact Int.dvd_add h.2 (Int.dvd_mul_of_dvd_right (by decide : (1000 : ℤ) ∣ 1000000000))

theorem forall_lt_iff_le {a b : ℤ} : (∀ t < b, ¬ a ≤ t) ↔ b ≤ a :=
  ⟨fun h => not_lt.mp fun hab => h a hab le_rfl,
    fun h _ ht hat => absurd (hat.trans_lt ht) (not_lt.mpr h)⟩

theorem get_putStep (db : E.Db) (s : WorkflowStepExecution) :
    E.get (E.put db .steps s.toRow) .steps s.stepKey.text = some s.toRow := by
  rw [← s.key_toRow_text]
  exact E.get_put_self db .steps s.toRow

theorem survives_iff {s : WorkflowStepExecution} {deadline : TimePoint}
    (hrow : E.get db .steps s.stepKey.text = some s.toRow) (hactive : s.status.Active)
    (hdeadline : 0 ≤ deadline ∧ 1000 ∣ deadline)
    (hfree : ∀ t, isClaimable s.stored t = false ∧ leaseExpired s.stored t = false ↔
      ¬ stored deadline ≤ t) :
    Survives db s.stepKey deadline ↔ deadline < yearTenThousand := by
  refine Iff.trans ?_ (le_stored_iff hdeadline.1 hdeadline.2)
  rw [← forall_lt_iff_le]
  constructor
  · intro h t ht
    obtain ⟨s', ⟨row, hget, hfrom⟩, hkey, -, hsafe⟩ := h
    rw [hkey, hrow] at hget
    obtain rfl := Option.some_inj.mp hget
    rw [s.fromRow_toRow] at hfrom
    exact (hfree t).mp (hfrom ▸ hsafe t ht)
  · intro h
    exact ⟨s.stored, ⟨s.toRow, hrow, s.fromRow_toRow⟩, s.stored_stepKey, hactive,
      fun t ht => (hfree t).mpr (h t ht)⟩

theorem free_pending {s : WorkflowStepExecution} {scheduledAt : TimePoint} (hp : s.status = .pending)
    (hlease : s.leaseExpiresAt = none) (hscheduled : s.scheduledAt = some scheduledAt) (t : TimePoint) :
    isClaimable s.stored t = false ∧ leaseExpired s.stored t = false ↔ ¬ stored scheduledAt ≤ t := by
  simp [isClaimable, leaseExpired, WorkflowStepExecution.stored, storedTime, hp, hlease, hscheduled]

theorem free_leased {s : WorkflowStepExecution} {deadline : TimePoint} (hr : s.status = .running)
    (hlease : s.leaseExpiresAt = some deadline) (t : TimePoint) :
    isClaimable s.stored t = false ∧ leaseExpired s.stored t = false ↔ ¬ stored deadline ≤ t := by
  simp [isClaimable, leaseExpired, WorkflowStepExecution.stored, storedTime, hr, hlease]

variable {env : Environment}

theorem completeStep_survives_iff {tx' : Tx E} {id name workerId : String} {output : Json}
    {d : Seconds} {e : WorkflowExecution}
    (clock : ∀ n, 0 ≤ env.answer n .clock ∧ 1000 ∣ env.answer n .clock)
    (hr : Returns env (completeStep id name workerId output (some d)) (Tx.begin db) e tx')
    (hrunning : e.status = .running) :
    Survives tx'.view e.currentKey ((env.answer 3 .clock).addSeconds d) ↔
      (env.answer 3 .clock).addSeconds d < yearTenThousand := by
  obtain ⟨hpositive, e₀, tx₁, s, tx₂, w, tx₃, decision, tx₄, he, hs, hw, -, -, hticks, hnext⟩ :=
    completeStep_cases hr
  obtain ⟨-, -, -, rfl⟩ := returns_getCurrentExecution.mp he
  obtain ⟨-, -, rfl⟩ := returns_getClaimedStep.mp hs
  obtain ⟨-, rfl⟩ := returns_getDefinitionOf.mp hw
  simp only [Tx.noteKey_ticks, Tx.tick_ticks] at hticks
  have hthree : tx₄.ticks = 3 := hticks
  rcases hnext with ⟨n, rfl, -⟩ | hadvance
  · cases hrunning
  · obtain ⟨next, n, -, -, rfl, hview⟩ := advance_cases hadvance
    rw [hthree] at hview
    set e' := WorkflowExecution.movedTo _ _ next
    set s' := e'.pendingStep decision.nextStepInput (env.answer n .clock)
      ((some d).map (TimePoint.addSeconds (env.answer 3 .clock)))
    have hrow : E.get tx'.view .steps s'.stepKey.text = some s'.toRow := hview ▸ get_putStep _ s'
    exact survives_iff (s := s') hrow (.inl rfl) (ticks_addSeconds (clock 3) (hpositive d rfl).le)
      (free_pending rfl rfl rfl)

theorem Timed.lease_eq {s : WorkflowStepExecution} {text : String} {d lease : Seconds}
    {w : WorkflowDefinition} (timed : Timed db s text)
    (parsed : Duration.parseIso8601DurationToSeconds text = .ok d)
    (hw : ∃ row, E.get db .definitions (definitionKey s.workflowName s.workflowVersion) = some row ∧
      row.fromRow = w) (hlease : w.lease s.stepName = .ok lease) : lease = leaseSeconds d := by
  obtain ⟨row, step, hrow, hstep, htext⟩ := timed
  obtain ⟨row', hrow', rfl⟩ := hw
  obtain rfl := Option.some_inj.mp (hrow.symm.trans hrow')
  rw [WorkflowDefinition.lease, hstep, Cxx.ok_bind, leaseDurationForStep, htext] at hlease
  dsimp only at hlease
  rw [Duration.calculateLeaseDuration_eq parsed] at hlease
  exact (Except.ok.inj hlease).symm

theorem keepAliveStep_survives_iff {tx' : Tx E} (sound : Sound db) {id name workerId text : String}
    {d : Seconds} {s : WorkflowStepExecution}
    (clock : ∀ n, 0 ≤ env.answer n .clock ∧ 1000 ∣ env.answer n .clock)
    (parsed : Duration.parseIso8601DurationToSeconds text = .ok d)
    (hr : Returns env (keepAliveStep id name workerId) (Tx.begin db) s tx') (timed : Timed db s text) :
    Survives tx'.view s.stepKey ((env.answer 1 .clock).addSeconds (leaseSeconds d)) ↔
      (env.answer 1 .clock).addSeconds (leaseSeconds d) < yearTenThousand := by
  obtain ⟨e, tx₁, w, tx₂, s₀, tx₃, step, lease, he, hw, hs, hstep, hlease, rfl, hview⟩ :=
    keepAliveStep_cases hr
  obtain ⟨-, hv₂, ht₂⟩ := getDefinitionOf_spec hw
  obtain ⟨-, hname, -, -, held, -⟩ := held_of_request sound.holds he hv₂ ht₂ hs
  obtain ⟨-, -, -, htx₁⟩ := returns_getCurrentExecution.mp he
  obtain ⟨⟨row, hrow, hfrom⟩, htx₂⟩ := returns_getDefinitionOf.mp hw
  obtain ⟨-, -, htx₃⟩ := returns_getClaimedStep.mp hs
  have hthree : tx₃.ticks = 1 := by
    rw [htx₃, htx₂, htx₁]
    simp only [Tx.noteKey_ticks, Tx.tick_ticks]
    rfl
  rw [hthree] at timed hview ⊢
  have hversion : s₀.versionKey = e.versionKey := held.toCurrent.version sound.lifecycle
  have hstepName : s₀.stepName = name :=
    (congrArg StepKey.stepName (held.toCurrent.step_key sound.lifecycle)).trans hname
  obtain rfl : lease = leaseSeconds d := by
    refine timed.lease_eq (w := w) parsed ⟨row, ?_, hfrom⟩ ?_
    · obtain ⟨hn, hv⟩ := Prod.mk.inj hversion
      change E.get db .definitions (definitionKey s₀.workflowName s₀.workflowVersion) = some row
      rw [hn, hv, ← hrow, htx₁, Tx.noteKey_view]
      rfl
    · change w.lease s₀.stepName = .ok lease
      rw [hstepName]
      exact WorkflowDefinition.lease_eq hstep hlease
  have hrow' := hview ▸ get_putStep tx₃.view (s₀.renewedUntil _)
  exact survives_iff hrow' (.inr held.claimed) (ticks_addSeconds (clock 1) (leaseSeconds_nonneg d))
    (free_leased held.claimed rfl)

theorem poll_stores (keyed : Keyed db) {tx' : Tx E} {name : String} {version : Int32}
    {workerId : String} {maxResults : ℕ} {claimed : List WorkflowStepExecution}
    (hr : Returns env (pollAndClaimWorkflowSteps name version workerId maxResults) (Tx.begin db)
      claimed tx') :
    ∃ row, E.get db .definitions (definitionKey name version) = some row ∧ ∀ s ∈ claimed,
      E.get tx'.view .steps s.stepKey.text = some s.toRow ∧
      ∃ c ∈ candidatesIn env db name version,
        Leasing row.fromRow workerId (env.answer 0 .clock) c s := by
  obtain ⟨d, ⟨-, ⟨row, hrow, rfl⟩, -⟩, hclaims, hview⟩ := poll_outcome keyed hr
  have hkeys := claims_nodup hclaims (claimable_nodup keyed env name version _ maxResults)
  refine ⟨row, hrow, fun s hs => ⟨?_, ?_⟩⟩
  · rw [hview, ← s.key_toRow_text]
    exact E.get_applyWrites_mem (claimWrites_nodup hkeys) (List.mem_map_of_mem hs)
  · obtain ⟨c, hc, hclaim⟩ := claim_of_mem hclaims s hs
    exact ⟨c, List.mem_of_mem_filter (List.mem_of_mem_take hc), hclaim⟩

theorem poll_survives_iff {tx' : Tx E} (sound : Sound db) {name : String} {version : Int32}
    {workerId text : String} {maxResults : ℕ} {d : Seconds} {claimed : List WorkflowStepExecution}
    (clock : ∀ n, 0 ≤ env.answer n .clock ∧ 1000 ∣ env.answer n .clock)
    (parsed : Duration.parseIso8601DurationToSeconds text = .ok d)
    (hr : Returns env (pollAndClaimWorkflowSteps name version workerId maxResults) (Tx.begin db)
      claimed tx') {s : WorkflowStepExecution} (hs : s ∈ claimed) (timed : Timed db s text) :
    Survives tx'.view s.stepKey ((env.answer 0 .clock).addSeconds (leaseSeconds d)) ↔
      (env.answer 0 .clock).addSeconds (leaseSeconds d) < yearTenThousand := by
  obtain ⟨row, hrow, hstored⟩ := poll_stores sound.encoded.keyed hr
  obtain ⟨hget, c, hc, lease, hlease, rfl⟩ := hstored s hs
  have hversion : c.versionKey = (name, version) := by
    obtain ⟨row', rfl, hrow'⟩ := candidate_row sound.encoded.keyed hc
    exact candidate_version sound.encoded hc hrow'
  obtain rfl : lease = leaseSeconds d := by
    refine timed.lease_eq parsed ⟨row, ?_, rfl⟩ hlease
    obtain ⟨hn, hv⟩ := Prod.mk.inj hversion
    change E.get db .definitions (definitionKey c.workflowName c.workflowVersion) = some row
    rw [hn, hv, hrow]
  exact survives_iff hget (.inr rfl) (ticks_addSeconds (clock 0) (leaseSeconds_nonneg d))
    (free_leased rfl rfl)

/-- A poll or a sweep that reads an earlier time leaves the step as it is. -/
theorem Survives.kept {db' : E.Db} {k : StepKey} {deadline : TimePoint} {c : Call} (sound : Sound db)
    (h : Survives db k deadline) (step : Call.Step db c db') (hnow : c.now < deadline)
    (hop : c.operation = .sweepExpiredLeases ∨ ∃ name version workerId maxResults,
      c.operation = .pollAndClaimWorkflowSteps name version workerId maxResults) :
    Survives db' k deadline := by
  obtain ⟨s, ⟨row, hget, rfl⟩, rfl, hactive, hsafe⟩ := h
  have hrow : (view db).stepRow row.fromRow.stepKey = some row := view_stepRow.mpr ⟨hget, rfl⟩
  obtain ⟨hclaimable, hexpired⟩ := hsafe c.now hnow
  suffices hkept : (view db').stepRow row.fromRow.stepKey = some row from
    ⟨row.fromRow, ⟨row, (view_stepRow.mp hkept).1, rfl⟩, rfl, hactive, hsafe⟩
  rcases step.cases sound with ⟨r, evs, -, heff, -⟩ | ⟨-, rfl⟩
  · generalize c.operation = op at hop heff
    generalize view db' = L' at heff ⊢
    cases heff with
    | pollAndClaimWorkflowSteps claims complete => exact (claims.other hrow hclaimable).2
    | sweepExpiredLeases events run counted swept =>
      refine (run.always (I := fun L => Ledger.Lifecycle L ∧ L.stepRow row.fromRow.stepKey = some row)
        (P := fun ev => ∃ key, SweepEvent c.now key ev) (Q := fun _ => True) ?_ events
        ⟨sound.lifecycle, hrow⟩).1.2
      intro L ev L' hI hP ht
      obtain ⟨inv, hrow⟩ := hI
      obtain ⟨key, hev⟩ := hP
      have hid := ht.sweep_spares inv hev hrow hactive hexpired
      exact ⟨⟨ht.lifecycle inv, ((ht.frame inv hid).stepRow _ rfl).trans hrow⟩, trivial⟩
    | _ => simp at hop
  · exact hrow

/-- A deadline that a call sets by a duration of `d` seconds, with the step it is for. -/
inductive Call.Sets (c : Call) (db : E.Db) (text : String) (d : Seconds) : StepKey → TimePoint → Prop
  | delay {id name workerId : String} {output : Json} {e : WorkflowExecution}
      (operation : c.operation = .completeStep id name workerId output (some d))
      (result : c.result db = .ok (.execution e)) (running : e.status = .running) :
      c.Sets db text d e.currentKey ((c.reading 3).addSeconds d)
  | claim {name workerId : String} {version : Int32} {maxResults : ℕ}
      {steps : List WorkflowStepExecution} {s : WorkflowStepExecution}
      (operation : c.operation = .pollAndClaimWorkflowSteps name version workerId maxResults)
      (result : c.result db = .ok (.claimed steps)) (mem : s ∈ steps) (timed : Timed db s text) :
      c.Sets db text d s.stepKey (c.now.addSeconds (leaseSeconds d))
  | renewal {id name workerId : String} {s : WorkflowStepExecution}
      (operation : c.operation = .keepAliveStep id name workerId)
      (result : c.result db = .ok (.step s)) (timed : Timed db s text) :
      c.Sets db text d s.stepKey ((c.reading 1).addSeconds (leaseSeconds d))

theorem Call.Sets.survives_iff {c : Call} {text : String} {d : Seconds} {k : StepKey}
    {deadline : TimePoint} (set : c.Sets db text d k deadline) (sound : Sound db) (clock : c.Ticking)
    (parsed : Duration.parseIso8601DurationToSeconds text = .ok d) :
    Survives (c.after db) k deadline ↔ deadline < yearTenThousand := by
  cases set with
  | delay operation result running =>
    obtain ⟨tx, hreturns, hview⟩ := Call.result_ok result
    rw [operation] at hreturns
    simp only [Operation.program, returns_bind, returns_pure] at hreturns
    obtain ⟨e, _, hr, he, rfl⟩ := hreturns
    obtain rfl := Response.execution.inj he
    exact hview ▸ completeStep_survives_iff clock hr running
  | claim operation result mem timed =>
    obtain ⟨tx, hreturns, hview⟩ := Call.result_ok result
    rw [operation] at hreturns
    simp only [Operation.program, returns_bind, returns_pure] at hreturns
    obtain ⟨steps, _, hr, he, rfl⟩ := hreturns
    obtain rfl := Response.claimed.inj he
    exact hview ▸ poll_survives_iff sound clock parsed hr mem timed
  | renewal operation result timed =>
    obtain ⟨tx, hreturns, hview⟩ := Call.result_ok result
    rw [operation] at hreturns
    simp only [Operation.program, returns_bind, returns_pure] at hreturns
    obtain ⟨s, _, hr, he, rfl⟩ := hreturns
    obtain rfl := Response.step.inj he
    exact hview ▸ keepAliveStep_survives_iff sound clock parsed hr timed

theorem Call.Sets.ticks {c : Call} {text : String} {d : Seconds} {k : StepKey}
    {deadline : TimePoint} (set : c.Sets db text d k deadline) (clock : c.Ticking)
    (parsed : Duration.parseIso8601DurationToSeconds text = .ok d) :
    0 ≤ deadline ∧ 1000 ∣ deadline := by
  cases set with
  | delay => exact ticks_addSeconds (clock 3) (Duration.parse_pos parsed).le
  | claim => exact ticks_addSeconds (clock 0) (leaseSeconds_nonneg d)
  | renewal => exact ticks_addSeconds (clock 1) (leaseSeconds_nonneg d)

theorem deadline_survives_iff (h : Reachable E db) {c : Call} (clock : c.Ticking) {text : String}
    {d : Seconds} (parsed : Duration.parseIso8601DurationToSeconds text = .ok d) {k : StepKey}
    {deadline : TimePoint} (set : c.Sets db text d k deadline) :
    (Survives (c.after db) k deadline ↔ deadline < yearTenThousand) ∧
    (deadline ≤ stored deadline ↔ deadline < yearTenThousand) := by
  obtain ⟨hnonneg, hticks⟩ := set.ticks clock parsed
  exact ⟨set.survives_iff h.sound clock parsed, le_stored_iff hnonneg hticks⟩

theorem exists_only_claim {α : Type} {c : Call} {f : WorkflowStepExecution → α} {a : α}
    (h : (Entry.claimed ⟨c, c.result db⟩).map f = [a]) :
    ∃ s, c.result db = .ok (.claimed [s]) ∧ f s = a := by
  unfold Entry.claimed at h
  split at h
  · next steps hsteps =>
    obtain ⟨s, rfl, hs⟩ := List.map_eq_singleton_iff.mp h
    exact ⟨s, hsteps, hs⟩
  · cases h

theorem deadline_survives_iff_short :
    let calls := Sample.begin (Sample.definition false 0)
    let db := Sample.after calls
    let poll := Sample.poll 2000000 "first" (Sample.script 0 "ship" calls)
    Survives (poll.after db) ⟨Sample.id 0, "ship", 0⟩ 10002000000 := by
  intro calls db poll
  have hreachable : Reachable Sample.store db := reachable_play (by decide +kernel)
  have hclaimed : (Entry.claimed ⟨poll, poll.result db⟩).map (fun s => (s.stepKey, s.versionKey)) =
      [(⟨Sample.id 0, "ship", 0⟩, ("order", 1))] := by
    decide +kernel
  have hregistered : Sample.store.get db .definitions (definitionKey "order" 1) =
      some (Sample.definition false 0).toRow := by
    decide +kernel
  have hclock : poll.Ticking := fun _ => (by decide : (0 : ℤ) ≤ 2000000 ∧ (1000 : ℤ) ∣ 2000000)
  obtain ⟨s, hresult, hs⟩ := exists_only_claim hclaimed
  obtain ⟨hkey, hversion⟩ := Prod.mk.inj hs
  have htimed : Timed db s "PT30S" := by
    obtain ⟨hname, hnumber⟩ := Prod.mk.inj hversion
    have hstep : s.stepName = "ship" := congrArg StepKey.stepName hkey
    refine ⟨_, { name := "ship", expectedExecutionTime := some "PT30S", maxRetries := some 0 },
      hname ▸ hnumber ▸ hregistered, ?_, rfl⟩
    rw [WorkflowDefinition.fromRow_toRow, hstep]
    rfl
  have hset : poll.Sets db "PT30S" 30 s.stepKey 10002000000 :=
    .claim rfl hresult (List.mem_singleton_self s) htimed
  rw [← hkey]
  exact (deadline_survives_iff hreachable hclock (by decide) hset).1.mpr
    (by decide : (10002000000 : ℤ) < 253402300800000000000)

def Sample.patient : WorkflowDefinition :=
  { Sample.definition false 0 with
    steps := [{ name := "ship", expectedExecutionTime := some "P9000000D" }] }

/-- The step is free for the next worker at the very instant of the claim. -/
theorem deadline_lost :
    let calls := Sample.begin Sample.patient
    let db := Sample.after calls
    let poll := Sample.poll 2000000 "first" (Sample.script 0 "ship" calls)
    let deadline := poll.now.addSeconds (leaseSeconds 777600000000)
    Reachable Sample.store db ∧ poll.Ticking ∧
    Duration.parseIso8601DurationToSeconds "P9000000D" = .ok 777600000000 ∧
    ∃ s, StoredStep (poll.after db) s ∧ poll.Sets db "P9000000D" 777600000000 s.stepKey deadline ∧
      poll.now < deadline ∧ isClaimable s poll.now = true ∧ leaseExpired s poll.now = true ∧
      ¬ Survives (poll.after db) s.stepKey deadline := by
  intro calls db poll deadline
  have hclaimed : (Entry.claimed ⟨poll, poll.result db⟩).map (fun s => (s.stepKey, s.versionKey)) =
      [(⟨Sample.id 0, "ship", 0⟩, ("order", 1))] := by
    decide +kernel
  have hregistered : Sample.store.get db .definitions (definitionKey "order" 1) =
      some Sample.patient.toRow := by
    decide +kernel
  have hfree : (Sample.store.get (poll.after db) .steps (stepExecutionKey (Sample.id 0) "ship" 0)).map
      (fun row => (row.fromRow.stepKey, isClaimable row.fromRow 2000000,
        leaseExpired row.fromRow 2000000)) = some (⟨Sample.id 0, "ship", 0⟩, true, true) := by
    decide +kernel
  obtain ⟨s, hresult, hs⟩ := exists_only_claim hclaimed
  obtain ⟨hkey, hversion⟩ := Prod.mk.inj hs
  have htimed : Timed db s "P9000000D" := by
    obtain ⟨hname, hnumber⟩ := Prod.mk.inj hversion
    have hstep : s.stepName = "ship" := congrArg StepKey.stepName hkey
    refine ⟨_, { name := "ship", expectedExecutionTime := some "P9000000D" },
      hname ▸ hnumber ▸ hregistered, ?_, rfl⟩
    rw [WorkflowDefinition.fromRow_toRow, hstep]
    rfl
  have hset : poll.Sets db "P9000000D" 777600000000 s.stepKey deadline :=
    .claim rfl hresult (List.mem_singleton_self s) htimed
  obtain ⟨row, hrow, hfacts⟩ := Option.map_eq_some_iff.mp hfree
  obtain ⟨hrowKey, hclaimable, hexpired⟩ := Prod.mk.inj hfacts |>.imp_right Prod.mk.inj
  have hlater : poll.now < deadline := (by decide : (2000000 : ℤ) < 2000000 + 259200000000 * 1000000000)
  have hstored : StoredStep (poll.after db) row.fromRow := ⟨row, hrowKey ▸ hrow, rfl⟩
  refine ⟨reachable_play (by decide +kernel),
    fun _ => (by decide : (0 : ℤ) ≤ 2000000 ∧ (1000 : ℤ) ∣ 2000000), by decide +kernel, row.fromRow,
    hstored,
    hrowKey ▸ hkey ▸ hset, hlater, hclaimable, hexpired, ?_⟩
  intro h
  obtain ⟨s', ⟨row', hrow', rfl⟩, hkey', -, hsafe⟩ := h
  rw [hkey', hrowKey] at hrow'
  obtain rfl := Option.some_inj.mp (hrow'.symm.trans hrow)
  have hclaimable' := (hsafe poll.now hlater).1
  exact Bool.false_ne_true (hclaimable'.symm.trans hclaimable)

end WorkflowEngine
