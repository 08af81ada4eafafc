import WorkflowEngine.DurationText
import WorkflowEngine.Simulation
import WorkflowEngine.Playback
import WorkflowEngine.TimeText

/-!
# The shape of a row

A step row has the optional fields that its status calls for, and its time
stamps are in order. Each way of writing a row is a lemma about the record it
makes; the operations then write such records only, one after the other.
-/

namespace WorkflowEngine
open Txn Txn.Program Orchestrator
open Iso8601 (Exact yearTenThousand)

namespace WorkflowStepExecution

/-- The fields that go with each status, and the order of the time stamps. -/
structure WellFormed (s : WorkflowStepExecution) : Prop where
  pending : s.status = .pending → s.workerId = none ∧ s.leaseExpiresAt = none ∧
    s.startedAt = none ∧ s.completedAt = none ∧ s.failureReason = none
  running : s.status = .running → (∃ workerId, s.workerId = some workerId ∧ workerId ≠ "") ∧
    (∃ startedAt leaseExpiresAt, s.startedAt = some startedAt ∧
      s.leaseExpiresAt = some leaseExpiresAt ∧ startedAt.addSeconds 1 ≤ leaseExpiresAt) ∧
    s.completedAt = none ∧ s.failureReason = none
  completed : s.status = .completed → s.workerId.isSome ∧ s.startedAt.isSome ∧
    s.completedAt.isSome ∧ s.leaseExpiresAt = none ∧ s.failureReason = none
  failed : s.status = .failed → s.workerId.isSome ∧ s.startedAt.isSome ∧ s.completedAt.isSome ∧
    s.failureReason.isSome ∧ s.leaseExpiresAt = none
  canceled : s.status = .canceled → s.completedAt.isSome ∧ s.workerId = none ∧
    s.leaseExpiresAt = none
  created_le_started : ∀ t ∈ s.createdAt, ∀ t' ∈ s.startedAt, t ≤ t'
  started_le_completed : ∀ t ∈ s.startedAt, ∀ t' ∈ s.completedAt, t ≤ t'
  created_le_completed : ∀ t ∈ s.createdAt, ∀ t' ∈ s.completedAt, t ≤ t'
  scheduled_le_started : ∀ t ∈ s.scheduledAt, ∀ t' ∈ s.startedAt, t ≤ t'

structure Kept (s : WorkflowStepExecution) : Prop where
  leaseExpiresAt : ∀ t ∈ s.leaseExpiresAt, Exact t
  createdAt : ∀ t ∈ s.createdAt, Exact t
  scheduledAt : ∀ t ∈ s.scheduledAt, Exact t
  startedAt : ∀ t ∈ s.startedAt, Exact t
  completedAt : ∀ t ∈ s.completedAt, Exact t

structure Shaped (b : TimePoint) (s : WorkflowStepExecution) : Prop
    extends s.WellFormed, s.Kept where
  created_le : ∀ t ∈ s.createdAt, t ≤ b
  started_le : ∀ t ∈ s.startedAt, t ≤ b

theorem storedTime_exact {value : Option TimePoint} (h : ∀ t ∈ value, Exact t) :
    storedTime value = value := by
  cases value with
  | none => rfl
  | some t => exact congrArg some (Iso8601.stored_exact (h t rfl))

variable {s : WorkflowStepExecution} {b b' now at_ deadline : TimePoint} {workerId reason : String}
  {output input : Json} {e : WorkflowExecution}

theorem Kept.stored (h : s.Kept) : s.stored = s := by
  rw [WorkflowStepExecution.stored, storedTime_exact h.leaseExpiresAt, storedTime_exact h.createdAt,
    storedTime_exact h.scheduledAt, storedTime_exact h.startedAt, storedTime_exact h.completedAt]

theorem Shaped.mono (h : s.Shaped b) (hb : b ≤ b') : s.Shaped b' :=
  ⟨h.toWellFormed, h.toKept, fun t ht => (h.created_le t ht).trans hb,
    fun t ht => (h.started_le t ht).trans hb⟩

theorem shaped_pendingStep {scheduledAt : Option TimePoint} (hnow : Exact now)
    (hscheduled : ∀ t ∈ scheduledAt, Exact t) : (e.pendingStep input now scheduledAt).Shaped now := by
  refine ⟨⟨?_, nofun, nofun, nofun, nofun, nofun, nofun, nofun, nofun⟩,
    ⟨nofun, ?_, hscheduled, nofun, nofun⟩, ?_, nofun⟩
  · intro _
    exact ⟨rfl, rfl, rfl, rfl, rfl⟩
  · intro t ht
    rw [← Option.some_inj.mp ht]
    exact hnow
  · intro t ht
    rw [← Option.some_inj.mp ht]

theorem Shaped.claimedBy {lease : Seconds} (h : s.Shaped now)
    (hclaimable : isClaimable s now = true) (hworker : workerId ≠ "") (hnow : Exact now)
    (hlease : 1 ≤ lease) (hdeadline : Exact (now.addSeconds lease)) :
    (s.claimedBy workerId now (now.addSeconds lease)).Shaped now := by
  have hopen : s.completedAt = none := by
    rcases Ledger.active_of_isClaimable hclaimable with hpending | hrunning
    · exact (h.pending hpending).2.2.2.1
    · exact (h.running hrunning).2.2.1
  have hscheduled : ∀ t ∈ s.scheduledAt, t ≤ now := by
    intro t ht
    rcases Ledger.active_of_isClaimable hclaimable with hpending | hrunning
    · rw [isClaimable, if_pos hpending, Option.mem_def.mp ht] at hclaimable
      exact of_decide_eq_true hclaimable
    · obtain ⟨-, ⟨startedAt, -, hstarted, -⟩, -⟩ := h.running hrunning
      exact (h.scheduled_le_started t ht _ hstarted).trans (h.started_le _ hstarted)
  have hstarts : ∀ t ∈ (s.claimedBy workerId now (now.addSeconds lease)).startedAt, t = now :=
    fun t ht => (Option.some_inj.mp ht).symm
  have hcompletes : ∀ t, t ∉ (s.claimedBy workerId now (now.addSeconds lease)).completedAt := by
    intro t ht
    rw [WorkflowStepExecution.claimedBy, hopen] at ht
    cases ht
  refine ⟨⟨nofun, ?_, nofun, nofun, nofun, ?_, ?_, ?_, ?_⟩, ⟨?_, h.toKept.createdAt,
    h.toKept.scheduledAt, ?_, ?_⟩, h.created_le, ?_⟩
  · intro _
    exact ⟨⟨workerId, rfl, hworker⟩,
      ⟨now, _, rfl, rfl, TimePoint.addSeconds_le (le_refl now) hlease⟩, hopen, rfl⟩
  · intro t ht t' ht'
    rw [hstarts t' ht']
    exact h.created_le t ht
  · intro t _ t' ht'
    exact absurd ht' (hcompletes t')
  · intro t _ t' ht'
    exact absurd ht' (hcompletes t')
  · intro t ht t' ht'
    rw [hstarts t' ht']
    exact hscheduled t ht
  · intro t ht
    rw [← Option.some_inj.mp ht]
    exact hdeadline
  · intro t ht
    rw [hstarts t ht]
    exact hnow
  · intro t ht
    exact absurd ht (hcompletes t)
  · intro t ht
    rw [hstarts t ht]

theorem Shaped.renewedUntil (h : s.Shaped b) (hrunning : s.status = .running)
    (hdeadline : Exact deadline) (hlater : b.addSeconds 1 ≤ deadline) :
    (s.renewedUntil deadline).Shaped b := by
  obtain ⟨hworker, ⟨startedAt, -, hstarted, -⟩, hcompleted, hreason⟩ := h.running hrunning
  have hother : ∀ status, status ≠ .running → (s.renewedUntil deadline).status ≠ status := by
    intro status hne heq
    exact hne (heq.symm.trans hrunning)
  refine ⟨⟨?_, ?_, ?_, ?_, ?_, h.created_le_started, h.started_le_completed, h.created_le_completed,
    h.scheduled_le_started⟩, ⟨?_, h.toKept.createdAt, h.toKept.scheduledAt, h.toKept.startedAt,
    h.toKept.completedAt⟩, h.created_le, h.started_le⟩
  · intro heq
    exact absurd heq (hother _ nofun)
  · intro _
    have hle := TimePoint.addSeconds_le (h.started_le startedAt hstarted) (le_refl 1)
    exact ⟨hworker, ⟨startedAt, deadline, hstarted, rfl, hle.trans hlater⟩, hcompleted, hreason⟩
  · intro heq
    exact absurd heq (hother _ nofun)
  · intro heq
    exact absurd heq (hother _ nofun)
  · intro heq
    exact absurd heq (hother _ nofun)
  · intro t ht
    rw [← Option.some_inj.mp ht]
    exact hdeadline

structure Ends (s s' : WorkflowStepExecution) (at_ : TimePoint) : Prop where
  createdAt : s'.createdAt = s.createdAt
  scheduledAt : s'.scheduledAt = s.scheduledAt
  startedAt : s'.startedAt = s.startedAt
  completedAt : s'.completedAt = some at_
  leaseExpiresAt : s'.leaseExpiresAt = none

theorem Shaped.ends {s' : WorkflowStepExecution} (h : s.Shaped b) (hend : Ends s s' at_)
    (hat : Exact at_) (hb : b ≤ at_) (hpending : s'.status ≠ .pending)
    (hrunning : s'.status ≠ .running)
    (hcompleted : s'.status = .completed → s'.workerId.isSome ∧ s'.startedAt.isSome ∧
      s'.failureReason = none)
    (hfailed : s'.status = .failed → s'.workerId.isSome ∧ s'.startedAt.isSome ∧
      s'.failureReason.isSome)
    (hcanceled : s'.status = .canceled → s'.workerId = none) : s'.Shaped b := by
  obtain ⟨hcreated, hscheduled, hstarted, hcompletes, hlease⟩ := hend
  have hsome : s'.completedAt.isSome := by rw [hcompletes]; rfl
  have hwhen : ∀ t ∈ s'.completedAt, t = at_ := by
    intro t ht
    rw [hcompletes] at ht
    exact (Option.some_inj.mp ht).symm
  refine ⟨⟨fun heq => absurd heq hpending, fun heq => absurd heq hrunning, ?_, ?_, ?_, ?_, ?_, ?_, ?_⟩,
    ⟨?_, ?_, ?_, ?_, ?_⟩, ?_, ?_⟩
  · intro heq
    obtain ⟨hworker, hstart, hreason⟩ := hcompleted heq
    exact ⟨hworker, hstart, hsome, hlease, hreason⟩
  · intro heq
    obtain ⟨hworker, hstart, hreason⟩ := hfailed heq
    exact ⟨hworker, hstart, hsome, hreason, hlease⟩
  · intro heq
    exact ⟨hsome, hcanceled heq, hlease⟩
  · rw [hcreated, hstarted]
    exact h.created_le_started
  · intro t ht t' ht'
    rw [hwhen t' ht']
    rw [hstarted] at ht
    exact (h.started_le t ht).trans hb
  · intro t ht t' ht'
    rw [hwhen t' ht']
    rw [hcreated] at ht
    exact (h.created_le t ht).trans hb
  · rw [hscheduled, hstarted]
    exact h.scheduled_le_started
  · rw [hlease]
    nofun
  · rw [hcreated]
    exact h.toKept.createdAt
  · rw [hscheduled]
    exact h.toKept.scheduledAt
  · rw [hstarted]
    exact h.toKept.startedAt
  · intro t ht
    rw [hwhen t ht]
    exact hat
  · rw [hcreated]
    exact h.created_le
  · rw [hstarted]
    exact h.started_le

theorem Shaped.completedWith (h : s.Shaped b) (hrunning : s.status = .running) (hat : Exact at_)
    (hb : b ≤ at_) : (s.completedWith output at_).Shaped b := by
  obtain ⟨⟨workerId, hworker, -⟩, ⟨startedAt, -, hstarted, -⟩, -, hreason⟩ := h.running hrunning
  refine h.ends ⟨rfl, rfl, rfl, rfl, rfl⟩ hat hb nofun nofun ?_ nofun nofun
  intro _
  exact ⟨Option.isSome_of_eq_some hworker, Option.isSome_of_eq_some hstarted, hreason⟩

theorem Shaped.failedFor (h : s.Shaped b) (hrunning : s.status = .running) (hat : Exact at_)
    (hb : b ≤ at_) : (s.failedFor reason at_).Shaped b := by
  obtain ⟨⟨workerId, hworker, -⟩, ⟨startedAt, -, hstarted, -⟩, -, -⟩ := h.running hrunning
  refine h.ends ⟨rfl, rfl, rfl, rfl, rfl⟩ hat hb nofun nofun nofun ?_ nofun
  intro _
  exact ⟨Option.isSome_of_eq_some hworker, Option.isSome_of_eq_some hstarted, rfl⟩

theorem Shaped.canceledAt (h : s.Shaped b) (hat : Exact at_) (hb : b ≤ at_) :
    (s.canceledAt at_).Shaped b := by
  refine h.ends ⟨rfl, rfl, rfl, rfl, rfl⟩ hat hb nofun nofun nofun nofun ?_
  intro _
  rfl

end WorkflowStepExecution

namespace WorkflowExecution

/-- The fields that go with each status. -/
structure WellFormed (e : WorkflowExecution) : Prop where
  completedAt : e.completedAt.isSome ↔ e.status ≠ .running
  failureReason : e.failureReason.isSome ↔ e.status = .failed

variable {e : WorkflowExecution}

theorem WellFormed.stored (h : e.WellFormed) : e.stored.WellFormed := by
  refine ⟨?_, h.failureReason⟩
  change (storedTime e.completedAt).isSome ↔ _
  rw [storedTime, Option.isSome_map]
  exact h.completedAt

end WorkflowExecution

variable {E : Engine schema} {env : Environment} {tx tx' : Tx E} {db db' : E.Db}
  {t t' : TimePoint}

structure ShapedRows (b : TimePoint) (db : E.Db) : Prop where
  steps : ∀ k (row : WorkflowStepExecutionRow), E.get db .steps k = some row →
    row.fromRow.Shaped b
  executions : ∀ k (row : WorkflowExecutionRow), E.get db .executions k = some row →
    row.fromRow.WellFormed

namespace ShapedRows
variable {b b' : TimePoint}

theorem empty : ShapedRows (E := E) b E.empty := by
  constructor
  · intro k row hrow
    rw [E.get_empty] at hrow
    cases hrow
  · intro k row hrow
    rw [E.get_empty] at hrow
    cases hrow

theorem mono (h : ShapedRows b db) (hb : b ≤ b') : ShapedRows b' db :=
  ⟨fun k row hrow => (h.steps k row hrow).mono hb, h.executions⟩

theorem putStep (h : ShapedRows b db) {s : WorkflowStepExecution} (hs : s.Shaped b) :
    ShapedRows b (E.put db .steps s.toRow) := by
  constructor
  · intro k row hrow
    rw [E.get_put] at hrow
    split_ifs at hrow with hk
    · rw [← Option.some_inj.mp hrow, WorkflowStepExecution.fromRow_toRow, hs.toKept.stored]
      exact hs
    · exact h.steps k row hrow
  · intro k row hrow
    rw [E.get_put_table _ _ (by decide)] at hrow
    exact h.executions k row hrow

theorem putExecution (h : ShapedRows b db) {e : WorkflowExecution} (he : e.WellFormed) :
    ShapedRows b (E.put db .executions e.toRow) := by
  constructor
  · intro k row hrow
    rw [E.get_put_table _ _ (by decide)] at hrow
    exact h.steps k row hrow
  · intro k row hrow
    rw [E.get_put] at hrow
    split_ifs at hrow with hk
    · rw [← Option.some_inj.mp hrow, WorkflowExecution.fromRow_toRow]
      exact he.stored
    · exact h.executions k row hrow

theorem putOther (h : ShapedRows b db) (table : TableName) (hsteps : TableName.steps ≠ table)
    (hexecutions : TableName.executions ≠ table) (row : schema.Row table) :
    ShapedRows b (E.put db table row) := by
  constructor
  · intro k row hrow
    rw [E.get_put_table _ _ hsteps] at hrow
    exact h.steps k row hrow
  · intro k row hrow
    rw [E.get_put_table _ _ hexecutions] at hrow
    exact h.executions k row hrow

theorem of_view (h : ShapedRows b db) (hview : db' = db) : ShapedRows b db' := hview ▸ h

end ShapedRows

structure ReadsWithin (env : Environment) (t t' : TimePoint) : Prop where
  lower : ∀ n, t ≤ env.answer n .clock
  upper : ∀ n, env.answer n .clock ≤ t'
  exact : ∀ n, Exact (env.answer n .clock)

theorem ReadsWithin.le (clock : ReadsWithin env t t') : t ≤ t' := (clock.lower 0).trans (clock.upper 0)

theorem ReadsWithin.pendingStep (clock : ReadsWithin env t t') (n : ℕ) {e : WorkflowExecution}
    {input : Json} {scheduledAt : Option TimePoint} (hscheduled : ∀ u ∈ scheduledAt, Exact u) :
    (e.pendingStep input (env.answer n .clock) scheduledAt).Shaped t' :=
  (WorkflowStepExecution.shaped_pendingStep (clock.exact n) hscheduled).mono (clock.upper n)

theorem registerWorkflowDefinition_shaped {d r : WorkflowDefinition} (h : ShapedRows t tx.view)
    (hr : Returns env (registerWorkflowDefinition d) tx r tx') : ShapedRows t tx'.view := by
  obtain ⟨rfl, hview⟩ := registerWorkflowDefinition_cases hr
  exact (h.putOther .definitions (by decide) (by decide) _).of_view hview

theorem takeSingletonLock_shaped {b : Bool} {e : WorkflowExecution} {u : Unit}
    (h : ShapedRows t tx.view) (hr : Returns env (takeSingletonLock b e) tx u tx') :
    ShapedRows t tx'.view := by
  rcases takeSingletonLock_cases hr with ⟨-, hview⟩ | ⟨-, hview, -⟩
  · exact h.of_view hview
  · exact (h.putOther .singletonLocks (by decide) (by decide) _).of_view hview

theorem startWorkflow_shaped {name : String} {version : Int32} {input : Json}
    {e : WorkflowExecution} (clock : ReadsWithin env t t') (h : ShapedRows t tx.view)
    (hr : Returns env (startWorkflow name version input) tx e tx') : ShapedRows t' tx'.view := by
  obtain ⟨row, id, tx₀, tx₁, hrow, hid, rfl, hlock, rfl⟩ := startWorkflow_cases hr
  have hview := (generateExecutionId_spec hid).2
  rw [Tx.noteKey_view] at hview
  have h₀ : ShapedRows t tx₀.tick.view := h.of_view hview
  have h₁ := takeSingletonLock_shaped h₀ hlock
  refine ShapedRows.putStep (ShapedRows.putExecution (h₁.mono clock.le) ?_) (clock.pendingStep _ nofun)
  constructor
  · exact iff_of_false nofun (fun hne => hne rfl)
  · exact iff_of_false nofun nofun

theorem getCurrentExecution_shaped {id name : String} {e : WorkflowExecution}
    (h : ShapedRows t tx.view) (hr : Returns env (getCurrentExecution id name) tx e tx') :
    e.WellFormed ∧ e.status = .running ∧ e.currentStepName = name ∧ tx'.view = tx.view := by
  obtain ⟨⟨row, hrow, rfl⟩, hrunning, hname, rfl⟩ := returns_getCurrentExecution.mp hr
  exact ⟨h.executions _ row hrow, hrunning, hname, Tx.noteKey_view ..⟩

theorem getClaimedStep_shaped {e : WorkflowExecution} {id name workerId : String}
    {s : WorkflowStepExecution} (h : ShapedRows t tx.view)
    (hr : Returns env (getClaimedStep e id name workerId) tx s tx') :
    s.Shaped t ∧ s.status = .running ∧ tx'.view = tx.view := by
  obtain ⟨⟨row, hrow, rfl⟩, hown, rfl⟩ := returns_getClaimedStep.mp hr
  exact ⟨h.steps _ row hrow, hown.claimed, Tx.noteKey_view ..⟩

theorem one_le_lease {step : WorkflowStep} {lease : Seconds}
    (h : leaseDurationForStep step = .ok lease) : 1 ≤ lease := by
  unfold leaseDurationForStep at h
  split at h
  · cases h
  · exact Duration.one_le_calculateLeaseDuration h

theorem keepAliveStep_shaped {id name workerId : String} {s : WorkflowStepExecution}
    (clock : ReadsWithin env t t') (h : ShapedRows t tx.view)
    (hr : Returns env (keepAliveStep id name workerId) tx s tx')
    (hdeadline : ∀ u ∈ s.leaseExpiresAt, u < yearTenThousand) : ShapedRows t' tx'.view := by
  obtain ⟨e, tx₁, d, tx₂, s₀, tx₃, step, lease, he, hd, hs, -, hl, rfl, hview⟩ :=
    keepAliveStep_cases hr
  obtain ⟨-, -, -, hv₁⟩ := getCurrentExecution_shaped h he
  have hv₂ := (getDefinitionOf_spec hd).2.1
  have h₂ := h.of_view (hv₂.trans hv₁)
  obtain ⟨hshaped, hrunning, hv₃⟩ := getClaimedStep_shaped h₂ hs
  have hlease := one_le_lease hl
  have hexact := (clock.exact tx₃.ticks).addSeconds (Int.le_of_lt hlease) (hdeadline _ rfl)
  have hlater := TimePoint.addSeconds_le (clock.lower tx₃.ticks) hlease
  have hrenewed := hshaped.renewedUntil hrunning hexact hlater
  exact (((h₂.of_view hv₃).putStep hrenewed).mono clock.le).of_view hview

theorem advance_shaped {d : WorkflowDefinition} {e r : WorkflowExecution}
    {decision : NextStepDecision} {delay : Option Seconds} (clock : ReadsWithin env t t')
    (h : ShapedRows t tx.view) (he : e.WellFormed)
    (hscheduled : ∀ n, ∀ u ∈ delay.map (TimePoint.addSeconds (env.answer n .clock)), Exact u)
    (hr : Returns env (advance d e decision delay) tx r tx') : ShapedRows t' tx'.view := by
  obtain ⟨next, n, -, -, rfl, hview⟩ := advance_cases hr
  have h₁ := (h.mono clock.le).putExecution (e := e.movedTo e.state next)
    ⟨he.completedAt, he.failureReason⟩
  exact (h₁.putStep (clock.pendingStep n (hscheduled tx.ticks))).of_view hview

theorem wellFormed_ended {e : WorkflowExecution} (hrunning : e.status ≠ .running)
    (hcompleted : e.completedAt.isSome)
    (hreason : e.failureReason.isSome ↔ e.status = .failed) : e.WellFormed :=
  ⟨iff_of_true hcompleted hrunning, hreason⟩

theorem WorkflowExecution.WellFormed.no_reason {e : WorkflowExecution} (h : e.WellFormed)
    (hrunning : e.status = .running) : ¬ e.failureReason.isSome := by
  rw [h.failureReason, hrunning]
  nofun

theorem completeStep_shaped {id name workerId : String} {output : Json} {delay : Option Seconds}
    {r : WorkflowExecution} (clock : ReadsWithin env t t') (h : ShapedRows t tx.view)
    (hdeadline : ∀ n, ∀ d ∈ delay, (env.answer n .clock).addSeconds d < yearTenThousand)
    (hr : Returns env (completeStep id name workerId output delay) tx r tx') :
    ShapedRows t' tx'.view := by
  obtain ⟨hdelay, e, tx₁, s, tx₂, d, tx₃, decision, tx₄, he, hs, hd, -, hv₄, -, houtcome⟩ :=
    completeStep_cases hr
  obtain ⟨hexecution, hrunning, -, hv₁⟩ := getCurrentExecution_shaped h he
  obtain ⟨hshaped, hclaimed, hv₂⟩ := getClaimedStep_shaped (h.of_view hv₁) hs
  have hv₃ := (getDefinitionOf_spec hd).2.1
  have h₃ := h.of_view (hv₃.trans (hv₂.trans hv₁))
  have hcompleted : (s.completedWith output (env.answer tx₃.tick.ticks .clock)).Shaped t :=
    hshaped.completedWith hclaimed (clock.exact _) (clock.lower _)
  have h₄ := (h₃.putStep hcompleted).of_view hv₄
  rcases houtcome with ⟨n, rfl, hview⟩ | hadvance
  · have hended : (e.completedAtState decision.updatedState (env.answer n .clock)).WellFormed :=
      wellFormed_ended nofun rfl (iff_of_false (hexecution.no_reason hrunning) nofun)
    exact ((h₄.putExecution hended).mono clock.le).of_view hview
  · refine advance_shaped (e := { e with state := decision.updatedState }) clock h₄
      ⟨hexecution.completedAt, hexecution.failureReason⟩ ?_ hadvance
    intro n u hu
    obtain ⟨seconds, hseconds, rfl⟩ := Option.map_eq_some_iff.mp hu
    exact (clock.exact n).addSeconds (hdelay seconds hseconds).le (hdeadline n seconds hseconds)

theorem failStep_shaped {id name workerId reason : String} {r : WorkflowExecution}
    (clock : ReadsWithin env t t') (h : ShapedRows t tx.view)
    (hr : Returns env (failStep id name workerId reason) tx r tx') : ShapedRows t' tx'.view := by
  obtain ⟨e, tx₁, s, tx₂, d, tx₃, step, db, he, hs, hd, -, hdb, houtcome⟩ := failStep_cases hr
  obtain ⟨hexecution, -, -, hv₁⟩ := getCurrentExecution_shaped h he
  obtain ⟨hshaped, hclaimed, hv₂⟩ := getClaimedStep_shaped (h.of_view hv₁) hs
  have hv₃ := (getDefinitionOf_spec hd).2.1
  have h₃ := h.of_view (hv₃.trans (hv₂.trans hv₁))
  have hfailed : (s.failedFor reason (env.answer tx₃.ticks .clock)).Shaped t :=
    hshaped.failedFor hclaimed (clock.exact _) (clock.lower _)
  have h₄ := (h₃.putStep hfailed).of_view hdb
  rcases houtcome with ⟨-, rfl, n, hview⟩ | ⟨-, n, rfl, hview⟩
  · have h₅ := (h₄.mono clock.le).putExecution (e := e.retried)
      ⟨hexecution.completedAt, hexecution.failureReason⟩
    have hpending : (e.retried.pendingStep s.input (env.answer n .clock) none).Shaped t' :=
      clock.pendingStep n nofun
    exact (h₅.putStep hpending).of_view hview
  · have hended : (e.failedFor reason (env.answer n .clock)).WellFormed :=
      wellFormed_ended nofun rfl (iff_of_true rfl rfl)
    exact ((h₄.putExecution hended).mono clock.le).of_view hview

theorem ShapedRows.arranged (h : ShapedRows t db) (env : Environment) (q : QuerySpec) :
    ∀ row ∈ env.arrange .steps q (E.select db .steps q), row.fromRow.Shaped t :=
  fun row hrow => h.steps _ row (mem_arrange.mp hrow).1

theorem cancelSteps_shaped {now : TimePoint} {rows : List WorkflowStepExecutionRow} {u : Unit}
    (hnow : Exact now) (hlower : t ≤ now) (hrows : ∀ row ∈ rows, row.fromRow.Shaped t)
    (h : ShapedRows t tx.view) (hr : Returns env (Orchestrator.cancelSteps now rows) tx u tx') :
    ShapedRows t tx'.view := by
  induction rows generalizing tx with
  | nil =>
    obtain ⟨-, rfl⟩ := returns_pure.mp hr
    exact h
  | cons row rows ih =>
    have hrest : ∀ row' ∈ rows, row'.fromRow.Shaped t :=
      fun row' hrow' => hrows row' (List.mem_cons_of_mem row hrow')
    simp only [Orchestrator.cancelSteps] at hr
    split_ifs at hr with ha
    · simp only [returns_bind, returns_putStep] at hr
      obtain ⟨-, _, rfl, hr⟩ := hr
      have hcanceled := (hrows row List.mem_cons_self).canceledAt hnow hlower
      exact ih hrest (h.putStep hcanceled) hr
    · exact ih hrest h hr

theorem cancelWorkflow_shaped {id : String} {r : WorkflowExecution}
    (clock : ReadsWithin env t t') (h : ShapedRows t tx.view)
    (hr : Returns env (cancelWorkflow id) tx r tx') : ShapedRows t' tx'.view := by
  obtain ⟨row, tx₁, tx₂, hrow, hrunning, hview, hcancel, rfl, hview'⟩ := cancelWorkflow_cases hr
  have hexecution := h.executions _ row hrow
  have h₂ := cancelSteps_shaped (clock.exact _) (clock.lower _) (h.arranged env _) (h.of_view hview)
    hcancel
  have hended : (row.fromRow.canceledAt (env.answer tx.ticks .clock)).WellFormed :=
    wellFormed_ended nofun rfl (iff_of_false (hexecution.no_reason hrunning) nofun)
  exact ((h₂.putExecution hended).mono clock.le).of_view hview'

theorem claimSteps_subset {d : WorkflowDefinition} {workerId : String} {now : TimePoint}
    {maxResults : ℕ} {candidates claimed claimed' : List WorkflowStepExecution}
    (hr : Returns env (claimSteps d workerId now maxResults claimed candidates) tx claimed' tx') :
    claimed ⊆ claimed' := by
  induction candidates generalizing tx claimed with
  | nil =>
    obtain ⟨rfl, -⟩ := returns_pure.mp hr
    exact List.Subset.refl _
  | cons c candidates ih =>
    simp only [claimSteps] at hr
    split_ifs at hr with hfull
    · obtain ⟨rfl, -⟩ := returns_pure.mp hr
      exact List.Subset.refl _
    · simp only [returns_bind, returns_getStep] at hr
      obtain ⟨_, _, ⟨rfl, rfl⟩, claimed₁, tx₁, hstep, hr⟩ := hr
      rcases claimStep_cases hstep with ⟨rfl, -⟩ | ⟨row, lease, -, -, -, rfl, -⟩
      · exact ih hr
      · exact fun s hs => ih hr (List.mem_append_left _ hs)

theorem claimSteps_shaped {d : WorkflowDefinition} {workerId : String} {now : TimePoint}
    {maxResults : ℕ} {candidates claimed claimed' : List WorkflowStepExecution}
    (hworker : workerId ≠ "") (hnow : Exact now)
    (hdeadline : ∀ s ∈ claimed', ∀ u ∈ s.leaseExpiresAt, u < yearTenThousand)
    (h : ShapedRows now tx.view)
    (hr : Returns env (claimSteps d workerId now maxResults claimed candidates) tx claimed' tx') :
    ShapedRows now tx'.view := by
  induction candidates generalizing tx claimed with
  | nil =>
    obtain ⟨-, rfl⟩ := returns_pure.mp hr
    exact h
  | cons c candidates ih =>
    simp only [claimSteps] at hr
    split_ifs at hr with hfull
    · obtain ⟨-, rfl⟩ := returns_pure.mp hr
      exact h
    · simp only [returns_bind, returns_getStep] at hr
      obtain ⟨_, _, ⟨rfl, rfl⟩, claimed₁, tx₁, hstep, hr⟩ := hr
      have h₀ := h.of_view (Tx.noteKey_view tx .steps c.stepKey.text)
      rcases claimStep_cases hstep with ⟨rfl, rfl, -⟩ | ⟨row, lease, hrow, hc, hlease, rfl, rfl⟩
      · exact ih h₀ hr
      · have hone : 1 ≤ lease := by
          obtain ⟨step, -, hstep⟩ := Cxx.bind_eq_ok.mp hlease
          exact one_le_lease hstep
        have hmem := claimSteps_subset hr (List.mem_append_right _ (List.mem_singleton_self _))
        have hclaimed := (h.steps _ row hrow).claimedBy hc hworker hnow hone
          (hnow.addSeconds (Int.le_of_lt hone) (hdeadline _ hmem _ rfl))
        exact ih (h₀.putStep hclaimed) hr

theorem pollAndClaimWorkflowSteps_shaped {name : String} {version : Int32} {workerId : String}
    {maxResults : ℕ} {claimed : List WorkflowStepExecution} (clock : ReadsWithin env t t')
    (h : ShapedRows t tx.view)
    (hdeadline : ∀ s ∈ claimed, ∀ u ∈ s.leaseExpiresAt, u < yearTenThousand)
    (hr : Returns env (pollAndClaimWorkflowSteps name version workerId maxResults) tx claimed tx') :
    ShapedRows t' tx'.view := by
  obtain ⟨⟨-, -, hworker, -⟩, row, tx₁, -, -, hview, -, hclaim⟩ := pollAndClaimWorkflowSteps_cases hr
  have h₁ := (h.of_view hview).mono (clock.lower tx.ticks)
  exact (claimSteps_shaped hworker (clock.exact _) hdeadline h₁ hclaim).mono (clock.upper _)

theorem failExpiredStep_shaped {now : TimePoint} {result result' : SweepResult}
    {s : WorkflowStepExecution} {e : WorkflowExecution} {d : WorkflowDefinition}
    (clock : ReadsWithin env t t') (hnow : Exact now) (hlower : t ≤ now) (hs : s.Shaped t)
    (hclaimed : s.status = .running) (he : e.WellFormed) (hname : e.currentStepName = s.stepName)
    (h : ShapedRows t' tx.view) (hr : Returns env (failExpiredStep now result s e d) tx result' tx') :
    ShapedRows t' tx'.view := by
  obtain ⟨step, _, -, rfl, houtcome⟩ := failExpiredStep_cases hr
  have h₁ : ShapedRows t' (E.put _ .steps (s.failedFor "lease expired" now).toRow) :=
    h.putStep ((hs.failedFor hclaimed hnow hlower).mono clock.le)
  rcases houtcome with ⟨-, -, n, retry, hretry, rfl⟩ | ⟨-, -, rfl⟩
  · obtain rfl := hretry hname
    have h₂ := h₁.putExecution (e := e.retried) ⟨he.completedAt, he.failureReason⟩
    exact h₂.putStep (clock.pendingStep n nofun)
  · refine h₁.putExecution (e := e.failedFor "lease expired" now) ?_
    exact wellFormed_ended nofun rfl (iff_of_true rfl rfl)

theorem sweepStep_shaped {now : TimePoint} {result result' : SweepResult}
    {row : WorkflowStepExecutionRow} (clock : ReadsWithin env t t') (hnow : Exact now)
    (hlower : t ≤ now) (hs : row.fromRow.Shaped t) (hclaimed : row.fromRow.status = .running)
    (h : ShapedRows t' tx.view) (hr : Returns env (sweepStep now result row) tx result' tx') :
    ShapedRows t' tx'.view := by
  obtain ⟨tx₁, hview, -, -, hexec⟩ := sweepStep_exec env tx now result row
  rw [Returns, hexec] at hr
  cases hl : lapsed tx.view now row with
  | none =>
    rw [hl] at hr
    obtain ⟨-, rfl⟩ := Prod.mk.inj hr
    exact h.of_view hview
  | some found =>
    obtain ⟨e, d⟩ := found
    rw [hl] at hr
    obtain ⟨-, ⟨found, hfound, rfl⟩, -, hname, -⟩ := lapsed_eq_some.mp hl
    exact failExpiredStep_shaped clock hnow hlower hs hclaimed (h.executions _ found hfound) hname
      (h.of_view hview) hr

theorem sweepSteps_shaped {now : TimePoint} {result result' : SweepResult}
    {rows : List WorkflowStepExecutionRow} (clock : ReadsWithin env t t') (hnow : Exact now)
    (hlower : t ≤ now)
    (hrows : ∀ row ∈ rows, row.fromRow.Shaped t ∧ row.fromRow.status = .running)
    (h : ShapedRows t' tx.view) (hr : Returns env (sweepSteps now result rows) tx result' tx') :
    ShapedRows t' tx'.view := by
  induction rows generalizing tx result with
  | nil =>
    obtain ⟨-, rfl⟩ := returns_pure.mp hr
    exact h
  | cons row rows ih =>
    simp only [sweepSteps, returns_bind] at hr
    obtain ⟨result₁, tx₁, hstep, hr⟩ := hr
    obtain ⟨hs, hclaimed⟩ := hrows row List.mem_cons_self
    have h₁ := sweepStep_shaped clock hnow hlower hs hclaimed h hstep
    exact ih (fun row' hrow' => hrows row' (List.mem_cons_of_mem row hrow')) h₁ hr

theorem sweepExpiredLeases_shaped {result : SweepResult} (clock : ReadsWithin env t t')
    (h : ShapedRows t tx.view) (hr : Returns env sweepExpiredLeases tx result tx') :
    ShapedRows t' tx'.view := by
  simp only [sweepExpiredLeases, returns_bind, returns_nowForStorage, returns_querySteps] at hr
  obtain ⟨now, tx₁, ⟨hnow, htx₁⟩, _, tx₂, ⟨rfl, htx₂⟩, hr⟩ := hr
  have hv₁ : tx₁.view = tx.view := by rw [htx₁, Tx.tick_view]
  have hv₂ : tx₂.view = tx.view := by rw [htx₂, Tx.noteQuery_view, hv₁]
  refine sweepSteps_shaped clock (hnow ▸ clock.exact _) (hnow ▸ clock.lower _) ?_
    ((h.mono clock.le).of_view hv₂) hr
  intro row hrow
  refine ⟨(h.of_view hv₁).arranged env _ row hrow, ?_⟩
  have hstatus := expiredRunningStepsQuery_holds.mp (mem_arrange.mp hrow).2
  simp only [WorkflowStepExecutionRow.fromRow, hstatus, StepExecutionStatus.fromString_toString]

/-- The deadlines that a call hands out when it returns: the leases of the claimed steps, a renewed
lease and the time that the next step waits for. -/
inductive Entry.Sets (x : Entry) : TimePoint → Prop
  | claimed {steps : List WorkflowStepExecution} {s : WorkflowStepExecution} {deadline : TimePoint}
      (result : x.result = .ok (.claimed steps)) (mem : s ∈ steps)
      (lease : s.leaseExpiresAt = some deadline) : x.Sets deadline
  | renewed {s : WorkflowStepExecution} {deadline : TimePoint} (result : x.result = .ok (.step s))
      (lease : s.leaseExpiresAt = some deadline) : x.Sets deadline
  | scheduled {id stepName workerId : String} {output : Json} {delay : Seconds} {r : Response}
      (n : ℕ) (operation : x.call.operation = .completeStep id stepName workerId output (some delay))
      (result : x.result = .ok r) : x.Sets ((x.call.reading n).addSeconds delay)

theorem Entry.Step.shapedRows {x : Entry} (step : Entry.Step db x db')
    (clock : ReadsWithin x.call.env t t') (deadlines : ∀ u, x.Sets u → u < yearTenThousand)
    (h : ShapedRows t db) : ShapedRows t' db' := by
  obtain ⟨⟨-, rfl⟩, hresult⟩ := step
  cases hr : x.call.result db with
  | error ex =>
    rw [Call.result_error hr]
    exact h.mono clock.le
  | ok r =>
    rw [hr] at hresult
    obtain ⟨tx, hreturns, hview⟩ := Call.result_ok hr
    rw [← hview]
    obtain ⟨⟨op, env⟩, result⟩ := x
    cases op with
    | registerWorkflowDefinition d =>
      simp only [Operation.program, returns_bind, returns_pure] at hreturns
      obtain ⟨_, _, hreturns, rfl, rfl⟩ := hreturns
      exact (registerWorkflowDefinition_shaped h hreturns).mono clock.le
    | startWorkflow name version input =>
      simp only [Operation.program, returns_bind, returns_pure] at hreturns
      obtain ⟨_, _, hreturns, rfl, rfl⟩ := hreturns
      exact startWorkflow_shaped clock h hreturns
    | pollAndClaimWorkflowSteps name version workerId maxResults =>
      simp only [Operation.program, returns_bind, returns_pure] at hreturns
      obtain ⟨claimed, _, hreturns, rfl, rfl⟩ := hreturns
      refine pollAndClaimWorkflowSteps_shaped clock h ?_ hreturns
      intro s hs u hu
      exact deadlines u (.claimed hresult hs hu)
    | keepAliveStep id name workerId =>
      simp only [Operation.program, returns_bind, returns_pure] at hreturns
      obtain ⟨s, _, hreturns, rfl, rfl⟩ := hreturns
      refine keepAliveStep_shaped clock h hreturns ?_
      intro u hu
      exact deadlines u (.renewed hresult hu)
    | completeStep id name workerId output delay =>
      simp only [Operation.program, returns_bind, returns_pure] at hreturns
      obtain ⟨_, _, hreturns, rfl, rfl⟩ := hreturns
      refine completeStep_shaped clock h ?_ hreturns
      intro n seconds hseconds
      obtain rfl := Option.mem_def.mp hseconds
      exact deadlines _ (.scheduled n rfl hresult)
    | failStep id name workerId reason =>
      simp only [Operation.program, returns_bind, returns_pure] at hreturns
      obtain ⟨_, _, hreturns, rfl, rfl⟩ := hreturns
      exact failStep_shaped clock h hreturns
    | cancelWorkflow id =>
      simp only [Operation.program, returns_bind, returns_pure] at hreturns
      obtain ⟨_, _, hreturns, rfl, rfl⟩ := hreturns
      exact cancelWorkflow_shaped clock h hreturns
    | sweepExpiredLeases =>
      simp only [Operation.program, returns_bind, returns_pure] at hreturns
      obtain ⟨_, _, hreturns, rfl, rfl⟩ := hreturns
      exact sweepExpiredLeases_shaped clock h hreturns

theorem History.shapedRows {h : List Entry} (run : History E db h db') (ht : 0 ≤ t)
    (clock : ClockFrom t (h.map Entry.call)) (ticks : ∀ x ∈ h, ∀ n, 1000 ∣ x.call.reading n)
    (before : ∀ x ∈ h, ∀ n, x.call.reading n < yearTenThousand)
    (deadlines : ∀ x ∈ h, ∀ u, x.Sets u → u < yearTenThousand) (rows : ShapedRows t db) :
    ∃ t', ShapedRows t' db' := by
  induction h generalizing db t with
  | nil =>
    obtain rfl := run.nil_inv
    exact ⟨t, rows⟩
  | cons x h ih =>
    obtain ⟨db₁, step, run⟩ := run.cons_inv
    obtain ⟨⟨hstart, hmono⟩, t', hupper, hrest⟩ := clock
    have hlower : ∀ n, t ≤ x.call.reading n := fun n => hstart.trans (hmono (Nat.zero_le n))
    have hx : x ∈ x :: h := List.mem_cons_self
    have hreads : ReadsWithin x.call.env t t' :=
      ⟨hlower, hupper, fun n => ⟨ht.trans (hlower n), before x hx n, ticks x hx n⟩⟩
    refine ih run (ht.trans hreads.le) hrest (fun y hy => ticks y (List.mem_cons_of_mem x hy))
      (fun y hy => before y (List.mem_cons_of_mem x hy))
      (fun y hy => deadlines y (List.mem_cons_of_mem x hy)) ?_
    exact step.shapedRows hreads (deadlines x hx) rows

/-- The clock counts microseconds from the epoch. -/
theorem rows_well_formed {h : List Entry} (run : History E E.empty h db)
    (clock : ClockFrom 0 (h.map Entry.call)) (ticks : ∀ x ∈ h, ∀ n, 1000 ∣ x.call.reading n)
    (before : ∀ x ∈ h, ∀ n, x.call.reading n < yearTenThousand)
    (deadlines : ∀ x ∈ h, ∀ u, x.Sets u → u < yearTenThousand) :
    (∀ k (row : WorkflowStepExecutionRow), E.get db .steps k = some row → row.fromRow.WellFormed) ∧
    (∀ k (row : WorkflowExecutionRow), E.get db .executions k = some row →
      row.fromRow.WellFormed) := by
  obtain ⟨t, hrows⟩ := History.shapedRows run (le_refl 0) clock ticks before deadlines .empty
  exact ⟨fun k row hrow => (hrows.steps k row hrow).toWellFormed, hrows.executions⟩

theorem rows_well_formed_lapse :
    (∃ h, History Sample.store Sample.store.empty h (Sample.after Sample.lapse)) ∧
    (Sample.script 0 "ship" Sample.lapse).map (fun row => row.fromRow.status) =
      [.failed, .running] ∧
    (∀ k (row : WorkflowStepExecutionRow),
      Sample.store.get (Sample.after Sample.lapse) .steps k = some row → row.fromRow.WellFormed) ∧
    (∀ k (row : WorkflowExecutionRow),
      Sample.store.get (Sample.after Sample.lapse) .executions k = some row →
      row.fromRow.WellFormed) := by
  have run : History Sample.store Sample.store.empty
      (record Sample.store Sample.store.empty Sample.lapse) (Sample.after Sample.lapse) :=
    history_record (by decide +kernel)
  have hrows : (Sample.script 0 "ship" Sample.lapse).map (fun row => row.fromRow.status) =
      [.failed, .running] := by
    decide +kernel
  have hleases : ∀ x ∈ record Sample.store Sample.store.empty Sample.lapse,
      (∀ s ∈ x.claimed, ∀ u ∈ s.leaseExpiresAt, u < yearTenThousand) ∧
      x.renewed = none := by
    decide +kernel
  have hclock : ClockFrom 0 Sample.lapse := by
    refine ClockFrom.stopped (fun _ => rfl) (show (0 : ℤ) ≤ 0 by decide) ?_
    refine ClockFrom.stopped (fun _ => rfl) (show (0 : ℤ) ≤ 1000000 by decide) ?_
    refine ClockFrom.stopped (fun _ => rfl) (show (1000000 : ℤ) ≤ 2000000 by decide) ?_
    refine ClockFrom.stopped (fun _ => rfl) (show (2000000 : ℤ) ≤ 20000000000 by decide) ?_
    exact ClockFrom.stopped (fun _ => rfl) (show (20000000000 : ℤ) ≤ 21000000000 by decide) trivial
  have hcalls : ∀ c ∈ Sample.lapse, (∀ n, 1000 ∣ c.reading n ∧ c.reading n < yearTenThousand) ∧
      ∀ id name workerId output delay, c.operation ≠ .completeStep id name workerId output delay := by
    intro c hc
    simp only [Sample.lapse, Sample.begin, List.cons_append, List.nil_append, List.mem_cons,
      List.not_mem_nil, or_false] at hc
    rcases hc with rfl | rfl | rfl | rfl | rfl
    · exact ⟨fun _ => (by decide : (1000 : ℤ) ∣ 0 ∧ (0 : ℤ) < yearTenThousand),
        fun _ _ _ _ _ h => by cases h⟩
    · exact ⟨fun _ => (by decide : (1000 : ℤ) ∣ 1000000 ∧ (1000000 : ℤ) < yearTenThousand),
        fun _ _ _ _ _ h => by cases h⟩
    · exact ⟨fun _ => (by decide : (1000 : ℤ) ∣ 2000000 ∧ (2000000 : ℤ) < yearTenThousand),
        fun _ _ _ _ _ h => by cases h⟩
    · exact ⟨fun _ => (by decide : (1000 : ℤ) ∣ 20000000000 ∧ (20000000000 : ℤ) < yearTenThousand),
        fun _ _ _ _ _ h => by cases h⟩
    · exact ⟨fun _ => (by decide : (1000 : ℤ) ∣ 21000000000 ∧ (21000000000 : ℤ) < yearTenThousand),
        fun _ _ _ _ _ h => by cases h⟩
  have hcall : ∀ x ∈ record Sample.store Sample.store.empty Sample.lapse, x.call ∈ Sample.lapse :=
    fun x hx => call_mem_of_record hx
  rw [← @record_calls Sample.store Sample.store.empty Sample.lapse] at hclock
  generalize record Sample.store Sample.store.empty Sample.lapse = h at run hleases hclock hcall
  generalize Sample.after Sample.lapse = db at run ⊢
  have hsets : ∀ x ∈ h, ∀ u, x.Sets u → u < yearTenThousand := by
    intro x hx u hu
    obtain ⟨hclaimed, hstep⟩ := hleases x hx
    cases hu with
    | claimed result mem lease =>
      rw [Entry.claimed, result] at hclaimed
      exact hclaimed _ mem u lease
    | renewed result lease =>
      rw [Entry.renewed, result] at hstep
      cases hstep
    | scheduled n operation result => exact ((hcalls _ (hcall x hx)).2 _ _ _ _ _ operation).elim
  exact ⟨⟨h, run⟩, hrows, rows_well_formed run hclock
    (fun x hx n => ((hcalls _ (hcall x hx)).1 n).1) (fun x hx n => ((hcalls _ (hcall x hx)).1 n).2)
    hsets⟩

end WorkflowEngine
