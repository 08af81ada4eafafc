import WorkflowEngine.RetryBudget

/-!
# Attempts

The current attempt of an execution stands as the execution does. Every other
attempt has completed, or has failed and was followed by the next one, and the
attempts at a step are numbered without gaps. Registrations, late reports and
sweeps change nothing of this.
-/

namespace WorkflowEngine
open Txn Ledger

def StepKey.next (k : StepKey) : StepKey := { k with attempt := k.attempt + 1 }

/-- The attempt stands as the execution does that is at it. -/
def Mirrors (e : WorkflowExecution) (s : WorkflowStepExecution) : Prop :=
  (e.status = .running → s.status.Active) ∧ (e.status = .completed → s.status = .completed) ∧
    (e.status = .failed → s.status = .failed ∧ s.failureReason = e.failureReason) ∧
    (e.status = .canceled → s.status = .canceled)

namespace Ledger
variable {L L' : Ledger} {ev : Event} {e e' : WorkflowExecution} {s s' t : WorkflowStepExecution}
  {id : String}

/-- The attempt is over, and not the last one if it failed. -/
def Past (L : Ledger) (k : StepKey) (s : WorkflowStepExecution) : Prop :=
  s.status = .completed ∨ s.status = .failed ∧ ∃ t, L.step k.next = some t

/-- The attempts up to this one are there. -/
def Numbered (L : Ledger) (k : StepKey) : Prop :=
  0 ≤ k.attempt.toInt ∧ ∀ n : Int32, 0 ≤ n.toInt → n.toInt ≤ k.attempt.toInt →
    ∃ t, L.step { k with attempt := n } = some t

structure AttemptsAt (L : Ledger) (id : String) : Prop where
  current : ∀ e, L.execution id = some e → ∃ s, L.step e.currentKey = some s ∧ Mirrors e s
  past : ∀ e k s, L.execution id = some e → k.workflowExecutionId = id → L.step k = some s →
    k ≠ e.currentKey → L.Past k s
  numbered : ∀ k s, k.workflowExecutionId = id → L.step k = some s → L.Numbered k

def Grows (L L' : Ledger) (id : String) : Prop :=
  ∀ k s, k.workflowExecutionId = id → L.step k = some s → ∃ t, L'.step k = some t

theorem Past.mono {k : StepKey} (h : L.Past k s) (grows : Grows L L' id)
    (hk : k.workflowExecutionId = id) : L'.Past k s := by
  rcases h with h | ⟨h, t, ht⟩
  · exact .inl h
  · exact .inr ⟨h, grows k.next t hk ht⟩

theorem Numbered.mono {k : StepKey} (h : L.Numbered k) (grows : Grows L L' id)
    (hk : k.workflowExecutionId = id) : L'.Numbered k := by
  refine ⟨h.1, fun n hn hle => ?_⟩
  obtain ⟨t, ht⟩ := h.2 n hn hle
  exact grows _ t hk ht

theorem numbered_first {k : StepKey} (hk : L.step k = some t) (hzero : k.attempt = 0) :
    L.Numbered k := by
  have hint : k.attempt.toInt = 0 := by rw [hzero]; rfl
  refine ⟨hint.ge, fun n hn hle => ⟨t, ?_⟩⟩
  have hn : n = k.attempt := Int32.toInt_inj.mp (by omega)
  rw [hn]
  exact hk

theorem Numbered.next {k : StepKey} (h : L.Numbered k) (hk : L.step k.next = some t)
    (hsucc : k.next.attempt.toInt = k.attempt.toInt + 1) : L.Numbered k.next := by
  have hpos := h.1
  refine ⟨by omega, fun n hn hle => ?_⟩
  by_cases hlast : n.toInt ≤ k.attempt.toInt
  · exact h.2 n hn hlast
  · have hn : n = k.next.attempt := Int32.toInt_inj.mp (by omega)
    rw [hn]
    exact ⟨t, hk⟩

theorem AttemptsAt.congr (h : AttemptsAt L id) (inv : LifecycleAt L id) (same : SameAt L L' id) :
    AttemptsAt L' id := by
  have grows : Grows L L' id := fun k s hk hs => ⟨s, (same.step k hk).trans hs⟩
  refine ⟨fun e he => ?_, fun e k s he hk hs hne => ?_, fun k s hk hs => ?_⟩
  · rw [same.execution] at he
    rw [same.step e.currentKey (inv.execution_id e he)]
    exact h.current e he
  · rw [same.execution] at he
    rw [same.step k hk] at hs
    exact (h.past e k s he hk hs hne).mono grows hk
  · rw [same.step k hk] at hs
    exact (h.numbered k s hk hs).mono grows hk

theorem AttemptsAt.settle (e' : WorkflowExecution) (s' : WorkflowStepExecution) (h : AttemptsAt L id)
    (he : L.execution id = some e) (he' : L'.execution id = some e')
    (hkey : e'.currentKey = e.currentKey)
    (hcurrent : L'.step e.currentKey = some s') (mirrors : Mirrors e' s')
    (rest : ∀ k, k.workflowExecutionId = id → k ≠ e.currentKey → L'.step k = L.step k) :
    AttemptsAt L' id := by
  obtain ⟨s, hs, -⟩ := h.current e he
  have grows : Grows L L' id := by
    intro k t hk ht
    by_cases hkk : k = e.currentKey
    · exact ⟨s', hkk ▸ hcurrent⟩
    · exact ⟨t, (rest k hk hkk).trans ht⟩
  refine ⟨fun e₀ he₀ => ?_, fun e₀ k t he₀ hk ht hne => ?_, fun k t hk ht => ?_⟩
  · obtain rfl := Option.some_inj.mp (he'.symm.trans he₀)
    exact ⟨s', hkey ▸ hcurrent, mirrors⟩
  · obtain rfl := Option.some_inj.mp (he'.symm.trans he₀)
    rw [hkey] at hne
    rw [rest k hk hne] at ht
    exact (h.past e k t he hk ht hne).mono grows hk
  · by_cases hkk : k = e.currentKey
    · exact (h.numbered k s hk (hkk ▸ hs)).mono grows hk
    · rw [rest k hk hkk] at ht
      exact (h.numbered k t hk ht).mono grows hk

theorem AttemptsAt.open (e' : WorkflowExecution) (s' t : WorkflowStepExecution)
    (h : AttemptsAt L id) (he : L.execution id = some e) (hid : e.workflowExecutionId = id)
    (he' : L'.execution id = some e')
    (hid' : e'.workflowExecutionId = id)
    (hstep : ∀ k, k.workflowExecutionId = id → L'.step k = if k = e'.currentKey then some t
      else if k = e.currentKey then some s' else L.step k)
    (mirrors : Mirrors e' t)
    (ended : s'.status = .completed ∧ e'.currentStepAttempt = 0 ∨
      s'.status = .failed ∧ e'.currentKey = e.currentKey.next ∧
        e'.currentStepAttempt.toInt = e.currentStepAttempt.toInt + 1) :
    AttemptsAt L' id := by
  obtain ⟨s, hs, -⟩ := h.current e he
  have hopened : L'.step e'.currentKey = some t := by
    rw [hstep _ hid', if_pos rfl]
  have grows : Grows L L' id := by
    intro k u hk hu
    rw [hstep k hk]
    split_ifs
    · exact ⟨_, rfl⟩
    · exact ⟨_, rfl⟩
    · exact ⟨u, hu⟩
  refine ⟨fun e₀ he₀ => ?_, fun e₀ k u he₀ hk hu hne => ?_, fun k u hk hu => ?_⟩
  · obtain rfl := Option.some_inj.mp (he'.symm.trans he₀)
    exact ⟨t, hopened, mirrors⟩
  · obtain rfl := Option.some_inj.mp (he'.symm.trans he₀)
    rw [hstep k hk, if_neg hne] at hu
    split_ifs at hu with hkk
    · obtain rfl := Option.some_inj.mp hu
      rcases ended with ⟨hcompleted, -⟩ | ⟨hfailed, hnext, -⟩
      · exact .inl hcompleted
      · exact .inr ⟨hfailed, t, by rw [hkk, ← hnext]; exact hopened⟩
    · exact (h.past e k u he hk hu hkk).mono grows hk
  · by_cases hkk : k = e'.currentKey
    · subst hkk
      rcases ended with ⟨-, hzero⟩ | ⟨-, hnext, hsucc⟩
      · exact numbered_first hopened hzero
      · have hlast := (h.numbered _ s hid hs).mono grows hid
        rw [hnext] at hopened ⊢
        refine hlast.next hopened ?_
        rw [← hnext]
        exact hsucc
    · rw [hstep k hk, if_neg hkk] at hu
      split_ifs at hu with hkk'
      · exact (h.numbered k s hk (hkk' ▸ hs)).mono grows hk
      · exact (h.numbered k u hk hu).mono grows hk

def Attempts (L : Ledger) : Prop := ∀ id, AttemptsAt L id

theorem attempts_empty : Attempts empty := fun _ => by
  constructor <;> simp [empty, execution, step]

theorem Attempts.of_subject (h : Attempts L) (inv : Lifecycle L) (ht : Transition L ev L')
    (hid : ev.subject = some id) (hat : AttemptsAt L' id) : Attempts L' := by
  intro id'
  by_cases heq : id' = id
  · rw [heq]
    exact hat
  · refine (h id').congr (inv id') (ht.frame inv ?_)
    rw [hid]
    exact fun h => heq (Option.some_inj.mp h).symm

theorem mirrors_running (hr : e.status = .running) (ha : s.status.Active) : Mirrors e s := by
  simp [Mirrors, hr, ha]

theorem Current.setStep (hc : L.Current e s) (inv : Lifecycle L) (hk : s'.stepKey = s.stepKey)
    (k : StepKey) : (L.setStep s').step k = if k = e.currentKey then some s'.stored else L.step k := by
  rw [setStep_step, hk, hc.step_key inv]

theorem Current.attempts (e' : WorkflowExecution) (s' : WorkflowStepExecution) (hc : L.Current e s)
    (inv : Lifecycle L) (h : AttemptsAt L e.workflowExecutionId) (hk : s'.stepKey = s.stepKey)
    (he' : L'.execution e.workflowExecutionId = some e') (hkey : e'.currentKey = e.currentKey)
    (hsteps : L'.step = (L.setStep s').step) (mirrors : Mirrors e' s'.stored) :
    AttemptsAt L' e.workflowExecutionId := by
  refine h.settle e' s'.stored hc.execution he' hkey ?_ mirrors fun k _ hne => ?_
  · rw [hsteps, hc.setStep inv hk, if_pos rfl]
  · rw [hsteps, hc.setStep inv hk, if_neg hne]

theorem Current.attempts_open (hc : L.Current e s) (inv : Lifecycle L)
    (h : AttemptsAt L e.workflowExecutionId) (hk : s'.stepKey = s.stepKey)
    (hid : e'.workflowExecutionId = e.workflowExecutionId) (hr : e'.status = .running)
    (ht : t.stepKey = e'.currentKey) (ha : t.status.Active)
    (ended : s'.status = .completed ∧ e'.currentStepAttempt = 0 ∨
      s'.status = .failed ∧ e'.currentKey = e.currentKey.next ∧
        e'.currentStepAttempt.toInt = e.currentStepAttempt.toInt + 1) :
    AttemptsAt (((L.setStep s').setExecution e').setStep t) e.workflowExecutionId := by
  refine h.open e'.stored s'.stored t.stored hc.execution rfl ?_ hid ?_ ?_ ?_
  · rw [setStep_execution, setExecution_execution, if_pos hid.symm]
  · intro k _
    rw [setStep_step, setExecution_step, hc.setStep inv hk, ht]
    rfl
  · exact mirrors_running hr ha
  · exact ended

theorem attempts_start {input : Json} {createdAt : TimePoint} {singleton : Bool} (inv : Lifecycle L)
    (fresh : L.execution e.workflowExecutionId = none) (running : e.status = .running)
    (attempt : e.currentStepAttempt = 0) :
    AttemptsAt (((L.takeLock singleton e).setExecution e).setStep (e.pendingStep input createdAt none))
      e.workflowExecutionId := by
  have hnone : ∀ k s, k.workflowExecutionId = e.workflowExecutionId → L.step k ≠ some s := by
    intro k s hk hs
    obtain ⟨e₀, he₀, -⟩ := (inv _).step_execution k s hk hs
    rw [fresh] at he₀
    cases he₀
  generalize hL' : ((L.takeLock singleton e).setExecution e).setStep
    (e.pendingStep input createdAt none) = L'
  have hexecution : L'.execution e.workflowExecutionId = some e.stored := by
    rw [← hL', setStep_execution, setExecution_execution, if_pos rfl]
  have hstep : ∀ k, L'.step k = if k = e.currentKey
      then some (e.pendingStep input createdAt none).stored else L.step k := by
    intro k
    rw [← hL', setStep_step, setExecution_step, takeLock_step]
    rfl
  have hcurrent : L'.step e.currentKey = some (e.pendingStep input createdAt none).stored := by
    rw [hstep, if_pos rfl]
  refine ⟨fun e₀ he₀ => ?_, fun e₀ k s he₀ hk hs hne => ?_, fun k s hk hs => ?_⟩
  · obtain rfl := Option.some_inj.mp (hexecution.symm.trans he₀)
    exact ⟨_, hcurrent, mirrors_running running (.inl rfl)⟩
  · obtain rfl := Option.some_inj.mp (hexecution.symm.trans he₀)
    rw [WorkflowExecution.stored_currentKey] at hne
    rw [hstep, if_neg hne] at hs
    exact absurd hs (hnone k s hk)
  · rw [hstep] at hs
    split_ifs at hs with hkk
    · exact numbered_first (hkk ▸ hcurrent) (hkk ▸ attempt)
    · exact absurd hs (hnone k s hk)

theorem attempts_cancel {now : TimePoint} (inv : Lifecycle L) (h : AttemptsAt L e.workflowExecutionId)
    (execution : L.execution e.workflowExecutionId = some e) (running : e.status = .running) :
    AttemptsAt ((L.cancelSteps e.workflowExecutionId now).setExecution (e.canceledAt now))
      e.workflowExecutionId := by
  obtain ⟨s, hs, ha⟩ := (inv _).current_active e execution running
  refine h.settle (e.canceledAt now).stored (s.canceledAt now).stored execution ?_ rfl ?_ ?_ ?_
  · rw [setExecution_execution]
    exact if_pos rfl
  · rw [setExecution_step, cancelSteps_step, hs, Option.map_some, if_pos ⟨rfl, ha⟩]
  · simp [Mirrors, WorkflowExecution.canceledAt, WorkflowStepExecution.canceledAt,
      WorkflowExecution.stored, WorkflowStepExecution.stored]
  · intro k hk hne
    rw [setExecution_step, cancelSteps_step]
    cases hstep : L.step k with
    | none => rfl
    | some t =>
      rw [Option.map_some, if_neg]
      rintro ⟨-, hactive⟩
      exact hne ((inv _).current_only execution hstep hk hactive)

theorem Transition.attempts (ht : Transition L ev L') (inv : Lifecycle L) (h : Attempts L) :
    Attempts L' := by
  have hsubject (id : String) (hid : ev.subject = some id) : AttemptsAt L' id → Attempts L' :=
    h.of_subject inv ht hid
  cases ht with
  | register d => exact fun id => (h id).congr (inv id) ⟨rfl, fun _ _ => rfl⟩
  | @start d e createdAt definition fresh unlocked running first attempt state =>
    exact hsubject _ rfl (attempts_start inv fresh running attempt)
  | @claim s d workerId now lease step claimable definition duration =>
    obtain ⟨e, hc, hkey, -⟩ := inv.current_of_active step (active_of_isClaimable claimable)
    have hid : e.workflowExecutionId = s.workflowExecutionId :=
      congrArg StepKey.workflowExecutionId hkey
    refine hsubject e.workflowExecutionId (congrArg some hid.symm) ?_
    exact hc.attempts e (s.claimedBy workerId now (now.addSeconds lease)) inv (h _) rfl hc.execution
      rfl rfl (mirrors_running hc.running (.inr rfl))
  | @renew e s d workerId now at_ lease held definition duration =>
    exact hsubject _ rfl (held.attempts e (s.renewedUntil (at_.addSeconds lease)) inv (h _)
      rfl held.execution rfl rfl (mirrors_running held.running (.inr held.claimed)))
  | @finish e s workerId now at_ at' output state held =>
    refine hsubject _ rfl (held.attempts (e.completedAtState state at').stored
      (s.completedWith output at_) inv (h _) rfl ?_ ?_ rfl ?_)
    · rw [setExecution_execution]
      exact if_pos rfl
    · rfl
    · simp [Mirrors, WorkflowExecution.completedAtState, WorkflowStepExecution.completedWith,
        WorkflowExecution.stored, WorkflowStepExecution.stored]
  | @advance e s d workerId next now at_ createdAt scheduledAt output state input held definition
      defined =>
    exact hsubject _ rfl (held.attempts_open inv (h _) rfl rfl held.running rfl (.inl rfl)
      (.inl ⟨rfl, rfl⟩))
  | @retry e s d step workerId reason now at_ createdAt failing definition found budget =>
    exact hsubject _ rfl (failing.current.attempts_open inv (h _) rfl rfl failing.current.running rfl
      (.inl rfl) (.inr ⟨rfl, rfl, attempt_succ budget⟩))
  | @exhaust e s d step workerId reason now at_ at' failing definition found spent =>
    refine hsubject _ rfl (failing.current.attempts (e.failedFor reason at').stored
      (s.failedFor reason at_) inv (h _) rfl ?_ ?_ rfl ?_)
    · rw [setExecution_execution]
      exact if_pos rfl
    · rfl
    · simp [Mirrors, WorkflowExecution.failedFor, WorkflowStepExecution.failedFor,
        WorkflowExecution.stored, WorkflowStepExecution.stored]
  | @cancel e now execution running =>
    exact hsubject _ rfl (attempts_cancel inv (h _) execution running)

theorem attempts_of_run {evs : List Event} (run : Systems.Run Transition L evs L')
    (inv : Lifecycle L) (h : Attempts L) : Attempts L' :=
  (run.invariant (I := fun L => Lifecycle L ∧ Attempts L)
    (fun _ _ _ h ht => ⟨ht.lifecycle h.1, ht.attempts h.1 h.2⟩) ⟨inv, h⟩).2

end Ledger

variable {E : Engine schema} {db : E.Db}

theorem Reachable.attempts (reachable : Reachable E db) : Attempts (view db) := by
  obtain ⟨calls, hcalls⟩ := reachable
  obtain ⟨evs, run⟩ := run_of_calls hcalls sound_empty
  rw [view_empty] at run
  exact attempts_of_run run lifecycle_empty attempts_empty

theorem Sample.lapse_rows :
    (store.get (after lapse) .executions (id 0)).map
        (fun row : WorkflowExecutionRow => row.fromRow.currentStepAttempt) = some 1 ∧
      (store.get (after lapse) .steps (stepExecutionKey (id 0) "ship" 0)).map
        (fun row : WorkflowStepExecutionRow => (row.fromRow.status, row.fromRow.createdAt)) =
          some (.failed, some 1000000) := by
  decide +kernel

/-- The current attempt of a stored execution is stored and stands as the execution does; the other
attempts completed, or failed and were followed by the next one; and the attempts at a step are
numbered from 0 without gaps. -/
theorem attempts_follow_executions (reachable : Reachable E db) {id : String}
    {execution : WorkflowExecutionRow} (found : E.get db .executions id = some execution) :
    (∃ step : WorkflowStepExecutionRow, E.get db .steps (stepExecutionKey id
        execution.fromRow.currentStepName execution.fromRow.currentStepAttempt) = some step ∧
      Mirrors execution.fromRow step.fromRow) ∧
    ∀ step : WorkflowStepExecutionRow, E.get db .steps step.key = some step →
      step.workflowExecutionId = id →
      (step.fromRow.stepKey ≠ execution.fromRow.currentKey →
        step.fromRow.status = .completed ∨ step.fromRow.status = .failed ∧
          ∃ row : WorkflowStepExecutionRow, E.get db .steps
            (stepExecutionKey id step.fromRow.stepName (step.fromRow.attempt + 1)) = some row) ∧
      0 ≤ step.fromRow.attempt.toInt ∧
      ∀ n : Int32, 0 ≤ n.toInt → n.toInt ≤ step.fromRow.attempt.toInt →
        ∃ row : WorkflowStepExecutionRow,
          E.get db .steps (stepExecutionKey id step.fromRow.stepName n) = some row := by
  have sound := reachable.sound
  have attempts := reachable.attempts id
  obtain ⟨he, hid, -⟩ := sound.encoded.execution found
  refine ⟨?_, fun step hget hstep => ?_⟩
  · obtain ⟨s, hs, mirrors⟩ := attempts.current _ he
    obtain ⟨row, hrow, rfl, -⟩ := view_step.mp hs
    exact ⟨row, hid ▸ hrow, mirrors⟩
  · obtain ⟨hrow, -, -⟩ := sound.encoded.step_row hget
    have hs : (view db).step step.fromRow.stepKey = some step.fromRow :=
      step_eq_some.mpr ⟨step, hrow, rfl⟩
    have hstored : ∀ (k : StepKey) (t : WorkflowStepExecution),
        k.workflowExecutionId = step.workflowExecutionId → (view db).step k = some t →
        ∃ row : WorkflowStepExecutionRow,
          E.get db .steps (stepExecutionKey id k.stepName k.attempt) = some row := by
      intro k t hk ht
      obtain ⟨row, hrow, -⟩ := view_step.mp ht
      rw [StepKey.text, hk, hstep] at hrow
      exact ⟨row, hrow⟩
    obtain ⟨hpos, hnumbers⟩ := attempts.numbered step.fromRow.stepKey _ hstep hs
    refine ⟨fun hne => ?_, hpos, fun n hn hle => ?_⟩
    · rcases attempts.past _ step.fromRow.stepKey _ he hstep hs hne with hcompleted | ⟨hfailed, t, ht⟩
      · exact .inl hcompleted
      · exact .inr ⟨hfailed, hstored step.fromRow.stepKey.next t rfl ht⟩
    · obtain ⟨t, ht⟩ := hnumbers n hn hle
      exact hstored { step.fromRow.stepKey with attempt := n } t rfl ht

theorem attempts_follow_executions_lapse : ∃ (execution : WorkflowExecutionRow)
    (step row : WorkflowStepExecutionRow),
    Sample.store.get (Sample.after Sample.lapse) .executions (Sample.id 0) = some execution ∧
    Sample.store.get (Sample.after Sample.lapse) .steps (stepExecutionKey (Sample.id 0)
      execution.fromRow.currentStepName execution.fromRow.currentStepAttempt) = some step ∧
    Mirrors execution.fromRow step.fromRow ∧ step.fromRow.attempt = 1 ∧
    Sample.store.get (Sample.after Sample.lapse) .steps
      (stepExecutionKey (Sample.id 0) step.fromRow.stepName 0) = some row := by
  have reachable : Reachable Sample.store (Sample.after Sample.lapse) :=
    reachable_play (by decide +kernel)
  obtain ⟨execution, found, hattempt⟩ := Option.map_eq_some_iff.mp Sample.lapse_rows.1
  generalize Sample.after Sample.lapse = db at reachable found ⊢
  obtain ⟨⟨step, hstep, mirrors⟩, hrest⟩ := attempts_follow_executions reachable found
  obtain ⟨-, -, hplain⟩ := reachable.sound.encoded.execution found
  have hkey := reachable.sound.encoded.stepKey
    (k := ⟨Sample.id 0, execution.fromRow.currentStepName, execution.fromRow.currentStepAttempt⟩)
    hplain hstep
  have hone : step.fromRow.attempt = 1 := (congrArg StepKey.attempt hkey).trans hattempt
  have hget := hstep
  rw [← Sample.store.key_of_get _ _ _ _ hstep] at hget
  obtain ⟨-, -, hnumbers⟩ := hrest step hget (congrArg StepKey.workflowExecutionId hkey)
  rw [hone] at hnumbers
  obtain ⟨row, hrow⟩ := hnumbers 0 (by decide) (by decide)
  exact ⟨execution, step, row, found, hstep, mirrors, hone, hrow⟩

end WorkflowEngine
