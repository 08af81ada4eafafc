import WorkflowEngine.Ledger
import WorkflowEngine.Systems.Run

/-!
# One active attempt

A Running execution has one Pending or Running row, its current attempt; any
other execution has none. The condition speaks about one execution at a time,
and a transition touches one execution only.
-/

namespace WorkflowEngine
namespace Ledger
open WorkflowStepExecution (stored_versionKey stored_state)

structure SameAt (L L' : Ledger) (id : String) : Prop where
  executionRow : L'.executionRow id = L.executionRow id
  stepRow : ∀ k : StepKey, k.workflowExecutionId = id → L'.stepRow k = L.stepRow k

theorem SameAt.refl (L : Ledger) (id : String) : SameAt L L id := ⟨rfl, fun _ _ => rfl⟩

theorem SameAt.trans {L₁ L₂ L₃ : Ledger} {id : String} (h₁ : SameAt L₁ L₂ id)
    (h₂ : SameAt L₂ L₃ id) : SameAt L₁ L₃ id :=
  ⟨h₂.executionRow.trans h₁.executionRow,
    fun k hk => (h₂.stepRow k hk).trans (h₁.stepRow k hk)⟩

theorem SameAt.execution {L L' : Ledger} {id : String} (h : SameAt L L' id) :
    L'.execution id = L.execution id := by
  rw [Ledger.execution, Ledger.execution, h.executionRow]

theorem SameAt.step {L L' : Ledger} {id : String} (h : SameAt L L' id) (k : StepKey)
    (hk : k.workflowExecutionId = id) : L'.step k = L.step k := by
  rw [Ledger.step, Ledger.step, h.stepRow k hk]

theorem SameAt.setStep {L L' : Ledger} {s : WorkflowStepExecution} {id : String}
    (h : SameAt L L' id) (hid : id ≠ s.workflowExecutionId) : SameAt L (L'.setStep s) id := by
  refine ⟨h.executionRow, fun k hk => ?_⟩
  rw [setStep_stepRow, if_neg, h.stepRow k hk]
  intro h
  obtain rfl := h
  exact hid hk.symm

theorem SameAt.setExecution {L L' : Ledger} {e : WorkflowExecution} {id : String}
    (h : SameAt L L' id) (hid : id ≠ e.workflowExecutionId) : SameAt L (L'.setExecution e) id := by
  refine ⟨?_, h.stepRow⟩
  exact (Function.update_of_ne hid _ _).trans h.executionRow

theorem SameAt.takeLock {L L' : Ledger} {b : Bool} {e : WorkflowExecution} {id : String}
    (h : SameAt L L' id) : SameAt L (L'.takeLock b e) id :=
  ⟨by rw [takeLock_executionRow, h.executionRow],
    fun k hk => by rw [takeLock_stepRow, h.stepRow k hk]⟩

theorem SameAt.cancelSteps {L L' : Ledger} {id id' : String} {now : TimePoint}
    (h : SameAt L L' id) (hid : id ≠ id') : SameAt L (L'.cancelSteps id' now) id := by
  refine ⟨h.executionRow, fun k hk => ?_⟩
  have hne : k.workflowExecutionId ≠ id' := fun he => hid (hk.symm.trans he)
  exact (if_neg hne).trans (h.stepRow k hk)

structure LifecycleAt (L : Ledger) (id : String) : Prop where
  execution_id : ∀ e, L.execution id = some e → e.workflowExecutionId = id
  step_key : ∀ k s, k.workflowExecutionId = id → L.step k = some s → s.stepKey = k
  step_execution : ∀ k s, k.workflowExecutionId = id → L.step k = some s →
    ∃ e, L.execution id = some e ∧ s.versionKey = e.versionKey
  active_current : ∀ k s, k.workflowExecutionId = id → L.step k = some s → s.status.Active →
    ∃ e, L.execution id = some e ∧ e.status = .running ∧ e.currentKey = k ∧ s.state = e.state
  current_active : ∀ e, L.execution id = some e → e.status = .running →
    ∃ s, L.step e.currentKey = some s ∧ s.status.Active

def Lifecycle (L : Ledger) : Prop := ∀ id, LifecycleAt L id

theorem lifecycle_empty : Lifecycle empty := fun _ => by
  constructor <;> simp [empty, execution, step]

variable {L L' : Ledger} {e e' : WorkflowExecution} {s s' t : WorkflowStepExecution}

theorem LifecycleAt.congr {id : String} (h : LifecycleAt L id) (same : SameAt L L' id) :
    LifecycleAt L' id := by
  constructor
  · rw [same.execution]
    exact h.execution_id
  · intro k s hk hs
    rw [same.step k hk] at hs
    exact h.step_key k s hk hs
  · intro k s hk hs
    rw [same.step k hk] at hs
    rw [same.execution]
    exact h.step_execution k s hk hs
  · intro k s hk hs
    rw [same.step k hk] at hs
    rw [same.execution]
    exact h.active_current k s hk hs
  · intro e he hr
    rw [same.execution] at he
    rw [same.step e.currentKey (h.execution_id e he)]
    exact h.current_active e he hr

def AtRest (L : Ledger) (id : String) : Prop :=
  ∀ k s, k.workflowExecutionId = id → L.step k = some s → ¬ s.status.Active

theorem LifecycleAt.current_only {id : String} (h : LifecycleAt L id) {k : StepKey}
    (he : L.execution id = some e) (hs : L.step k = some s) (hk : k.workflowExecutionId = id)
    (ha : s.status.Active) : k = e.currentKey := by
  obtain ⟨e₀, he₀, -, hc, -⟩ := h.active_current k s hk hs ha
  rw [he] at he₀
  obtain rfl := Option.some_inj.mp he₀
  exact hc.symm

theorem Current.atRest (h : L.Current e s) (inv : Lifecycle L) (hk : s'.stepKey = e.currentKey)
    (hs' : ¬ s'.status.Active) : AtRest (L.setStep s') e.workflowExecutionId := by
  intro k t hkid ht
  rw [setStep_step] at ht
  split_ifs at ht with hkk
  · obtain rfl := Option.some_inj.mp ht
    exact hs'
  · intro ha
    have := (inv _).current_only h.execution ht hkid ha
    exact hkk (this.trans hk.symm)

/-- The rows keep their keys and owners when a terminal row takes a key. -/
structure Linked (L : Ledger) (e : WorkflowExecution) : Prop where
  step_key : ∀ k s, k.workflowExecutionId = e.workflowExecutionId → L.step k = some s →
    s.stepKey = k
  version : ∀ k s, k.workflowExecutionId = e.workflowExecutionId → L.step k = some s →
    s.versionKey = e.versionKey

theorem LifecycleAt.linked (h : LifecycleAt L e.workflowExecutionId)
    (he : L.execution e.workflowExecutionId = some e) : Linked L e := by
  refine ⟨h.step_key, fun k s hk hs => ?_⟩
  obtain ⟨e₀, he₀, hv⟩ := h.step_execution k s hk hs
  rw [he] at he₀
  obtain rfl := Option.some_inj.mp he₀
  exact hv

theorem Linked.setStep (h : Linked L e) (hv : s'.versionKey = e.versionKey) :
    Linked (L.setStep s') e := by
  constructor
  · intro k t hk ht
    rw [setStep_step] at ht
    split_ifs at ht with hkk
    · obtain rfl := Option.some_inj.mp ht
      exact hkk.symm
    · exact h.step_key k t hk ht
  · intro k t hk ht
    rw [setStep_step] at ht
    split_ifs at ht with hkk
    · obtain rfl := Option.some_inj.mp ht
      exact hv
    · exact h.version k t hk ht

theorem LifecycleAt.terminate (linked : Linked L e) (rest : AtRest L e.workflowExecutionId)
    (hid : e'.workflowExecutionId = e.workflowExecutionId) (hv : e'.versionKey = e.versionKey)
    (hr : e'.status ≠ .running) :
    LifecycleAt (L.setExecution e') e.workflowExecutionId := by
  have hex : (L.setExecution e').execution e.workflowExecutionId = some e'.stored := by
    rw [setExecution_execution, if_pos hid.symm]
  constructor
  · intro e₀ he₀
    rw [hex] at he₀
    obtain rfl := Option.some_inj.mp he₀
    exact hid
  · exact linked.step_key
  · intro k t hk ht
    exact ⟨e'.stored, hex, (linked.version k t hk ht).trans hv.symm⟩
  · intro k t hk ht ha
    exact absurd ha (rest k t hk ht)
  · intro e₀ he₀ hr₀
    rw [hex] at he₀
    obtain rfl := Option.some_inj.mp he₀
    exact absurd hr₀ hr

theorem LifecycleAt.enter (linked : Linked L e) (rest : AtRest L e.workflowExecutionId)
    (hid : e'.workflowExecutionId = e.workflowExecutionId) (hv : e'.versionKey = e.versionKey)
    (hr : e'.status = .running) (hk : t.stepKey = e'.currentKey) (hst : t.state = e'.state)
    (htv : t.versionKey = e'.versionKey) (hact : t.status.Active) :
    LifecycleAt ((L.setExecution e').setStep t) e.workflowExecutionId := by
  have hex : ((L.setExecution e').setStep t).execution e.workflowExecutionId =
      some e'.stored := by
    rw [setStep_execution, setExecution_execution, if_pos hid.symm]
  have hstep : ∀ k, ((L.setExecution e').setStep t).step k = if k = t.stepKey
      then some t.stored else L.step k := fun k => by rw [setStep_step, setExecution_step]
  constructor
  · intro e₀ he₀
    rw [hex] at he₀
    obtain rfl := Option.some_inj.mp he₀
    exact hid
  · intro k u hkid hu
    rw [hstep] at hu
    split_ifs at hu with hkt
    · obtain rfl := Option.some_inj.mp hu
      exact hkt.symm
    · exact linked.step_key k u hkid hu
  · intro k u hkid hu
    rw [hstep] at hu
    refine ⟨e'.stored, hex, ?_⟩
    split_ifs at hu with hkt
    · obtain rfl := Option.some_inj.mp hu
      exact htv
    · exact (linked.version k u hkid hu).trans hv.symm
  · intro k u hkid hu ha
    rw [hstep] at hu
    split_ifs at hu with hkt
    · obtain rfl := Option.some_inj.mp hu
      exact ⟨e'.stored, hex, hr, hk.symm.trans hkt.symm, hst⟩
    · exact absurd ha (rest k u hkid hu)
  · intro e₀ he₀ _
    rw [hex] at he₀
    obtain rfl := Option.some_inj.mp he₀
    exact ⟨t.stored, (hstep _).trans (if_pos hk.symm), hact⟩

theorem LifecycleAt.keep {id : String} (inv : LifecycleAt L id) (hid : s.workflowExecutionId = id)
    (hs : L.step s.stepKey = some s) (ha : s.status.Active) (hk : s'.stepKey = s.stepKey)
    (hv : s'.versionKey = s.versionKey) (hst : s'.state = s.state) (ha' : s'.status.Active) :
    LifecycleAt (L.setStep s') id := by
  have hstep : ∀ k, (L.setStep s').step k = if k = s.stepKey then some s'.stored else L.step k :=
    fun k => by rw [setStep_step, hk]
  constructor
  · exact inv.execution_id
  · intro k u hkid hu
    rw [hstep] at hu
    split_ifs at hu with hks
    · obtain rfl := Option.some_inj.mp hu
      exact hk.trans hks.symm
    · exact inv.step_key k u hkid hu
  · intro k u hkid hu
    rw [hstep] at hu
    split_ifs at hu with hks
    · obtain rfl := Option.some_inj.mp hu
      rw [stored_versionKey, hv]
      exact inv.step_execution s.stepKey s hid hs
    · exact inv.step_execution k u hkid hu
  · intro k u hkid hu hau
    rw [hstep] at hu
    split_ifs at hu with hks
    · obtain rfl := Option.some_inj.mp hu
      rw [hks, stored_state, hst]
      exact inv.active_current s.stepKey s hid hs ha
    · exact inv.active_current k u hkid hu hau
  · intro e₀ he₀ hr₀
    obtain ⟨u, hu, hau⟩ := inv.current_active e₀ he₀ hr₀
    by_cases hks : e₀.currentKey = s.stepKey
    · exact ⟨s'.stored, by rw [hstep, if_pos hks], ha'⟩
    · exact ⟨u, by rw [hstep, if_neg hks, hu], hau⟩

theorem Current.linked (h : L.Current e s) (inv : Lifecycle L) : Linked L e :=
  (inv _).linked h.execution

theorem Current.step_key (h : L.Current e s) (inv : Lifecycle L) : s.stepKey = e.currentKey :=
  (inv e.workflowExecutionId).step_key _ _ rfl h.step

theorem Current.version (h : L.Current e s) (inv : Lifecycle L) : s.versionKey = e.versionKey :=
  (h.linked inv).version _ _ rfl h.step

theorem Lifecycle.current_of_active (inv : Lifecycle L) {k : StepKey} (hs : L.step k = some s)
    (ha : s.status.Active) :
    ∃ e, L.Current e s ∧ e.currentKey = k ∧ s.versionKey = e.versionKey ∧ s.state = e.state := by
  obtain ⟨e, he, hr, hk, hst⟩ := (inv k.workflowExecutionId).active_current k s rfl hs ha
  have hid : e.workflowExecutionId = k.workflowExecutionId := (inv _).execution_id e he
  have hcur : L.Current e s := ⟨hid ▸ he, hr, hk ▸ hs⟩
  exact ⟨e, hcur, hk, hcur.version inv, hst⟩

theorem Lifecycle.of_subject (inv : Lifecycle L) {id : String}
    (same : ∀ id', id' ≠ id → SameAt L L' id') (h : LifecycleAt L' id) : Lifecycle L' := by
  intro id'
  by_cases hid : id' = id
  · rw [hid]
    exact h
  · exact (inv id').congr (same id' hid)

theorem Lifecycle.atRest (inv : Lifecycle L) {id : String}
    (h : ∀ e, L.execution id = some e → e.status ≠ .running) : AtRest L id := by
  intro k s hk hs ha
  obtain ⟨e, he, hr, -⟩ := (inv id).active_current k s hk hs ha
  exact h e he hr

theorem Transition.frame {ev : Event} (h : Transition L ev L') (inv : Lifecycle L) {id : String}
    (hid : ev.subject ≠ some id) : SameAt L L' id := by
  have hsubject : ∀ {id' : String}, some id' ≠ some id → id ≠ id' := fun h he =>
    h (congrArg some he.symm)
  have hrow : ∀ {e : WorkflowExecution} {s : WorkflowStepExecution}, L.Current e s →
      some e.workflowExecutionId ≠ some id → id ≠ s.workflowExecutionId := by
    intro e s hc hne
    have hkey : s.workflowExecutionId = e.workflowExecutionId :=
      congrArg StepKey.workflowExecutionId (hc.step_key inv)
    rw [hkey]
    exact hsubject hne
  have same := SameAt.refl L id
  cases h with
  | register d => exact ⟨rfl, fun _ _ => rfl⟩
  | start definition fresh unlocked running first attempt state =>
    refine (same.takeLock.setExecution ?_).setStep ?_
    · exact hsubject hid
    · exact hsubject hid
  | claim step claimable definition duration =>
    refine same.setStep ?_
    exact hsubject hid
  | renew held definition duration =>
    have hs := hrow held.toCurrent hid
    refine same.setStep ?_
    exact hs
  | finish held =>
    have hs := hrow held.toCurrent hid
    refine (same.setStep ?_).setExecution ?_
    · exact hs
    · exact hsubject hid
  | advance held definition defined =>
    have hs := hrow held.toCurrent hid
    refine ((same.setStep ?_).setExecution ?_).setStep ?_
    · exact hs
    · exact hsubject hid
    · exact hsubject hid
  | retry failing definition found budget =>
    have hs := hrow failing.current hid
    refine ((same.setStep ?_).setExecution ?_).setStep ?_
    · exact hs
    · exact hsubject hid
    · exact hsubject hid
  | exhaust failing definition found spent =>
    have hs := hrow failing.current hid
    refine (same.setStep ?_).setExecution ?_
    · exact hs
    · exact hsubject hid
  | cancel execution running =>
    refine (same.cancelSteps ?_).setExecution ?_
    · exact hsubject hid
    · exact hsubject hid

theorem not_active_completed {s : WorkflowStepExecution} (h : s.status = .completed) :
    ¬ s.status.Active := by
  rw [h]
  decide

theorem not_active_failed {s : WorkflowStepExecution} (h : s.status = .failed) :
    ¬ s.status.Active := by
  rw [h]
  decide

theorem atRest_cancelSteps (L : Ledger) (id : String) (now : TimePoint) :
    AtRest (L.cancelSteps id now) id := by
  intro k t hk ht
  rw [cancelSteps_step] at ht
  obtain ⟨s, -, rfl⟩ := Option.map_eq_some_iff.mp ht
  split_ifs with h
  · exact fun ha => by simp [WorkflowStepExecution.canceledAt, WorkflowStepExecution.stored,
      StepExecutionStatus.Active] at ha
  · exact fun ha => h ⟨hk, ha⟩

theorem Linked.cancelSteps (h : Linked L e) (now : TimePoint) :
    Linked (L.cancelSteps e.workflowExecutionId now) e := by
  constructor
  · intro k t hk ht
    rw [cancelSteps_step] at ht
    obtain ⟨s, hs, rfl⟩ := Option.map_eq_some_iff.mp ht
    split_ifs
    · exact h.step_key k s hk hs
    · exact h.step_key k s hk hs
  · intro k t hk ht
    rw [cancelSteps_step] at ht
    obtain ⟨s, hs, rfl⟩ := Option.map_eq_some_iff.mp ht
    split_ifs
    · exact h.version k s hk hs
    · exact h.version k s hk hs

theorem active_of_isClaimable {now : TimePoint} (h : Orchestrator.isClaimable s now = true) :
    s.status.Active := by
  unfold Orchestrator.isClaimable at h
  split_ifs at h with hp
  · exact .inl hp
  · exact .inr (by simpa using (Bool.and_eq_true_iff.mp h).1)

theorem Transition.lifecycle {ev : Event} (h : Transition L ev L') (inv : Lifecycle L) :
    Lifecycle L' := by
  have frame : ∀ id', ev.subject ≠ some id' → SameAt L L' id' := fun _ hid' => h.frame inv hid'
  cases h with
  | register d => exact fun id => (inv id).congr (frame id (by simp [Event.subject]))
  | @start d e createdAt definition fresh unlocked running first attempt state =>
    refine inv.of_subject (fun id' hid' => frame id' fun h => hid' (Option.some_inj.mp h).symm) ?_
    have hnone : ∀ k s, k.workflowExecutionId = e.workflowExecutionId → L.step k ≠ some s := by
      intro k s hk hs
      obtain ⟨e₀, he₀, -⟩ := (inv _).step_execution k s hk hs
      rw [fresh] at he₀
      cases he₀
    refine LifecycleAt.enter (e := e) (L := L.takeLock d.singleton e) ?_ ?_ rfl rfl
      running rfl rfl rfl (.inl rfl)
    · constructor
      · intro k s hk hs
        rw [takeLock_step] at hs
        exact absurd hs (hnone k s hk)
      · intro k s hk hs
        rw [takeLock_step] at hs
        exact absurd hs (hnone k s hk)
    · intro k s hk hs
      rw [takeLock_step] at hs
      exact absurd hs (hnone k s hk)
  | @claim s d workerId now lease step claimable definition duration =>
    refine inv.of_subject (fun id' hid' => frame id' fun h => hid' (Option.some_inj.mp h).symm) ?_
    exact (inv _).keep (s := s) rfl step (active_of_isClaimable claimable) rfl rfl rfl (.inr rfl)
  | @renew e s d workerId now at_ lease held definition duration =>
    refine inv.of_subject (fun id' hid' => frame id' fun h => hid' (Option.some_inj.mp h).symm) ?_
    have hk := held.step_key inv
    exact (inv _).keep (s := s) (congrArg StepKey.workflowExecutionId hk) (hk ▸ held.step)
      (.inr held.claimed) rfl rfl rfl (.inr held.claimed)
  | @finish e s workerId now at_ at' output state held =>
    refine inv.of_subject (fun id' hid' => frame id' fun h => hid' (Option.some_inj.mp h).symm) ?_
    have hk := held.step_key inv
    exact LifecycleAt.terminate ((held.linked inv).setStep (held.version inv))
      (held.atRest inv hk (not_active_completed rfl)) rfl rfl nofun
  | @advance e s d workerId next now at_ createdAt scheduledAt output state input held definition
      defined =>
    refine inv.of_subject (fun id' hid' => frame id' fun h => hid' (Option.some_inj.mp h).symm) ?_
    have hk := held.step_key inv
    exact LifecycleAt.enter ((held.linked inv).setStep (held.version inv))
      (held.atRest inv hk (not_active_completed rfl)) rfl rfl held.running rfl rfl rfl (.inl rfl)
  | @retry e s d step workerId reason now at_ createdAt failing definition found budget =>
    refine inv.of_subject (fun id' hid' => frame id' fun h => hid' (Option.some_inj.mp h).symm) ?_
    have hc := failing.current
    have hk := hc.step_key inv
    exact LifecycleAt.enter ((hc.linked inv).setStep (hc.version inv))
      (hc.atRest inv hk (not_active_failed rfl)) rfl rfl hc.running rfl rfl rfl (.inl rfl)
  | @exhaust e s d step workerId reason now at_ at' failing definition found spent =>
    refine inv.of_subject (fun id' hid' => frame id' fun h => hid' (Option.some_inj.mp h).symm) ?_
    have hc := failing.current
    have hk := hc.step_key inv
    exact LifecycleAt.terminate ((hc.linked inv).setStep (hc.version inv))
      (hc.atRest inv hk (not_active_failed rfl)) rfl rfl nofun
  | @cancel e now execution running =>
    refine inv.of_subject (fun id' hid' => frame id' fun h => hid' (Option.some_inj.mp h).symm) ?_
    exact LifecycleAt.terminate (((inv _).linked execution).cancelSteps now)
      (atRest_cancelSteps L _ now) rfl rfl nofun

theorem lifecycle_of_run {evs : List Event} (h : Systems.Run Transition L evs L')
    (inv : Lifecycle L) : Lifecycle L' :=
  h.invariant (fun _ _ _ hL ht => ht.lifecycle hL) inv

theorem frame_of_run {evs : List Event} (h : Systems.Run Transition L evs L') (inv : Lifecycle L)
    {id : String} (hid : ∀ ev ∈ evs, ev.subject ≠ some id) : SameAt L L' id := by
  induction h with
  | nil => exact SameAt.refl L id
  | snoc run last ih =>
    have hL := lifecycle_of_run run inv
    exact (ih fun ev hev => hid ev (by simp [hev])).trans (last.frame hL (hid _ (by simp)))

theorem Transition.definition {ev : Event} (h : Transition L ev L')
    (hev : ∀ d, ev ≠ .registered d) : L'.definition = L.definition := by
  cases h with
  | register d => exact absurd rfl (hev d)
  | start => simp only [setStep_definition, setExecution_definition, takeLock_definition]
  | cancel => simp only [setExecution_definition, cancelSteps_definition]
  | _ => rfl

theorem definition_of_run {evs : List Event} (h : Systems.Run Transition L evs L')
    (hevs : ∀ ev ∈ evs, ∀ d, ev ≠ .registered d) : L'.definition = L.definition := by
  induction h with
  | nil => rfl
  | snoc _ last ih =>
    have hlast := last.definition (hevs _ (List.mem_append_right _ (List.mem_singleton_self _)))
    exact hlast.trans (ih fun ev hev => hevs ev (List.mem_append_left _ hev))

end Ledger
end WorkflowEngine
