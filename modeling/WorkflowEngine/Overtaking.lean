import WorkflowEngine.Leases
import WorkflowEngine.Lineage
import WorkflowEngine.Polling

/-!
# A waiting attempt is overtaken only so often

A poll takes the attempts that may be claimed in the order in which they were
made. One that passes over a pending attempt that is due has therefore spent all
it was asked for on older attempts, and no older attempts are made any more.
-/

namespace WorkflowEngine
open Txn Txn.Program Systems Orchestrator Ledger
open Iso8601 (Exact)

namespace Ledger

variable {L L' : Ledger} {ev : Event} {k : StepKey} {row : WorkflowStepExecutionRow}

theorem Transition.pending_kept (h : Transition L ev L') (inv : Lifecycle L)
    (hrow : L.stepRow k = some row) (pending : row.fromRow.status = .pending)
    (unclaimed : ∀ s now, ev = .claimed s now → s.stepKey ≠ k)
    (uncanceled : ev ≠ .canceled k.workflowExecutionId) : L'.stepRow k = some row := by
  by_cases hsubject : ev.subject = some k.workflowExecutionId
  swap
  · rw [(h.frame inv hsubject).stepRow k rfl]
    exact hrow
  have hidle : ∀ {e s}, L.Current e s → s.status = .running →
      e.workflowExecutionId ≠ k.workflowExecutionId := by
    intro e s current claimed hid
    obtain ⟨-, rfl⟩ := current.eq_of_active inv hrow (.inl pending) hid
    rw [pending] at claimed
    cases claimed
  have hfailing : ∀ {e s now workerId reason}, L.Failing e s now workerId reason →
      e.workflowExecutionId ≠ k.workflowExecutionId := by
    intro e s now workerId reason failing
    cases failing with
    | reported held => exact hidle held.toCurrent held.claimed
    | expired expired => exact hidle expired.toCurrent expired.claimed
  cases h with
  | register => cases hsubject
  | @start d e createdAt definition fresh =>
    obtain ⟨g, hg, -⟩ := (inv k.workflowExecutionId).step_execution k _ rfl
      (step_eq_some.mpr ⟨row, hrow, rfl⟩)
    rw [Option.some_inj.mp hsubject, hg] at fresh
    cases fresh
  | claim =>
    rw [setStep_stepRow, if_neg (Ne.symm (unclaimed _ _ rfl))]
    exact hrow
  | renew held => exact absurd (Option.some_inj.mp hsubject) (hidle held.toCurrent held.claimed)
  | finish held => exact absurd (Option.some_inj.mp hsubject) (hidle held.toCurrent held.claimed)
  | advance held => exact absurd (Option.some_inj.mp hsubject) (hidle held.toCurrent held.claimed)
  | retry failing => exact absurd (Option.some_inj.mp hsubject) (hfailing failing)
  | exhaust failing => exact absurd (Option.some_inj.mp hsubject) (hfailing failing)
  | cancel => exact absurd (congrArg Event.canceled (Option.some_inj.mp hsubject)) uncanceled

theorem pending_of_run {evs : List Event} (h : Run Transition L evs L') (inv : Lifecycle L)
    (hrow : L.stepRow k = some row) (pending : row.fromRow.status = .pending)
    (unclaimed : ∀ s now, .claimed s now ∈ evs → s.stepKey ≠ k)
    (uncanceled : .canceled k.workflowExecutionId ∉ evs) : L'.stepRow k = some row := by
  have hevs : ∀ ev ∈ evs, (∀ s now, ev = .claimed s now → s.stepKey ≠ k) ∧
      ev ≠ .canceled k.workflowExecutionId := by
    intro ev hev
    refine ⟨?_, ?_⟩
    · rintro s now rfl
      exact unclaimed s now hev
    · rintro rfl
      exact uncanceled hev
  exact (h.always (I := fun L => Lifecycle L ∧ L.stepRow k = some row) (Q := fun _ => True)
    (fun _ _ _ hL hev step => ⟨⟨step.lifecycle hL.1, step.pending_kept hL.1 hL.2 pending hev.1 hev.2⟩,
      trivial⟩) hevs ⟨inv, hrow⟩).1.2

end Ledger

theorem Effect.canceled {L L' : Ledger} {now : TimePoint} {op : Operation} {r : Response}
    {evs : List Event} {id : String} (h : Effect L now op r evs L') (hev : .canceled id ∈ evs) :
    op = .cancelWorkflow id := by
  cases h with
  | completeStep event step => rcases event with rfl | ⟨next, rfl⟩ <;> simp at hev
  | failStep event step => rcases event with rfl | rfl <;> simp at hev
  | cancelWorkflow =>
    cases List.mem_singleton.mp hev
    rfl
  | sweepExpiredLeases events run counted swept =>
    obtain ⟨key, h | h⟩ := events _ hev
    · cases h
    · cases h
  | _ => simp at hev

variable {E : Engine schema} {db db' db₀ : E.Db} {s : WorkflowStepExecution} {x : Entry}
  {t : TimePoint}

theorem Entry.Step.pending_kept (step : Entry.Step db x db') (sound : Sound db)
    (hs : (view db).step s.stepKey = some s) (pending : s.status = .pending)
    (unclaimed : ∀ r ∈ x.claimed, r.stepKey ≠ s.stepKey)
    (uncanceled : x.call.operation ≠ .cancelWorkflow s.workflowExecutionId) :
    (view db').step s.stepKey = some s := by
  rcases step.1.cases sound with ⟨r, evs, hr, heff, -⟩ | ⟨-, rfl⟩
  · obtain ⟨row, hrow, rfl⟩ := step_eq_some.mp hs
    refine step_eq_some.mpr ⟨row, pending_of_run heff.run sound.lifecycle hrow pending ?_ ?_, rfl⟩
    · intro c now hc
      obtain ⟨steps, rfl, hmem⟩ := heff.claimed_mem hc
      refine unclaimed c ?_
      rw [Entry.claimed, step.2, hr]
      exact hmem
    · exact fun hc => uncanceled (heff.canceled hc)
  · exact hs

def Entry.room (key : VersionKey) (x : Entry) : ℕ :=
  match x.call.operation, x.result with
  | .pollAndClaimWorkflowSteps name version _ maxResults, .ok _ =>
    if (name, version) = key then maxResults else 0
  | _, _ => 0

def olderRows (db : E.Db) (s : WorkflowStepExecution) : Multiset WorkflowStepExecutionRow :=
  (E.rows db .steps).filter fun row =>
    row.fromRow.versionKey = s.versionKey ∧ row.fromRow.status.Active ∧
      claimsBefore row.fromRow s = true

/-- A poll that passes over an attempt which is due takes older ones only, and all it asked for. -/
theorem poll_passes {env : Environment} {tx : Tx E} {name workerId : String} {version : Int32}
    {maxResults : ℕ} {claimed : List WorkflowStepExecution} (sound : Sound db)
    (hr : Returns env (pollAndClaimWorkflowSteps name version workerId maxResults) (Tx.begin db)
      claimed tx) (hs : StoredStep db s) (hversion : s.versionKey = (name, version))
    (due : s.Claimable (env.answer 0 .clock)) (unclaimed : ∀ r ∈ claimed, r.stepKey ≠ s.stepKey) :
    claimed.length = maxResults ∧ ∀ r ∈ claimed, ∃ c, StoredStep db c ∧
      c.versionKey = s.versionKey ∧ c.status.Active ∧ c.age < s.age ∧ c.stepKey = r.stepKey := by
  obtain ⟨d, -, hclaims, -⟩ := poll_outcome sound.encoded.keyed hr
  let candidates := (candidatesIn env db name version).filter fun c =>
    isClaimable c (env.answer 0 .clock)
  have hsorted : candidates.Pairwise Older :=
    (candidates_older sound.encoded.keyed env name version).filter _
  have hmem : s ∈ candidates := (mem_claimable sound).mpr ⟨hs, hversion, due⟩
  have htaken : s ∉ candidates.take maxResults := by
    intro hmem
    obtain ⟨r, hr, hclaim⟩ := claimed_of_mem hclaims hmem
    exact unclaimed r hr hclaim.stepKey
  have hdropped : s ∈ candidates.drop maxResults := by
    rw [← List.take_append_drop maxResults candidates] at hmem
    exact (List.mem_append.mp hmem).resolve_left htaken
  constructor
  · rw [← hclaims.length_eq]
    refine List.length_take_of_le (not_lt.mp fun hlt => ?_)
    rw [List.drop_eq_nil_of_le hlt.le] at hdropped
    cases hdropped
  · intro r hr
    obtain ⟨c, hc, hclaim⟩ := claim_of_mem hclaims r hr
    obtain ⟨hstored, hsame, hclaimable⟩ := (mem_claimable sound).mp (List.mem_of_mem_take hc)
    have hactive := active_of_isClaimable (isClaimable_iff.mpr hclaimable)
    rw [← List.take_append_drop maxResults candidates, List.pairwise_append] at hsorted
    exact ⟨c, hstored, hsame.trans hversion.symm, hactive, hsorted.2.2 c hc s hdropped,
      hclaim.stepKey.symm⟩

theorem WorkflowStepExecution.SameOrigin.age {s s' : WorkflowStepExecution} (h : s.SameOrigin s') :
    s'.age = s.age := by
  obtain ⟨hid, hname, hattempt⟩ := StepKey.mk.inj h.stepKey
  rw [WorkflowStepExecution.age, h.createdAt, hid, hname, hattempt]
  rfl

theorem created_le_of_age {c : WorkflowStepExecution} (h : c.age < s.age) :
    noneFirst c.createdAt ≤ noneFirst s.createdAt := by
  rcases Prod.Lex.toLex_lt_toLex.mp h with hlt | ⟨heq, -⟩
  · exact hlt.le
  · exact heq.le

theorem older_of_from {c : WorkflowStepExecution} {u : TimePoint} (hfrom : c.From db t)
    (hversion : c.versionKey = s.versionKey) (active : c.status.Active) (hage : c.age < s.age)
    (created : s.createdAt = some u) (hu : u < t) :
    ∃ row ∈ olderRows db s, row.fromRow.stepKey = c.stepKey := by
  rcases hfrom with ⟨row, hrow, same, hrewritten⟩ | ⟨v, hv, htv, -⟩
  · have hkey : schema.key .steps row = c.stepKey.text := E.key_of_get _ _ _ _ hrow
    refine ⟨row, Multiset.mem_filter.mpr ⟨?_, ?_, ?_, ?_⟩, same.stepKey.symm⟩
    · exact (E.mem_rows db .steps row).mpr (hkey ▸ hrow)
    · exact same.versionKey.symm.trans hversion
    · exact hrewritten.elim id fun heq => heq ▸ active
    · rw [claimsBefore_iff, ← same.age]
      exact hage
  · have hle := created_le_of_age hage
    rw [hv, created] at hle
    exact absurd (htv.trans (WithBot.coe_le_coe.mp hle)) (not_le.mpr hu)

/-- What passing over the attempt costs. -/
def Entry.Passes (x : Entry) (older : Multiset WorkflowStepExecutionRow) (key : VersionKey) : Prop :=
  x.room key = 0 ∨ (x.claimed.length = x.room key ∧
    ∀ r ∈ x.claimed, ∃ row ∈ older, row.fromRow.stepKey = r.stepKey)

structure Waits (db₀ : E.Db) (t : TimePoint) (s : WorkflowStepExecution) (db : E.Db) : Prop where
  sound : Sound db
  step : (view db).step s.stepKey = some s
  origins : (heritage (WorkflowStepExecution.From db₀ t) fun now => t ≤ now ∧ Exact now).Holds db

/-- The call comes at the time or later, and leaves the attempt alone. -/
structure Entry.Spares (x : Entry) (s : WorkflowStepExecution) (t : TimePoint) : Prop where
  clock : ∀ n, t ≤ x.call.reading n ∧ Exact (x.call.reading n)
  unclaimed : ∀ r ∈ x.claimed, r.stepKey ≠ s.stepKey
  uncanceled : x.call.operation ≠ .cancelWorkflow s.workflowExecutionId

theorem Entry.Step.passes (step : Entry.Step db x db') (waits : Waits db₀ t s db)
    (spares : x.Spares s t) (pending : s.status = .pending) {u : TimePoint}
    (created : s.createdAt = some u) (hu : u < t) (due : ∀ u ∈ s.scheduledAt, u ≤ t) :
    x.Passes (olderRows db₀ s) s.versionKey := by
  obtain ⟨⟨op, env⟩, result⟩ := x
  obtain ⟨-, hresult⟩ := step
  cases op with
  | pollAndClaimWorkflowSteps name version workerId maxResults =>
    cases result with
    | error ex => exact .inl rfl
    | ok r =>
      obtain ⟨tx, hret, -⟩ := Call.result_ok hresult.symm
      simp only [Operation.program, returns_bind, returns_pure] at hret
      obtain ⟨claimed, _, hret, rfl, rfl⟩ := hret
      by_cases hversion : s.versionKey = (name, version)
      swap
      · exact .inl (if_neg (Ne.symm hversion))
      have hstored : StoredStep db s := by
        obtain ⟨row, hrow, hfrom, -⟩ := view_step.mp waits.step
        exact ⟨row, hrow, hfrom⟩
      have hdue : s.Claimable (env.answer 0 .clock) :=
        .inl ⟨pending, fun u hu => (due u hu).trans (spares.clock 0).1⟩
      obtain ⟨hlength, holder⟩ :=
        poll_passes waits.sound hret hstored hversion hdue spares.unclaimed
      refine .inr ⟨hlength.trans (if_pos hversion.symm).symm, fun r hr => ?_⟩
      obtain ⟨c, ⟨row, hrow, hfrom⟩, hsame, hactive, hage, hkey⟩ := holder r hr
      have horigin : c.From db₀ t := hfrom ▸ (waits.origins .steps _ row hrow).1
      obtain ⟨row₀, hmem, hkey₀⟩ := older_of_from horigin hsame hactive hage created hu
      exact ⟨row₀, hmem, hkey₀.trans hkey⟩
  | _ => exact .inl rfl

theorem Entry.Step.waits (step : Entry.Step db x db') (h₀ : ReachableFromEpoch E db₀)
    (waits : Waits db₀ t s db) (spares : x.Spares s t) (pending : s.status = .pending) :
    Waits db₀ t s db' :=
  ⟨step.1.sound waits.sound, step.pending_kept waits.sound waits.step pending spares.unclaimed
    spares.uncanceled, (heritable_from h₀).step step.1 spares.clock waits.origins⟩

theorem room_claimed {h : List Entry} {older : Multiset WorkflowStepExecutionRow} {key : VersionKey}
    (passes : ∀ x ∈ h, x.Passes older key) :
    ∃ keys : List StepKey, keys.Sublist ((h.flatMap Entry.claimed).map WorkflowStepExecution.stepKey) ∧
      keys.length = (h.map (Entry.room key)).sum ∧
      ∀ k ∈ keys, k ∈ older.map fun row => row.fromRow.stepKey := by
  induction h with
  | nil => exact ⟨[], .refl _, rfl, by simp⟩
  | cons x h ih =>
    obtain ⟨keys, hsub, hlength, holder⟩ := ih fun y hy => passes y (List.mem_cons_of_mem x hy)
    rw [List.flatMap_cons, List.map_append, List.map_cons, List.sum_cons]
    rcases passes x List.mem_cons_self with hzero | ⟨hfull, htaken⟩
    · refine ⟨keys, hsub.trans (List.sublist_append_right _ _), ?_, holder⟩
      rw [hzero, Nat.zero_add, hlength]
    · refine ⟨x.claimed.map WorkflowStepExecution.stepKey ++ keys, hsub.append_left _, ?_, ?_⟩
      · rw [List.length_append, List.length_map, hfull, hlength]
      · intro k hk
        rcases List.mem_append.mp hk with hk | hk
        · obtain ⟨r, hr, rfl⟩ := List.mem_map.mp hk
          exact Multiset.mem_map.mpr (htaken r hr)
        · exact holder k hk

/-- Claims of different attempts are no more than the older attempts there were. -/
theorem room_le {h : List Entry} {older : Multiset WorkflowStepExecutionRow} {key : VersionKey}
    (passes : ∀ x ∈ h, x.Passes older key)
    (once : ((h.flatMap Entry.claimed).map WorkflowStepExecution.stepKey).Nodup) :
    (h.map (Entry.room key)).sum ≤ older.card := by
  obtain ⟨keys, hsub, hlength, holder⟩ := room_claimed passes
  have hle : (keys : Multiset StepKey) ≤ older.map fun row => row.fromRow.stepKey :=
    (Multiset.le_iff_subset (Multiset.coe_nodup.mpr (once.sublist hsub))).mpr fun k hk => holder k hk
  calc (h.map (Entry.room key)).sum
      = (keys : Multiset StepKey).card := hlength.symm
    _ ≤ (older.map fun row => row.fromRow.stepKey).card := Multiset.card_le_card hle
    _ = older.card := Multiset.card_map _ _

/-- While a pending attempt that is due waits, unclaimed and uncanceled, each poll of its version that
returns takes as many attempts as it asks for, all older and made before the wait; so if no attempt is
claimed twice meanwhile, such polls ask for no more than there are older attempts. -/
theorem overtaking_bounded (reachable : ReachableFromEpoch E db) {h : List Entry}
    (run : History E db h db') (hs : StoredStep db s) (pending : s.status = .pending) {u : TimePoint}
    (created : s.createdAt = some u) (hu : u < t) (due : ∀ u ∈ s.scheduledAt, u ≤ t)
    (spares : ∀ x ∈ h, x.Spares s t) :
    (∀ x ∈ h, x.Passes (olderRows db s) s.versionKey) ∧
      (((h.flatMap Entry.claimed).map WorkflowStepExecution.stepKey).Nodup →
        (h.map (Entry.room s.versionKey)).sum ≤ (olderRows db s).card) := by
  have sound := reachable.reachable.sound
  obtain ⟨row, hrow, hfrom⟩ := hs
  have waits : Waits db t s db :=
    ⟨sound, view_step.mpr ⟨row, hrow, hfrom, rfl⟩, reachable.reachable.holds_from⟩
  have hstep : ∀ db' x db'', Waits db t s db' → Entry.Spares x s t → Entry.Step db' x db'' →
      Waits db t s db'' ∧ x.Passes (olderRows db s) s.versionKey := by
    intro db' x db'' waits spares step
    exact ⟨step.waits reachable waits spares pending,
      step.passes waits spares pending created hu due⟩
  have passes := (run.always hstep spares waits).2
  exact ⟨passes, room_le passes⟩

theorem overtaking_bounded_second :
    let calls := Sample.begin (Sample.definition false 0) ++ [Sample.start 1500000 1]
    let rows := Sample.script 0 "ship" calls ++ Sample.script 1 "ship" calls
    let poll := Sample.poll 2000000 "first" rows
    ∃ s, StoredStep (Sample.after calls) s ∧ s.workflowExecutionId = Sample.id 1 ∧
      Entry.room ("order", 1) ⟨poll, poll.result (Sample.after calls)⟩ = 1 ∧
      1 ≤ (olderRows (Sample.after calls) s).card := by
  intro calls rows poll
  have hreachable : ReachableFromEpoch Sample.store (Sample.after calls) := by
    refine ⟨_, calls_play (by decide +kernel), fun c hc n => ?_⟩
    have hreadings : calls.map (fun c => c.reading n) = [0, 1000000, 1500000] := rfl
    have hmem := List.mem_map_of_mem (f := fun c => c.reading n) hc
    rw [hreadings] at hmem
    generalize c.reading n = now at hmem ⊢
    simp only [List.mem_cons, List.not_mem_nil, or_false] at hmem
    rcases hmem with rfl | rfl | rfl <;> decide
  have hrow : (Sample.store.get (Sample.after calls) .steps
      (stepExecutionKey (Sample.id 1) "ship" 0)).map (fun row : WorkflowStepExecutionRow =>
        (row.fromRow.stepKey, row.fromRow.versionKey, row.fromRow.status, row.fromRow.createdAt,
          row.fromRow.scheduledAt)) =
      some (⟨Sample.id 1, "ship", 0⟩, ("order", 1), .pending, some 1500000, none) := by
    decide +kernel
  have hclaimed : (Entry.claimed ⟨poll, poll.result (Sample.after calls)⟩).map
      WorkflowStepExecution.stepKey = [⟨Sample.id 0, "ship", 0⟩] := by decide +kernel
  have hroom : Entry.room ("order", 1) ⟨poll, poll.result (Sample.after calls)⟩ = 1 := by
    decide +kernel
  have hstep : ∀ db : Sample.store.Db, Entry.Step db ⟨poll, poll.result db⟩ (poll.after db) :=
    fun db => ⟨⟨Call.fresh_of_isFresh rfl, rfl⟩, rfl⟩
  have hids : Sample.id 1 ≠ Sample.id 0 := by decide
  generalize Sample.after calls = db at *
  obtain ⟨row, hget, hfields⟩ := Option.map_eq_some_iff.mp hrow
  simp only [Prod.mk.injEq] at hfields
  obtain ⟨hkey, hversion, hpending, hcreated, hscheduled⟩ := hfields
  have hs : StoredStep db row.fromRow := ⟨row, hkey.symm ▸ hget, rfl⟩
  have hid : row.fromRow.workflowExecutionId = Sample.id 1 :=
    congrArg StepKey.workflowExecutionId hkey
  have hnow : Exact 2000000 := ⟨by decide, by decide, by decide⟩
  have hspares : Entry.Spares ⟨poll, poll.result db⟩ row.fromRow 2000000 := by
    refine ⟨fun _ => ⟨le_refl _, hnow⟩, fun r hr heq => ?_, nofun⟩
    have hmem := List.mem_map_of_mem (f := WorkflowStepExecution.stepKey) hr
    rw [hclaimed, List.mem_singleton, heq, hkey] at hmem
    exact hids (congrArg StepKey.workflowExecutionId hmem)
  have hdue : ∀ u ∈ row.fromRow.scheduledAt, u ≤ 2000000 := by
    rw [hscheduled]
    nofun
  obtain ⟨-, hbound⟩ := overtaking_bounded hreachable (.single (hstep db)) hs hpending hcreated
    (by decide : (1500000 : ℤ) < 2000000) hdue fun x hx => List.mem_singleton.mp hx ▸ hspares
  have honce : ((([⟨poll, poll.result db⟩] : List Entry).flatMap Entry.claimed).map
      WorkflowStepExecution.stepKey).Nodup := by
    rw [List.flatMap_singleton, hclaimed]
    exact List.nodup_singleton _
  refine ⟨row.fromRow, hs, hid, hroom, ?_⟩
  have hle := hbound honce
  rw [hversion, List.map_singleton, List.sum_singleton, hroom] at hle
  exact hle

end WorkflowEngine
