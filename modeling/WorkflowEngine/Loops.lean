import WorkflowEngine.Refinement

/-!
# The loops of canceling, polling and sweeping

Each loop goes over the rows of one query while it writes to the same table.
The rows it has yet to visit are still in place because no two of them share a
key, and for the sweep because no two of them share an execution.
-/

namespace WorkflowEngine
open Txn Txn.Program Orchestrator Ledger

variable {E : Engine schema} {env : Environment} {tx tx' : Tx E} {db : E.Db} {L : Ledger}

structure InPlace (L : Ledger) (row : WorkflowStepExecutionRow) : Prop where
  stepRow : L.stepRow row.fromRow.stepKey = some row
  plain : PlainId row.fromRow.workflowExecutionId

theorem InPlace.step {row : WorkflowStepExecutionRow} (h : InPlace L row) :
    L.step row.fromRow.stepKey = some row.fromRow :=
  step_eq_some.mpr ⟨row, h.stepRow, rfl⟩

theorem Holds.inPlace (h : Holds db L) {row : WorkflowStepExecutionRow}
    (hrow : E.get db .steps row.key = some row) : InPlace L row := by
  obtain ⟨hs, hp, -⟩ := h.encoded.step_row hrow
  exact ⟨h.view_eq ▸ hs, hp⟩

theorem nodup_stepKeys (enc : Encoded db) (q : QuerySpec) :
    ((env.arrange .steps q (E.select db .steps q)).map fun row => row.fromRow.stepKey).Nodup := by
  refine List.Nodup.map_on ?_ (nodup_arrange env db q)
  intro row hrow row' hrow' hkey
  have hget := (mem_arrange.mp hrow).1
  have hget' := (mem_arrange.mp hrow').1
  have htext := (enc.step_row hget).2.2
  have htext' := (enc.step_row hget').2.2
  rw [htext, hkey, ← htext', hget'] at hget
  exact (Option.some_inj.mp hget).symm

def Ledger.cancelAt (L : Ledger) (keys : List StepKey) (now : TimePoint) : Ledger :=
  { L with
    stepRow := fun k => if k ∈ keys then (L.stepRow k).map (cancelRow now) else L.stepRow k }

theorem cancelAt_nil (L : Ledger) (now : TimePoint) : L.cancelAt [] now = L := by
  simp [Ledger.cancelAt]

theorem cancelAt_cons_active {row : WorkflowStepExecutionRow} {keys : List StepKey} {now : TimePoint}
    (hrow : L.stepRow row.fromRow.stepKey = some row) (ha : row.fromRow.status.Active)
    (hk : row.fromRow.stepKey ∉ keys) :
    (L.setStep (row.fromRow.canceledAt now)).cancelAt keys now =
      L.cancelAt (row.fromRow.stepKey :: keys) now := by
  refine Ledger.ext rfl rfl rfl ?_
  funext k
  simp only [Ledger.cancelAt, setStep_stepRow]
  have hkey : (row.fromRow.canceledAt now).stepKey = row.fromRow.stepKey := rfl
  rw [hkey]
  by_cases hks : k = row.fromRow.stepKey
  · subst hks
    simp [hrow, ha, hk, cancelRow]
  · simp [hks]

theorem cancelAt_cons_inactive {row : WorkflowStepExecutionRow} {keys : List StepKey}
    {now : TimePoint} (hrow : L.stepRow row.fromRow.stepKey = some row)
    (ha : ¬ row.fromRow.status.Active) :
    L.cancelAt keys now = L.cancelAt (row.fromRow.stepKey :: keys) now := by
  refine Ledger.ext rfl rfl rfl ?_
  funext k
  simp only [Ledger.cancelAt]
  by_cases hks : k = row.fromRow.stepKey
  · subst hks
    simp [hrow, ha, cancelRow]
  · simp [hks]

theorem cancelSteps_spec {now : TimePoint} {rows : List WorkflowStepExecutionRow} {u : Unit}
    (hr : Returns env (Orchestrator.cancelSteps now rows) tx u tx') (h : Holds tx.view L)
    (hrows : ∀ row ∈ rows, InPlace L row)
    (hkeys : (rows.map fun row => row.fromRow.stepKey).Nodup) :
    Holds tx'.view (L.cancelAt (rows.map fun row => row.fromRow.stepKey) now) := by
  induction rows generalizing tx L with
  | nil =>
    obtain ⟨-, rfl⟩ := returns_pure.mp hr
    rw [List.map_nil, cancelAt_nil]
    exact h
  | cons row rows ih =>
    obtain ⟨hk, hkeys⟩ := List.nodup_cons.mp (by simpa only [List.map_cons] using hkeys)
    have hin := hrows row (by simp)
    simp only [Orchestrator.cancelSteps] at hr
    split_ifs at hr with ha
    · simp only [returns_bind, returns_putStep] at hr
      obtain ⟨-, _, rfl, hr⟩ := hr
      have h₁ := h.putStep (row.fromRow.canceledAt now) hin.plain
      rw [List.map_cons, ← cancelAt_cons_active hin.stepRow ha hk]
      refine ih hr h₁ ?_ hkeys
      intro row' hrow'
      have hin' := hrows row' (by simp [hrow'])
      refine ⟨?_, hin'.plain⟩
      rw [setStep_stepRow, if_neg, hin'.stepRow]
      intro hsame
      exact hk (List.mem_map.mpr ⟨row', hrow', hsame⟩)
    · rw [List.map_cons, ← cancelAt_cons_inactive hin.stepRow ha]
      exact ih hr h (fun row' hrow' => hrows row' (by simp [hrow'])) hkeys

theorem cancelAt_query (h : Holds db L) (env : Environment) (id : String) (now : TimePoint) :
    L.cancelAt ((env.arrange .steps (stepsByExecutionQuery id)
      (E.select db .steps (stepsByExecutionQuery id))).map fun row => row.fromRow.stepKey) now =
      L.cancelSteps id now := by
  refine Ledger.ext rfl rfl rfl ?_
  funext k
  simp only [Ledger.cancelAt, Ledger.cancelSteps]
  cases hs : L.stepRow k with
  | none => simp
  | some row₀ =>
    have hk : (k ∈ (env.arrange .steps (stepsByExecutionQuery id)
        (E.select db .steps (stepsByExecutionQuery id))).map fun row => row.fromRow.stepKey) ↔
        k.workflowExecutionId = id := by
      constructor
      · intro hk
        obtain ⟨row, hrow, rfl⟩ := List.mem_map.mp hk
        exact stepsByExecutionQuery_holds.mp (mem_arrange.mp hrow).2
      · intro hk
        rw [← h.view_eq] at hs
        obtain ⟨hrow, hkey⟩ := view_stepRow.mp hs
        have hown : row₀.key = k.text := E.key_of_get _ _ _ _ hrow
        refine List.mem_map.mpr ⟨row₀, mem_arrange.mpr ⟨hown ▸ hrow, ?_⟩, hkey⟩
        rw [stepsByExecutionQuery_holds, ← hk, ← hkey]
        rfl
    simp only [hk]

theorem cancelWorkflow_refines {id : String} {r : WorkflowExecution} (h : Holds tx.view L)
    (hr : Returns env (cancelWorkflow id) tx r tx') :
    ∃ L', Transition L (.canceled id) L' ∧ Holds tx'.view L' := by
  obtain ⟨row, tx₁, tx₂, hrow, hrunning, hview, hcancel, rfl, hview'⟩ := cancelWorkflow_cases hr
  obtain ⟨he, hid, hp⟩ := h.encoded.execution hrow
  rw [h.view_eq] at he
  have hin : ∀ row ∈ env.arrange .steps (stepsByExecutionQuery id)
      (E.select tx.view .steps (stepsByExecutionQuery id)), InPlace L row :=
    fun row hrow => h.inPlace (mem_arrange.mp hrow).1
  have h₂ := cancelSteps_spec hcancel (h.of_eq hview) hin (nodup_stepKeys h.encoded _)
  rw [cancelAt_query h env id] at h₂
  subst hid
  exact ⟨_, .cancel he hrunning, (h₂.putExecution (row.fromRow.canceledAt _) hp).of_eq hview'⟩

structure Claims (L : Ledger) (workerId : String) (now : TimePoint)
    (new : List WorkflowStepExecution) (L' : Ledger) : Prop where
  run : Systems.Run Transition L (new.map fun s => .claimed s now) L'
  owner : ∀ s ∈ new, s.workerId = some workerId

theorem Claims.nil (L : Ledger) (workerId : String) (now : TimePoint) :
    Claims L workerId now [] L :=
  ⟨.nil, by simp⟩

theorem Claims.cons {L₁ L₂ : Ledger} {workerId : String} {now : TimePoint}
    {s : WorkflowStepExecution} {new : List WorkflowStepExecution}
    (h : Transition L (.claimed s now) L₁) (hs : s.workerId = some workerId)
    (hnew : Claims L₁ workerId now new L₂) : Claims L workerId now (s :: new) L₂ := by
  refine ⟨hnew.run.cons h, ?_⟩
  intro t ht
  rcases List.mem_cons.mp ht with rfl | ht
  · exact hs
  · exact hnew.owner t ht

theorem claimStep_cases {d : WorkflowDefinition} {workerId : String} {now : TimePoint}
    {claimed claimed' : List WorkflowStepExecution} {found : Option WorkflowStepExecutionRow}
    (hr : Returns env (claimStep d workerId now claimed found) tx claimed' tx') :
    (claimed' = claimed ∧ tx' = tx ∧
      ∀ row, found = some row → isClaimable row.fromRow now = false) ∨
    ∃ row lease, found = some row ∧ isClaimable row.fromRow now = true ∧
      d.lease row.fromRow.stepName = .ok lease ∧
      claimed' = claimed ++ [row.fromRow.claimedBy workerId now (now.addSeconds lease)] ∧
      tx' = tx.stage .steps (row.fromRow.claimedBy workerId now (now.addSeconds lease)).toRow := by
  cases found with
  | none =>
    obtain ⟨rfl, rfl⟩ := returns_pure.mp hr
    exact .inl ⟨rfl, rfl, nofun⟩
  | some row =>
    simp only [claimStep] at hr
    split_ifs at hr with hc
    · simp only [returns_bind, returns_lift, returns_putStep, returns_pure] at hr
      obtain ⟨step, _, ⟨hf, rfl⟩, lease, _, ⟨hl, rfl⟩, -, _, rfl, rfl, rfl⟩ := hr
      exact .inr ⟨row, lease, rfl, hc, WorkflowDefinition.lease_eq hf hl, rfl, rfl⟩
    · obtain ⟨rfl, rfl⟩ := returns_pure.mp hr
      refine .inl ⟨rfl, rfl, ?_⟩
      intro _ h
      cases h
      exact Bool.eq_false_of_not_eq_true hc

theorem claimSteps_spec {d : WorkflowDefinition} {workerId : String} {now : TimePoint}
    {maxResults : ℕ} {candidates claimed claimed' : List WorkflowStepExecution}
    (hr : Returns env (claimSteps d workerId now maxResults claimed candidates) tx claimed' tx')
    (h : Holds tx.view L)
    (hd : ∀ c ∈ candidates, ∀ row, E.get tx.view .steps c.stepKey.text = some row →
      L.definition row.fromRow.versionKey = some d) :
    ∃ new L', claimed' = claimed ++ new ∧ Claims L workerId now new L' ∧ Holds tx'.view L' := by
  induction candidates generalizing tx L claimed with
  | nil =>
    simp only [claimSteps] at hr
    obtain ⟨rfl, rfl⟩ := returns_pure.mp hr
    exact ⟨[], L, by simp, Claims.nil .., h⟩
  | cons c candidates ih =>
    simp only [claimSteps] at hr
    split_ifs at hr with hfull
    · obtain ⟨rfl, rfl⟩ := returns_pure.mp hr
      exact ⟨[], L, by simp, Claims.nil .., h⟩
    · simp only [returns_bind, returns_getStep] at hr
      obtain ⟨_, _, ⟨rfl, rfl⟩, claimed₁, tx₁, hstep, hr⟩ := hr
      have h₀ : Holds (tx.noteKey .steps c.stepKey.text).view L := h.of_eq (Tx.noteKey_view ..)
      have hd₀ := hd
      rw [← Tx.noteKey_view tx .steps c.stepKey.text] at hd₀
      rcases claimStep_cases hstep with ⟨rfl, rfl, -⟩ | ⟨row, lease, hrow, hc, hlease, rfl, rfl⟩
      · exact ih hr h₀ fun c' hc' => hd₀ c' (by simp [hc'])
      · have hown : row.key = c.stepKey.text := E.key_of_get _ _ _ _ hrow
        have hin : InPlace L row := h.inPlace (hown ▸ hrow)
        have htrans : Transition L
            (.claimed (row.fromRow.claimedBy workerId now (now.addSeconds lease)) now) _ :=
          .claim hin.step hc (hd c (by simp) row hrow) hlease
        have hd₁ : ∀ c' ∈ candidates, ∀ row', E.get
            (E.put (tx.noteKey .steps c.stepKey.text).view .steps
              (row.fromRow.claimedBy workerId now (now.addSeconds lease)).toRow) .steps
            c'.stepKey.text = some row' → L.definition row'.fromRow.versionKey = some d := by
          intro c' hc' row' hrow'
          rw [E.get_put] at hrow'
          split_ifs at hrow' with hk
          · obtain rfl := Option.some_inj.mp hrow'
            rw [WorkflowStepExecution.fromRow_toRow]
            exact hd c (by simp) row hrow
          · exact hd₀ c' (by simp [hc']) row' hrow'
        obtain ⟨new, L', rfl, hnew, h'⟩ := ih hr (h₀.putStep _ hin.plain) hd₁
        exact ⟨_ :: new, L', by simp, Claims.cons htrans rfl hnew, h'⟩

/-- The Pending rows of a version and then the Running ones, as they arrive. -/
def candidateRows (env : Environment) (db : E.Db) (name : String) (version : Int32) :
    List WorkflowStepExecutionRow :=
  env.arrange .steps (stepQuery name version .pending)
      (E.select db .steps (stepQuery name version .pending)) ++
    env.arrange .steps (stepQuery name version .running)
      (E.select db .steps (stepQuery name version .running))

def candidatesIn (env : Environment) (db : E.Db) (name : String) (version : Int32) :
    List WorkflowStepExecution :=
  sortCandidates ((candidateRows env db name version).map WorkflowStepExecutionRow.fromRow)

theorem candidate_version (enc : Encoded db) {name : String} {version : Int32}
    {c : WorkflowStepExecution}
    (hc : c ∈ candidatesIn env db name version)
    {row : WorkflowStepExecutionRow} (hrow : E.get db .steps c.stepKey.text = some row) :
    row.fromRow.versionKey = (name, version) := by
  rw [candidatesIn, candidateRows, sortCandidates, List.mem_insertionSort] at hc
  obtain ⟨row₀, hmem, rfl⟩ := List.mem_map.mp hc
  have hquery : E.get db .steps row₀.key = some row₀ ∧ row₀.workflowName = name ∧
      row₀.workflowVersion = version.toInt64 := by
    rcases List.mem_append.mp hmem with hmem | hmem
    · obtain ⟨hget, hq⟩ := mem_arrange.mp hmem
      obtain ⟨hn, hv, -⟩ := stepQuery_holds.mp hq
      exact ⟨hget, hn, hv⟩
    · obtain ⟨hget, hq⟩ := mem_arrange.mp hmem
      obtain ⟨hn, hv, -⟩ := stepQuery_holds.mp hq
      exact ⟨hget, hn, hv⟩
  obtain ⟨hget, hn, hv⟩ := hquery
  rw [← (enc.step_row hget).2.2, hget] at hrow
  obtain rfl := Option.some_inj.mp hrow
  simp [WorkflowStepExecution.versionKey, WorkflowStepExecutionRow.fromRow, hn, hv]

theorem candidate_row (keyed : Keyed db) {name : String} {version : Int32}
    {c : WorkflowStepExecution}
    (hc : c ∈ candidatesIn env db name version) :
    ∃ row : WorkflowStepExecutionRow, row.fromRow = c ∧
      E.get db .steps c.stepKey.text = some row := by
  rw [candidatesIn, candidateRows, sortCandidates, List.mem_insertionSort] at hc
  obtain ⟨row, hmem, rfl⟩ := List.mem_map.mp hc
  have hget : E.get db .steps row.key = some row := by
    rcases List.mem_append.mp hmem with hmem | hmem
    · exact (mem_arrange.mp hmem).1
    · exact (mem_arrange.mp hmem).1
  exact ⟨row, rfl, keyed row hget ▸ hget⟩

theorem mem_candidates (h : Holds db L) {name : String} {version : Int32}
    {s : WorkflowStepExecution} (hs : L.step s.stepKey = some s)
    (hversion : s.versionKey = (name, version)) (ha : s.status.Active) :
    s ∈ candidatesIn env db name version := by
  rw [candidatesIn, candidateRows, sortCandidates, List.mem_insertionSort, List.mem_map]
  rw [← h.view_eq] at hs
  obtain ⟨row, hrow, hfrom, -⟩ := view_step.mp hs
  have hown : row.key = s.stepKey.text := E.key_of_get _ _ _ _ hrow
  obtain ⟨s₀, rfl, -⟩ := h.encoded.steps _ _ hrow
  rw [WorkflowStepExecution.fromRow_toRow] at hfrom
  subst hfrom
  obtain ⟨hname, hver⟩ := Prod.mk.inj hversion
  refine ⟨s₀.toRow, ?_, s₀.fromRow_toRow⟩
  rw [List.mem_append, mem_arrange, mem_arrange, stepQuery_holds, stepQuery_holds, hown]
  rcases ha with ha | ha
  · exact .inl ⟨hrow, hname, congrArg Int32.toInt64 hver, congrArg StepExecutionStatus.toString ha⟩
  · exact .inr ⟨hrow, hname, congrArg Int32.toInt64 hver, congrArg StepExecutionStatus.toString ha⟩

theorem claimSteps_extends {d : WorkflowDefinition} {workerId : String} {now : TimePoint}
    {maxResults : ℕ} {candidates claimed claimed' : List WorkflowStepExecution}
    (hr : Returns env (claimSteps d workerId now maxResults claimed candidates) tx claimed' tx') :
    ∃ new, claimed' = claimed ++ new := by
  induction candidates generalizing tx claimed with
  | nil =>
    simp only [claimSteps] at hr
    exact ⟨[], by simp [(returns_pure.mp hr).1]⟩
  | cons c candidates ih =>
    simp only [claimSteps] at hr
    split_ifs at hr with hfull
    · exact ⟨[], by simp [(returns_pure.mp hr).1]⟩
    · simp only [returns_bind] at hr
      obtain ⟨_, _, -, claimed₁, tx₁, hstep, hr⟩ := hr
      obtain ⟨new, rfl⟩ := ih hr
      rcases claimStep_cases hstep with ⟨rfl, -, -⟩ | ⟨row, lease, -, -, -, rfl, -⟩
      · exact ⟨new, rfl⟩
      · exact ⟨[row.fromRow.claimedBy workerId now (now.addSeconds lease)] ++ new,
          List.append_assoc _ _ _⟩

theorem claimSteps_complete {d : WorkflowDefinition} {workerId : String} {now : TimePoint}
    {maxResults : ℕ} {candidates claimed claimed' : List WorkflowStepExecution}
    (hr : Returns env (claimSteps d workerId now maxResults claimed candidates) tx claimed' tx')
    (hkeys : (candidates.map fun c => c.stepKey.text).Nodup)
    (hrows : ∀ c ∈ candidates, ∃ row : WorkflowStepExecutionRow,
      E.get tx.view .steps c.stepKey.text = some row ∧ row.fromRow = c)
    (room : claimed'.length < maxResults) :
    ∀ c ∈ candidates, isClaimable c now = true → ∃ s ∈ claimed', s.stepKey = c.stepKey := by
  induction candidates generalizing tx claimed with
  | nil => simp
  | cons c candidates ih =>
    obtain ⟨hk, hkeys⟩ := List.nodup_cons.mp (by simpa only [List.map_cons] using hkeys)
    obtain ⟨new, hnew⟩ := claimSteps_extends hr
    have hfull : ¬ maxResults ≤ claimed.length := by
      rw [hnew, List.length_append] at room
      omega
    simp only [claimSteps, if_neg hfull, returns_bind, returns_getStep] at hr
    obtain ⟨_, _, ⟨rfl, rfl⟩, claimed₁, tx₁, hstep, hr⟩ := hr
    obtain ⟨row, hrow, hc⟩ := hrows c (by simp)
    have hrest : ∀ c' ∈ candidates, ∃ row : WorkflowStepExecutionRow,
        E.get (tx.noteKey .steps c.stepKey.text).view .steps c'.stepKey.text = some row ∧
          row.fromRow = c' := by
      rw [Tx.noteKey_view]
      exact fun c' hc' => hrows c' (by simp [hc'])
    rcases claimStep_cases hstep with ⟨rfl, rfl, hnot⟩ | ⟨row', lease, hrow', hcl, -, rfl, rfl⟩
    · intro c' hc' hclaimable
      rcases List.mem_cons.mp hc' with rfl | hc'
      · have := hnot row hrow
        rw [hc, hclaimable] at this
        cases this
      · exact ih hr hkeys hrest c' hc' hclaimable
    · have hsame : row' = row := by
        have hrow'' : E.get tx.view .steps c.stepKey.text = some row' := hrow'
        rw [hrow] at hrow''
        exact (Option.some_inj.mp hrow'').symm
      subst hsame
      intro c' hc' hclaimable
      rcases List.mem_cons.mp hc' with rfl | hc'
      · obtain ⟨new', hnew'⟩ := claimSteps_extends hr
        refine ⟨row'.fromRow.claimedBy workerId now (now.addSeconds lease), ?_, ?_⟩
        · rw [hnew']
          exact List.mem_append_left _ (List.mem_append_right _ (List.mem_singleton_self _))
        · rw [WorkflowStepExecution.claimedBy_stepKey, hc]
      · refine ih hr hkeys ?_ c' hc' hclaimable
        intro c₁ hc₁
        obtain ⟨row₁, hrow₁, hc₁'⟩ := hrest c₁ hc₁
        refine ⟨row₁, ?_, hc₁'⟩
        rw [Tx.stage_view, E.get_put, if_neg]
        · exact hrow₁
        intro he
        refine hk (List.mem_map.mpr ⟨c₁, hc₁, he.trans ?_⟩)
        change (row'.fromRow.claimedBy workerId now (now.addSeconds lease)).toRow.key = _
        rw [WorkflowStepExecution.key_toRow_text, WorkflowStepExecution.claimedBy_stepKey, hc]

theorem candidates_nodup (keyed : Keyed db) (env : Environment) (name : String) (version : Int32) :
    ((candidatesIn env db name version).map fun c => c.stepKey.text).Nodup := by
  have hget : ∀ row ∈ candidateRows env db name version, E.get db .steps row.key = some row := by
    intro row hrow
    rcases List.mem_append.mp hrow with hrow | hrow
    · exact (mem_arrange.mp hrow).1
    · exact (mem_arrange.mp hrow).1
  have hperm := (List.perm_insertionSort (fun a b => claimsBefore b a = false)
    ((candidateRows env db name version).map WorkflowStepExecutionRow.fromRow)).map
      fun c => c.stepKey.text
  refine hperm.nodup_iff.mpr ?_
  rw [List.map_map]
  refine List.Nodup.map_on ?_ ?_
  · intro row hrow row' hrow' hkey
    have h := hget row hrow
    have h' := hget row' hrow'
    rw [keyed row h] at h
    rw [keyed row' h'] at h'
    dsimp only [Function.comp_apply] at hkey
    rw [hkey, h'] at h
    exact (Option.some_inj.mp h).symm
  · refine List.Nodup.append (nodup_arrange env db _) (nodup_arrange env db _) ?_
    intro row hrow hrow'
    have hp := (stepQuery_holds.mp (mem_arrange.mp hrow).2).2.2
    have hr := (stepQuery_holds.mp (mem_arrange.mp hrow').2).2.2
    rw [hp] at hr
    exact absurd hr (by decide)

theorem pollAndClaimWorkflowSteps_refines {name : String} {version : Int32} {workerId : String}
    {maxResults : ℕ} {claimed : List WorkflowStepExecution} (h : Holds tx.view L)
    (hr : Returns env (pollAndClaimWorkflowSteps name version workerId maxResults) tx claimed tx') :
    ∃ L', Claims L workerId (env.answer tx.ticks .clock) claimed L' ∧ Holds tx'.view L' ∧
      (claimed.length < maxResults → ∀ s, L.step s.stepKey = some s →
        s.versionKey = (name, version) → isClaimable s (env.answer tx.ticks .clock) = true →
        ∃ t ∈ claimed, t.stepKey = s.stepKey) := by
  obtain ⟨-, row, tx₁, hrow, -, hview, -, hclaim⟩ := pollAndClaimWorkflowSteps_cases hr
  have hd : L.definition (name, version) = some row.fromRow := by
    rw [← h.view_eq]
    exact Encoded.definition (k := (name, version)) hrow
  obtain ⟨new, L', rfl, hnew, h'⟩ := claimSteps_spec hclaim (h.of_eq hview) fun c hc row' hrow' => by
    rw [hview] at hrow'
    rw [candidate_version h.encoded hc hrow', hd]
  refine ⟨L', by simpa only [List.nil_append] using hnew, h', ?_⟩
  intro room s hs hversion hclaimable
  refine claimSteps_complete hclaim (candidates_nodup h.encoded.keyed env name version) ?_ room s ?_
    hclaimable
  · intro c hc
    obtain ⟨row', hrow', hget⟩ := candidate_row h.encoded.keyed hc
    rw [hview]
    exact ⟨row', hget, hrow'⟩
  · exact mem_candidates h hs hversion (active_of_isClaimable hclaimable)

def Due (L : Ledger) (s : WorkflowStepExecution) (now : TimePoint) : Prop :=
  ∃ e d, L.Expired e s now ∧ L.definition e.versionKey = some d

theorem Due.congr {L L' : Ledger} {s : WorkflowStepExecution} {now : TimePoint} (h : Due L s now)
    (inv : Lifecycle L) (same : SameAt L L' s.workflowExecutionId)
    (hdef : L'.definition = L.definition) : Due L' s now := by
  obtain ⟨e, d, he, hd⟩ := h
  have hid : s.workflowExecutionId = e.workflowExecutionId :=
    congrArg StepKey.workflowExecutionId (he.step_key inv)
  rw [hid] at same
  refine ⟨e, d, ⟨⟨?_, he.running, ?_⟩, he.claimed, he.lease⟩, ?_⟩
  · rw [same.execution, he.execution]
  · rw [same.step _ rfl, he.step]
  · rw [hdef, hd]

def SweepResult.record (result : SweepResult) : Event → SweepResult
  | .retried _ _ _ => { result with retriedCount := result.retriedCount + 1 }
  | .exhausted _ _ _ => { result with failedCount := result.failedCount + 1 }
  | _ => result

def SweepEvent (now : TimePoint) (key : StepKey) (ev : Event) : Prop :=
  ev = .retried key none now ∨ ev = .exhausted key none now

theorem SweepEvent.subject {now : TimePoint} {key : StepKey} {ev : Event}
    (h : SweepEvent now key ev) : ev.subject = some key.workflowExecutionId := by
  rcases h with rfl | rfl <;> rfl

theorem lease_of_leaseExpired {s : WorkflowStepExecution} {now : TimePoint} :
    leaseExpired s now = true ↔ ∃ deadline, s.leaseExpiresAt = some deadline ∧ deadline ≤ now := by
  unfold leaseExpired
  cases s.leaseExpiresAt <;> simp

theorem failExpiredStep_spec {now : TimePoint} {result result' : SweepResult}
    {s : WorkflowStepExecution} {e : WorkflowExecution} {d : WorkflowDefinition}
    (hr : Returns env (failExpiredStep now result s e d) tx result' tx') (h : Holds tx.view L)
    (expired : L.Expired e s now) (hkey : s.stepKey = e.currentKey)
    (hd : L.definition e.versionKey = some d) (hp : PlainId e.workflowExecutionId) :
    ∃ ev L', SweepEvent now s.stepKey ev ∧ Transition L ev L' ∧ Holds tx'.view L' ∧
      result' = result.record ev ∧ ∃ t, L'.step s.stepKey = some t ∧ t.status = .failed := by
  have hname : s.stepName = e.currentStepName := congrArg StepKey.stepName hkey
  have hps : PlainId s.workflowExecutionId := by
    rw [show s.workflowExecutionId = e.workflowExecutionId from
      congrArg StepKey.workflowExecutionId hkey]
    exact hp
  obtain ⟨step, _, hf, rfl, houtcome⟩ := failExpiredStep_cases hr
  rw [hname] at hf
  have hL₁ := h.putStep (s.failedFor "lease expired" now) hps
  rcases houtcome with ⟨hbudget, rfl, n, retry, hretry, rfl⟩ | ⟨hspent, rfl, rfl⟩
  · obtain rfl := hretry hname.symm
    refine ⟨_, _, .inl rfl, hkey ▸ .retry (.expired expired) hd hf hbudget,
      hL₁.enter (e := e.retried) hp rfl, rfl, (s.failedFor "lease expired" now).stored, ?_, rfl⟩
    have hne : s.stepKey ≠ (e.retried.pendingStep s.input (env.answer n .clock) none).stepKey :=
      hkey ▸ e.currentKey_retried_ne.symm
    rw [setStep_step, if_neg hne, setExecution_step, setStep_step]
    exact if_pos rfl
  · refine ⟨_, _, .inr rfl, hkey ▸ .exhaust (.expired expired) hd hf hspent,
      hL₁.putExecution (e.failedFor "lease expired" now) hp, rfl,
      (s.failedFor "lease expired" now).stored, ?_, rfl⟩
    rw [setExecution_step, setStep_step]
    exact if_pos rfl

namespace Orchestrator

def lapsed (db : E.Db) (now : TimePoint) (row : WorkflowStepExecutionRow) :
    Option (WorkflowExecution × WorkflowDefinition) :=
  if leaseExpired row.fromRow now = false then none
  else
    match E.get db .executions row.workflowExecutionId with
    | none => none
    | some execution =>
      if execution.fromRow.status ≠ .running then none
      else if execution.fromRow.currentStepName ≠ row.fromRow.stepName ∨
          execution.fromRow.currentStepAttempt ≠ row.fromRow.attempt then none
      else
        (E.get db .definitions (definitionKey execution.fromRow.workflowName
          execution.fromRow.workflowVersion)).map fun definition =>
            (execution.fromRow, definition.fromRow)

theorem lapsed_eq_some {db : E.Db} {now : TimePoint} {row : WorkflowStepExecutionRow}
    {e : WorkflowExecution} {d : WorkflowDefinition} : lapsed db now row = some (e, d) ↔
      leaseExpired row.fromRow now = true ∧
      (∃ found, E.get db .executions row.workflowExecutionId = some found ∧ found.fromRow = e) ∧
      e.status = .running ∧ e.currentStepName = row.stepName ∧
      e.currentStepAttempt = row.fromRow.attempt ∧
      ∃ found, E.get db .definitions (definitionKey e.workflowName e.workflowVersion) =
        some found ∧ found.fromRow = d := by
  unfold lapsed
  cases leaseExpired row.fromRow now with
  | false => simp
  | true =>
    cases E.get db .executions row.workflowExecutionId with
    | none => simp
    | some found =>
      simp only [Bool.true_eq_false, if_false, Option.some_inj, exists_eq_left', true_and]
      split_ifs with hstatus hcur
      · rw [false_iff]
        intro h
        obtain ⟨rfl, hrun, -⟩ := h
        exact hstatus hrun
      · rw [false_iff]
        intro h
        obtain ⟨rfl, -, hname, hattempt, -⟩ := h
        exact hcur.elim (fun h => h hname) fun h => h hattempt
      · rw [not_or, not_not, not_not] at hcur
        rw [not_not] at hstatus
        simp only [Option.map_eq_some_iff, Prod.mk.injEq]
        constructor
        · intro h
          obtain ⟨definition, hdef, rfl, rfl⟩ := h
          exact ⟨rfl, hstatus, hcur.1, hcur.2, definition, hdef, rfl⟩
        · intro h
          obtain ⟨rfl, -, -, -, definition, hdef, rfl⟩ := h
          exact ⟨definition, hdef, rfl, rfl⟩

theorem sweepStep_exec (env : Environment) (tx : Tx E) (now : TimePoint) (result : SweepResult)
    (row : WorkflowStepExecutionRow) : ∃ tx₁ : Tx E, tx₁.view = tx.view ∧ tx₁.writes = tx.writes ∧
    tx₁.ticks = tx.ticks ∧
    exec env (sweepStep now result row) tx = match lapsed tx.view now row with
      | none => (.ok result, tx₁)
      | some (e, d) => exec env (failExpiredStep now result row.fromRow e d) tx₁ := by
  unfold sweepStep lapsed
  by_cases hexp : leaseExpired row.fromRow now = false
  · rw [if_pos hexp, if_pos hexp]
    exact ⟨tx, rfl, rfl, rfl, rfl⟩
  rw [if_neg hexp, if_neg hexp]
  set tx₁ := tx.noteKey .executions row.workflowExecutionId with htx₁
  have hview : tx₁.view = tx.view := Tx.noteKey_view ..
  have hwrites : tx₁.writes = tx.writes := Tx.noteKey_writes ..
  have hticks : tx₁.ticks = tx.ticks := Tx.noteKey_ticks ..
  change ∃ tx₂ : Tx E, _ ∧ _ ∧ _ ∧ exec env (match E.get tx.view .executions row.workflowExecutionId with
    | none => _
    | some execution => _) tx₁ = _
  cases hexec : E.get tx.view .executions row.workflowExecutionId with
  | none => exact ⟨tx₁, hview, hwrites, hticks, rfl⟩
  | some found =>
    dsimp only
    by_cases hstatus : found.fromRow.status ≠ .running
    · rw [if_pos hstatus, if_pos hstatus]
      exact ⟨tx₁, hview, hwrites, hticks, rfl⟩
    rw [if_neg hstatus, if_neg hstatus]
    by_cases hcur : found.fromRow.currentStepName ≠ row.fromRow.stepName ∨
        found.fromRow.currentStepAttempt ≠ row.fromRow.attempt
    · rw [if_pos hcur, if_pos hcur]
      exact ⟨tx₁, hview, hwrites, hticks, rfl⟩
    rw [if_neg hcur, if_neg hcur]
    refine ⟨tx₁.noteKey .definitions
      (definitionKey found.fromRow.workflowName found.fromRow.workflowVersion),
      (Tx.noteKey_view ..).trans hview, (Tx.noteKey_writes ..).trans hwrites,
      (Tx.noteKey_ticks ..).trans hticks, ?_⟩
    rw [← hview]
    change exec env (match E.get tx₁.view .definitions
        (definitionKey found.fromRow.workflowName found.fromRow.workflowVersion) with
      | none => _
      | some definition => _) _ = _
    cases E.get tx₁.view .definitions
        (definitionKey found.fromRow.workflowName found.fromRow.workflowVersion) with
    | none => rfl
    | some definition => rfl

def runningRows (env : Environment) (db : E.Db) : List WorkflowStepExecutionRow :=
  env.arrange .steps expiredRunningStepsQuery (E.select db .steps expiredRunningStepsQuery)

def lapsedRows (env : Environment) (db : E.Db) (now : TimePoint) : List WorkflowStepExecutionRow :=
  (runningRows env db).filter fun row => (lapsed db now row).isSome

end Orchestrator

theorem lapsed_iff_expired {now : TimePoint} {row : WorkflowStepExecutionRow}
    {e : WorkflowExecution} {d : WorkflowDefinition} (h : Holds db L) (inv : Lifecycle L)
    (hin : InPlace L row) (hrun : row.fromRow.status = .running) :
    lapsed db now row = some (e, d) ↔
      L.Expired e row.fromRow now ∧ L.definition e.versionKey = some d := by
  rw [lapsed_eq_some, lease_of_leaseExpired]
  constructor
  · intro h
    obtain ⟨hlease, ⟨found, hfound, rfl⟩, hstatus, hname, hattempt, found', hdef, rfl⟩ := h
    obtain ⟨hex, hid, -⟩ := h.encoded.execution hfound
    rw [h.view_eq] at hex
    have hkey : row.fromRow.stepKey = found.fromRow.currentKey := by
      simp only [WorkflowStepExecution.stepKey, WorkflowExecution.currentKey, hid, hname, hattempt]
      rfl
    refine ⟨⟨⟨hid ▸ hex, hstatus, hkey ▸ hin.step⟩, hrun, hlease⟩, ?_⟩
    rw [← h.view_eq]
    exact Encoded.definition (k := found.fromRow.versionKey) hdef
  · intro h
    obtain ⟨he, hd⟩ := h
    have hk := he.step_key inv
    have hid : row.workflowExecutionId = e.workflowExecutionId :=
      congrArg StepKey.workflowExecutionId hk
    have hex := he.execution
    rw [← h.view_eq] at hex hd
    refine ⟨he.lease, hid ▸ view_execution.mp hex, he.running, (congrArg StepKey.stepName hk).symm,
      (congrArg StepKey.attempt hk).symm, ?_⟩
    exact Option.map_eq_some_iff.mp hd

theorem sweepStep_spec {now : TimePoint} {result result' : SweepResult}
    {row : WorkflowStepExecutionRow} (hr : Returns env (sweepStep now result row) tx result' tx')
    (h : Holds tx.view L) (inv : Lifecycle L) (hin : InPlace L row)
    (hrun : row.fromRow.status = .running) :
    (result' = result ∧ tx'.view = tx.view ∧ ¬ Due L row.fromRow now) ∨
      ∃ ev L', SweepEvent now row.fromRow.stepKey ev ∧ Transition L ev L' ∧ Holds tx'.view L' ∧
        result' = result.record ev ∧
        ∃ t, L'.step row.fromRow.stepKey = some t ∧ t.status = .failed := by
  obtain ⟨tx₁, hview, -, -, hexec⟩ := sweepStep_exec env tx now result row
  rw [Returns, hexec] at hr
  cases hl : lapsed tx.view now row with
  | none =>
    rw [hl] at hr
    obtain ⟨hresult, rfl⟩ := Prod.mk.inj hr
    refine .inl ⟨(Except.ok.inj hresult).symm, hview, ?_⟩
    intro h
    obtain ⟨e, d, hdue⟩ := h
    rw [(lapsed_iff_expired h inv hin hrun).mpr hdue] at hl
    cases hl
  | some found =>
    obtain ⟨e, d⟩ := found
    rw [hl] at hr
    obtain ⟨expired, hd⟩ := (lapsed_iff_expired h inv hin hrun).mp hl
    have hkey := expired.step_key inv
    have hid : e.workflowExecutionId = row.fromRow.workflowExecutionId :=
      (congrArg StepKey.workflowExecutionId hkey).symm
    exact .inr (failExpiredStep_spec hr (h.of_eq hview) expired hkey hd (hid ▸ hin.plain))

structure Unswept (L : Ledger) (row : WorkflowStepExecutionRow) : Prop extends InPlace L row where
  running : row.fromRow.status = .running

theorem sweepSteps_spec {now : TimePoint} {result result' : SweepResult}
    {rows : List WorkflowStepExecutionRow}
    (hr : Returns env (sweepSteps now result rows) tx result' tx') (h : Holds tx.view L)
    (inv : Lifecycle L) (hrows : ∀ row ∈ rows, Unswept L row)
    (hids : (rows.map fun row => row.fromRow.workflowExecutionId).Nodup) :
    ∃ evs L', (∀ ev ∈ evs, ∃ row ∈ rows, SweepEvent now row.fromRow.stepKey ev) ∧
      Systems.Run Transition L evs L' ∧ Holds tx'.view L' ∧
      result' = evs.foldl SweepResult.record result ∧
      ∀ row ∈ rows, Due L row.fromRow now →
        ∃ t, L'.step row.fromRow.stepKey = some t ∧ t.status = .failed := by
  induction rows generalizing tx L result with
  | nil =>
    obtain ⟨rfl, rfl⟩ := returns_pure.mp hr
    exact ⟨[], L, by simp, .nil, h, rfl, by simp⟩
  | cons row rows ih =>
    obtain ⟨hid, hids⟩ := List.nodup_cons.mp (by simpa only [List.map_cons] using hids)
    have hrow := hrows row (by simp)
    have hrest : ∀ row' ∈ rows, Unswept L row' := fun row' hrow' => hrows row' (by simp [hrow'])
    simp only [sweepSteps, returns_bind] at hr
    obtain ⟨result₁, tx₁, hstep, hr⟩ := hr
    rcases sweepStep_spec hstep h inv hrow.toInPlace hrow.running with
      ⟨rfl, hv, hnot⟩ | ⟨ev, L₁, hev, htrans, h₁, rfl, hfailed⟩
    · obtain ⟨evs, L', hevs, hrun, h', hresult, hdone⟩ := ih hr (h.of_eq hv) inv hrest hids
      refine ⟨evs, L', ?_, hrun, h', hresult, ?_⟩
      · intro ev hev
        obtain ⟨row', hrow', hev'⟩ := hevs ev hev
        exact ⟨row', by simp [hrow'], hev'⟩
      · intro row' hrow' hdue
        rcases List.mem_cons.mp hrow' with rfl | hrow'
        · exact absurd hdue hnot
        · exact hdone row' hrow' hdue
    · have hother : ∀ row' ∈ rows, SameAt L L₁ row'.fromRow.workflowExecutionId := by
        intro row' hrow'
        refine htrans.frame inv ?_
        rw [hev.subject]
        intro hsame
        exact hid (List.mem_map.mpr ⟨row', hrow', (Option.some_inj.mp hsame).symm⟩)
      have hrest₁ : ∀ row' ∈ rows, Unswept L₁ row' := by
        intro row' hrow'
        have hu := hrest row' hrow'
        exact ⟨⟨((hother row' hrow').stepRow _ rfl).trans hu.stepRow, hu.plain⟩, hu.running⟩
      obtain ⟨evs, L', hevs, hrun, h', hresult, hdone⟩ :=
        ih hr h₁ (htrans.lifecycle inv) hrest₁ hids
      refine ⟨ev :: evs, L', ?_, hrun.cons htrans, h', hresult, ?_⟩
      · intro ev' hev'
        rcases List.mem_cons.mp hev' with rfl | hev'
        · exact ⟨row, by simp, hev⟩
        · obtain ⟨row', hrow', hev''⟩ := hevs ev' hev'
          exact ⟨row', by simp [hrow'], hev''⟩
      · intro row' hrow' hdue
        rcases List.mem_cons.mp hrow' with rfl | hrow'
        · obtain ⟨t, ht, hts⟩ := hfailed
          have same := frame_of_run hrun (htrans.lifecycle inv) fun ev' hev' => by
            obtain ⟨row', hrow', hev''⟩ := hevs ev' hev'
            rw [hev''.subject]
            exact fun he => hid (List.mem_map.mpr ⟨row', hrow', Option.some_inj.mp he⟩)
          exact ⟨t, (same.step _ rfl).trans ht, hts⟩
        · exact hdone row' hrow' (hdue.congr inv (hother row' hrow')
            (htrans.definition fun d => by rcases hev with rfl | rfl <;> nofun))

theorem sweepExpiredLeases_refines {result : SweepResult} (h : Holds tx.view L)
    (inv : Lifecycle L) (hr : Returns env sweepExpiredLeases tx result tx') :
    ∃ evs L', (∀ ev ∈ evs, ∃ key, SweepEvent (env.answer tx.ticks .clock) key ev) ∧
      Systems.Run Transition L evs L' ∧ Holds tx'.view L' ∧
      result = evs.foldl SweepResult.record {} ∧
      ∀ s, L.step s.stepKey = some s → Due L s (env.answer tx.ticks .clock) →
        ∃ t, L'.step s.stepKey = some t ∧ t.status = .failed := by
  simp only [sweepExpiredLeases, returns_bind, returns_nowForStorage, returns_querySteps] at hr
  obtain ⟨now, _, ⟨rfl, rfl⟩, rows, _, ⟨rfl, rfl⟩, hr⟩ := hr
  have hrows : ∀ row ∈ env.arrange .steps expiredRunningStepsQuery
      (E.select tx.view .steps expiredRunningStepsQuery), Unswept L row := by
    intro row hrow
    obtain ⟨hget, hq⟩ := mem_arrange.mp hrow
    refine ⟨h.inPlace hget, ?_⟩
    rw [expiredRunningStepsQuery_holds] at hq
    simp only [WorkflowStepExecutionRow.fromRow, hq, StepExecutionStatus.fromString_toString]
  have hids : ((env.arrange .steps expiredRunningStepsQuery (E.select tx.view .steps
      expiredRunningStepsQuery)).map fun row => row.fromRow.workflowExecutionId).Nodup := by
    refine List.Nodup.map_on ?_ (nodup_arrange env tx.view _)
    intro row hrow row' hrow' hid
    have hu := hrows row hrow
    have hu' := hrows row' hrow'
    obtain ⟨e, he, hk, -, -⟩ := inv.current_of_active hu.step (.inr hu.running)
    obtain ⟨e', he', hk', -, -⟩ := inv.current_of_active hu'.step (.inr hu'.running)
    have hide : e.workflowExecutionId = e'.workflowExecutionId :=
      (congrArg StepKey.workflowExecutionId hk).trans
        (hid.trans (congrArg StepKey.workflowExecutionId hk').symm)
    have hee : e = e' := by
      have hexec := he.execution
      rw [hide, he'.execution] at hexec
      exact (Option.some_inj.mp hexec).symm
    have hkey : row.fromRow.stepKey = row'.fromRow.stepKey := by rw [← hk, ← hk', hee]
    exact List.inj_on_of_nodup_map (nodup_stepKeys h.encoded _) hrow hrow' hkey
  obtain ⟨evs, L', hevs, hrun, h', hresult, hdone⟩ := sweepSteps_spec hr h inv hrows hids
  refine ⟨evs, L', ?_, hrun, h', hresult, ?_⟩
  · intro ev hev
    obtain ⟨row, -, hrow⟩ := hevs ev hev
    exact ⟨_, hrow⟩
  · intro s hs hdue
    rw [← h.view_eq] at hs
    obtain ⟨row, hrow, rfl, -⟩ := view_step.mp hs
    have hown : row.key = row.fromRow.stepKey.text := E.key_of_get _ _ _ _ hrow
    refine hdone row (mem_arrange.mpr ⟨hown ▸ hrow, ?_⟩) hdue
    obtain ⟨e, d, he, -⟩ := hdue
    have hclaimed := he.claimed
    obtain ⟨s₀, rfl, -⟩ := h.encoded.steps _ row hrow
    rw [expiredRunningStepsQuery_holds]
    rw [WorkflowStepExecution.fromRow_toRow] at hclaimed
    exact congrArg StepExecutionStatus.toString hclaimed

end WorkflowEngine
