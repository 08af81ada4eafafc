import WorkflowEngine.Epoch

/-!
# What a poll hands out

The candidates of a poll are put in the order of their age, which no two rows
of a store share, so that the order in which the queries return them does not
matter. The loop claims the claimable ones among them, as many as asked for.
-/

namespace WorkflowEngine
open Txn Txn.Program Orchestrator
open Iso8601 (Exact yearTenThousand)

/-- No time comes before every time. -/
def noneFirst : Option TimePoint → WithBot ℤ
  | none => ⊥
  | some t => (t : ℤ)

theorem noneFirst_inj {a b : Option TimePoint} : noneFirst a = noneFirst b ↔ a = b := by
  cases a with
  | none =>
    cases b with
    | none => exact iff_of_true rfl rfl
    | some b => exact iff_of_false WithBot.bot_ne_coe nofun
  | some a =>
    cases b with
    | none => exact iff_of_false WithBot.coe_ne_bot nofun
    | some b => exact WithBot.coe_inj.trans Option.some_inj.symm

/-- The order in which steps are claimed. -/
def WorkflowStepExecution.age (s : WorkflowStepExecution) : WithBot ℤ ×ₗ String ×ₗ String ×ₗ ℤ :=
  toLex (noneFirst s.createdAt,
    toLex (s.workflowExecutionId, toLex (s.stepName, s.attempt.toInt)))

namespace Orchestrator

theorem optionalLess_iff {a b : Option TimePoint} :
    optionalLess a b = true ↔ noneFirst a < noneFirst b := by
  cases a with
  | none =>
    cases b with
    | none => exact iff_of_false nofun (lt_irrefl (⊥ : WithBot ℤ))
    | some b => exact iff_of_true rfl (WithBot.bot_lt_coe b)
  | some a =>
    cases b with
    | none => exact iff_of_false nofun not_lt_bot
    | some b =>
      rw [optionalLess, decide_eq_true_iff]
      exact WithBot.coe_lt_coe.symm

theorem claimsBefore_iff {s t : WorkflowStepExecution} :
    claimsBefore s t = true ↔ s.age < t.age := by
  simp only [claimsBefore, WorkflowStepExecution.age, Prod.Lex.toLex_lt_toLex]
  by_cases hcreated : s.createdAt = t.createdAt
  · rw [if_neg (not_not.mpr hcreated), hcreated]
    simp only [lt_irrefl, false_or, true_and]
    by_cases hid : s.workflowExecutionId = t.workflowExecutionId
    · rw [if_neg (not_not.mpr hid), hid]
      simp only [lt_irrefl, false_or, true_and]
      by_cases hname : s.stepName = t.stepName
      · rw [if_neg (not_not.mpr hname), hname]
        simp only [lt_irrefl, false_or, true_and, decide_eq_true_iff]
        exact Int32.lt_iff_toInt_lt
      · rw [if_pos hname]
        simp only [hname, false_and, or_false, decide_eq_true_iff]
    · rw [if_pos hid]
      simp only [hid, false_and, or_false, decide_eq_true_iff]
  · rw [if_pos hcreated, optionalLess_iff]
    exact (or_iff_left fun h => hcreated (noneFirst_inj.mp h.1)).symm

theorem stepKey_of_age {s t : WorkflowStepExecution} (h : s.age = t.age) : s.stepKey = t.stepKey := by
  have hparts := congrArg (fun a => (ofLex (ofLex a).2)) h
  have hid := congrArg Prod.fst hparts
  have hrest := congrArg (fun a => ofLex (Prod.snd a)) hparts
  have hname := congrArg Prod.fst hrest
  have hattempt := Int32.toInt_inj.mp (congrArg Prod.snd hrest)
  change s.workflowExecutionId = t.workflowExecutionId at hid
  change s.stepName = t.stepName at hname
  simp only [WorkflowStepExecution.stepKey, hid, hname, hattempt]

def Older (s t : WorkflowStepExecution) : Prop := s.age < t.age

instance : Std.Irrefl Older := ⟨fun s => lt_irrefl s.age⟩

instance : Std.Antisymm Older := ⟨fun _ _ h h' => absurd h' (lt_asymm h)⟩

theorem sortCandidates_sorted (candidates : List WorkflowStepExecution) :
    (sortCandidates candidates).Pairwise fun s t => s.age ≤ t.age := by
  let before : WorkflowStepExecution → WorkflowStepExecution → Prop :=
    fun s t => claimsBefore t s = false
  have hbefore : ∀ s t, before s t ↔ s.age ≤ t.age := by
    intro s t
    rw [← not_lt, ← claimsBefore_iff]
    exact (Bool.not_eq_true _).symm.to_iff
  have htotal : Std.Total before := by
    refine ⟨fun s t => ?_⟩
    rw [hbefore, hbefore]
    exact le_total s.age t.age
  have htrans : IsTrans WorkflowStepExecution before := by
    refine ⟨fun s t u hst htu => ?_⟩
    rw [hbefore] at hst htu ⊢
    exact hst.trans htu
  exact (List.pairwise_insertionSort before candidates).imp fun {s t} h => (hbefore s t).mp h

variable {E : Engine schema} {env : Environment} {tx tx' : Tx E} {db : E.Db}

def Leasing (d : WorkflowDefinition) (workerId : String) (now : TimePoint)
    (s claimed : WorkflowStepExecution) : Prop :=
  ∃ lease, d.lease s.stepName = .ok lease ∧
    claimed = s.claimedBy workerId now (now.addSeconds lease)

theorem Leasing.stepKey {d : WorkflowDefinition} {workerId : String} {now : TimePoint}
    {s claimed : WorkflowStepExecution} (h : Leasing d workerId now s claimed) :
    claimed.stepKey = s.stepKey := by
  obtain ⟨lease, -, rfl⟩ := h
  rfl

def claimWrite (s : WorkflowStepExecution) : Write schema := ⟨.steps, s.toRow⟩

theorem claimWrite_address (s : WorkflowStepExecution) :
    (claimWrite s).address = ⟨.steps, s.stepKey.text⟩ := by
  rw [← s.key_toRow_text]
  rfl

theorem claimWrites_nodup {claimed : List WorkflowStepExecution}
    (h : (claimed.map fun s => s.stepKey.text).Nodup) :
    ((claimed.map claimWrite).map Write.address).Nodup := by
  have hinj : Function.Injective fun k : String => (⟨.steps, k⟩ : schema.Address) :=
    fun k k' hk => by simpa using hk
  have haddresses := h.map hinj
  rw [List.map_map] at haddresses ⊢
  exact (List.map_congr_left fun s _ => claimWrite_address s) ▸ haddresses

theorem claimSteps_claims {d : WorkflowDefinition} {workerId : String} {now : TimePoint}
    {maxResults : ℕ} {candidates new : List WorkflowStepExecution}
    (claimed : List WorkflowStepExecution) (listed : Listed tx.view candidates)
    (hnew : List.Forall₂ (Leasing d workerId now)
      (claimable now (maxResults - claimed.length) candidates) new) :
    ∃ tx', Returns env (claimSteps d workerId now maxResults claimed candidates) tx (claimed ++ new)
      tx' ∧ tx'.view = E.applyWrites tx.view (new.map claimWrite) := by
  induction candidates generalizing tx claimed new with
  | nil =>
    obtain rfl := List.forall₂_nil_left_iff.mp (by simpa only [claimable, List.filter_nil,
      List.take_nil] using hnew)
    exact ⟨tx, returns_pure.mpr ⟨List.append_nil _, rfl⟩, rfl⟩
  | cons c candidates ih =>
    by_cases room : claimed.length < maxResults
    swap
    · rw [claimable_full room] at hnew
      obtain rfl := List.forall₂_nil_left_iff.mp hnew
      rw [claimSteps, if_pos (not_lt.mp room)]
      exact ⟨tx, returns_pure.mpr ⟨List.append_nil _, rfl⟩, rfl⟩
    obtain ⟨row, hrow, hc⟩ := listed.rows c List.mem_cons_self
    obtain ⟨n, hn⟩ := Nat.exists_eq_succ_of_ne_zero (Nat.sub_ne_zero_of_lt room)
    cases hclaim : isClaimable c now with
    | false =>
      rw [claimable_cons_skip hclaim] at hnew
      have hlisted : Listed (tx.noteKey .steps c.stepKey.text).view candidates := by
        rw [Tx.noteKey_view]
        exact listed.tail
      obtain ⟨tx', hreturns, hview⟩ := ih _ hlisted hnew
      rw [Tx.noteKey_view] at hview
      exact ⟨tx', (claimSteps_skip hrow hc room hclaim).trans hreturns, hview⟩
    | true =>
      rw [hn, claimable_cons_take hclaim] at hnew
      obtain ⟨s, new, ⟨lease, hlease, rfl⟩, hrest, rfl⟩ := List.forall₂_cons_left_iff.mp hnew
      have hlength : maxResults -
          (claimed ++ [c.claimedBy workerId now (now.addSeconds lease)]).length = n := by
        rw [List.length_append, List.length_singleton]
        omega
      have hlisted : Listed ((tx.noteKey .steps c.stepKey.text).stage .steps
          (c.claimedBy workerId now (now.addSeconds lease)).toRow).view candidates := by
        rw [Tx.stage_view, Tx.noteKey_view]
        exact listed.put rfl
      obtain ⟨tx', hreturns, hview⟩ := ih _ hlisted (hlength.symm ▸ hrest)
      rw [Tx.stage_view, Tx.noteKey_view] at hview
      rw [List.append_assoc] at hreturns
      exact ⟨tx', (claimSteps_claim hrow hc room hclaim hlease).trans hreturns, hview⟩

theorem exec_poll {name : String} {version : Int32} {workerId : String} {maxResults : ℕ}
    {d : WorkflowDefinition} (polling : Polling env tx name version workerId maxResults d) :
    ∃ tx₁ : Tx E, tx₁.view = tx.view ∧
      exec env (pollAndClaimWorkflowSteps name version workerId maxResults) tx =
        exec env (claimSteps d workerId (env.answer tx.ticks .clock) maxResults []
          (candidatesIn env tx.view name version)) tx₁ := by
  obtain ⟨⟨hname, hversion, hworker, hmax⟩, ⟨row, hrow, rfl⟩, hreserve⟩ := polling
  let tx₀ := ((tx.noteKey .definitions (definitionKey name version)).tick.noteQuery .steps
    (stepQuery name version .pending)).noteQuery .steps (stepQuery name version .running)
  have hchecks : Returns env (validateWorkflowNameAndVersion name version) tx () tx :=
    returns_validateWorkflowNameAndVersion.mpr ⟨hname, hversion, rfl⟩
  have hid : Returns env (validateWorkerId workerId) tx () tx := returns_throwIf.mpr ⟨hworker, rfl⟩
  have hreserved : Returns env (reserve maxResults) tx₀ () tx₀.tick := by
    refine returns_bind.mpr ⟨_, _, returns_demand.mpr ⟨rfl, rfl⟩, returns_lift.mpr ⟨?_, rfl⟩⟩
    simpa only [tx₀, Tx.noteKey_ticks, Tx.tick_ticks, Tx.noteQuery_ticks] using hreserve
  refine ⟨tx₀.tick, Tx.noteKey_view .., ?_⟩
  rw [pollAndClaimWorkflowSteps, exec_bind_of_returns hchecks, exec_bind_of_returns hid,
    exec_bind_of_returns (returns_throwIf.mpr ⟨hmax, rfl⟩ : Returns _ _ _ () _),
    exec_bind_of_returns (returns_getDefinition.mpr ⟨rfl, rfl⟩),
    exec_bind_of_returns (returns_orThrow.mpr ⟨hrow, rfl⟩),
    exec_bind_of_returns (returns_nowForStorage.mpr ⟨rfl, rfl⟩),
    exec_bind_of_returns (returns_querySteps.mpr ⟨rfl, rfl⟩),
    exec_bind_of_returns (returns_querySteps.mpr ⟨rfl, rfl⟩), exec_bind_of_returns hreserved]
  simp only [Tx.noteKey_ticks, Tx.tick_view, Tx.noteQuery_view, Tx.noteKey_view]
  rfl

theorem candidates_older (keyed : Keyed db) (env : Environment) (name : String) (version : Int32) :
    (candidatesIn env db name version).Pairwise Older := by
  have hsorted := sortCandidates_sorted
    ((candidateRows env db name version).map WorkflowStepExecutionRow.fromRow)
  have hkeys := List.pairwise_map.mp (candidates_nodup keyed env name version)
  refine (hsorted.and hkeys).imp ?_
  intro s t h
  obtain ⟨hle, hne⟩ := h
  exact lt_of_le_of_ne hle fun hage => hne (congrArg StepKey.text (stepKey_of_age hage))

end Orchestrator

def StoredStep {E : Engine schema} (db : E.Db) (s : WorkflowStepExecution) : Prop :=
  ∃ row, E.get db .steps s.stepKey.text = some row ∧ row.fromRow = s

/-- Pending and due, or Running under a lease that has run out. -/
def WorkflowStepExecution.Claimable (s : WorkflowStepExecution) (now : TimePoint) : Prop :=
  (s.status = .pending ∧ ∀ t ∈ s.scheduledAt, t ≤ now) ∨
    (s.status = .running ∧ ∃ t ∈ s.leaseExpiresAt, t ≤ now)

theorem isClaimable_iff {s : WorkflowStepExecution} {now : TimePoint} :
    isClaimable s now = true ↔ s.Claimable now := by
  unfold isClaimable WorkflowStepExecution.Claimable
  split_ifs with hpending
  · have hrunning : s.status ≠ .running := by simp [hpending]
    cases hscheduled : s.scheduledAt with
    | none => simp [hpending]
    | some t => simp [hpending]
  · cases hlease : s.leaseExpiresAt with
    | none => simp [hpending]
    | some t => simp [hpending]

variable {E : Engine schema} {db : E.Db}

/-- What the claim loop claims: the stored steps of the version that are claimable. -/
theorem mem_claimable (sound : Sound db) {env : Environment} {name : String} {version : Int32}
    {now : TimePoint} {s : WorkflowStepExecution} :
    s ∈ (candidatesIn env db name version).filter (fun c => isClaimable c now) ↔
      StoredStep db s ∧ s.versionKey = (name, version) ∧ s.Claimable now := by
  rw [List.mem_filter, isClaimable_iff]
  constructor
  · intro h
    obtain ⟨hmem, hclaimable⟩ := h
    obtain ⟨row, rfl, hrow⟩ := candidate_row sound.encoded.keyed hmem
    exact ⟨⟨row, hrow, rfl⟩, candidate_version sound.encoded hmem hrow, hclaimable⟩
  · intro h
    obtain ⟨⟨row, hrow, rfl⟩, hversion, hclaimable⟩ := h
    have hactive := Ledger.active_of_isClaimable (isClaimable_iff.mpr hclaimable)
    have hstep : (view db).step row.fromRow.stepKey = some row.fromRow :=
      view_step.mpr ⟨row, hrow, rfl, rfl⟩
    exact ⟨mem_candidates sound.holds hstep hversion hactive, hclaimable⟩

theorem stepKey_claimed {d : WorkflowDefinition} {workerId : String} {now : TimePoint}
    {steps claimed : List WorkflowStepExecution}
    (h : List.Forall₂ (Leasing d workerId now) steps claimed) :
    claimed.map WorkflowStepExecution.stepKey = steps.map WorkflowStepExecution.stepKey := by
  induction h with
  | nil => rfl
  | cons hclaim _ ih => rw [List.map_cons, List.map_cons, hclaim.stepKey, ih]

theorem claims_nodup {d : WorkflowDefinition} {workerId : String} {now : TimePoint}
    {steps claimed : List WorkflowStepExecution}
    (h : List.Forall₂ (Leasing d workerId now) steps claimed)
    (hsteps : (steps.map fun s => s.stepKey.text).Nodup) :
    (claimed.map fun s => s.stepKey.text).Nodup := by
  have htexts := congrArg (List.map StepKey.text) (stepKey_claimed h)
  rw [List.map_map, List.map_map] at htexts
  exact htexts ▸ hsteps

theorem claimable_nodup (keyed : Keyed db) (env : Environment) (name : String) (version : Int32)
    (now : TimePoint) (n : ℕ) :
    ((claimable now n (candidatesIn env db name version)).map fun s => s.stepKey.text).Nodup :=
  (candidates_nodup keyed env name version).sublist
    (((List.take_sublist n _).trans List.filter_sublist).map _)

theorem claim_of_mem {d : WorkflowDefinition} {workerId : String} {now : TimePoint}
    {steps claimed : List WorkflowStepExecution}
    (h : List.Forall₂ (Leasing d workerId now) steps claimed) :
    ∀ s ∈ claimed, ∃ c ∈ steps, Leasing d workerId now c s := by
  induction h with
  | nil => simp
  | cons hclaim _ ih =>
    intro s hs
    rcases List.mem_cons.mp hs with rfl | hs
    · exact ⟨_, List.mem_cons_self, hclaim⟩
    · obtain ⟨c, hc, hs⟩ := ih s hs
      exact ⟨c, List.mem_cons_of_mem _ hc, hs⟩

theorem claimed_of_mem {d : WorkflowDefinition} {workerId : String} {now : TimePoint}
    {steps claimed : List WorkflowStepExecution} {s : WorkflowStepExecution}
    (h : List.Forall₂ (Leasing d workerId now) steps claimed) (hs : s ∈ steps) :
    ∃ t ∈ claimed, Leasing d workerId now s t := by
  induction h with
  | nil => cases hs
  | cons hclaim _ ih =>
    rcases List.mem_cons.mp hs with rfl | hs
    · exact ⟨_, List.mem_cons_self, hclaim⟩
    · obtain ⟨t, ht, hclaim⟩ := ih hs
      exact ⟨t, List.mem_cons_of_mem _ ht, hclaim⟩

theorem exists_claims {d : WorkflowDefinition} (workerId : String) (now : TimePoint)
    {steps : List WorkflowStepExecution} (h : ∀ s ∈ steps, ∃ lease, d.lease s.stepName = .ok lease) :
    ∃ claimed, List.Forall₂ (Leasing d workerId now) steps claimed := by
  induction steps with
  | nil => exact ⟨[], .nil⟩
  | cons s steps ih =>
    obtain ⟨lease, hlease⟩ := h s List.mem_cons_self
    obtain ⟨claimed, hclaimed⟩ := ih fun t ht => h t (List.mem_cons_of_mem s ht)
    exact ⟨_, .cons ⟨lease, hlease, rfl⟩ hclaimed⟩

theorem Orchestrator.Leasing.stored {d : WorkflowDefinition} {workerId : String} {now : TimePoint}
    {s claimed : WorkflowStepExecution} (h : Leasing d workerId now s claimed) (hs : s.stored = s)
    (hnow : Exact now) (hlease : ∀ lease, d.lease s.stepName = .ok lease →
      now.addSeconds lease < yearTenThousand) : claimed.stored = claimed := by
  obtain ⟨lease, hl, rfl⟩ := h
  have hone : 1 ≤ lease := by
    obtain ⟨step, -, hstep⟩ := Cxx.bind_eq_ok.mp hl
    exact one_le_lease hstep
  have hdeadline : Exact (now.addSeconds lease) :=
    hnow.addSeconds (Int.le_of_lt hone) (hlease lease hl)
  have hcreated : storedTime s.createdAt = s.createdAt := congrArg WorkflowStepExecution.createdAt hs
  have hscheduled : storedTime s.scheduledAt = s.scheduledAt :=
    congrArg WorkflowStepExecution.scheduledAt hs
  have hcompleted : storedTime s.completedAt = s.completedAt :=
    congrArg WorkflowStepExecution.completedAt hs
  have hstarted : storedTime (some now) = some now := congrArg some (Iso8601.stored_exact hnow)
  have hexpires : storedTime (some (now.addSeconds lease)) = some (now.addSeconds lease) :=
    congrArg some (Iso8601.stored_exact hdeadline)
  simp only [WorkflowStepExecution.stored, WorkflowStepExecution.claimedBy, hcreated, hscheduled,
    hcompleted, hstarted, hexpires]

theorem registered_key (enc : Encoded db) {name : String} {version : Int32}
    {row : WorkflowDefinitionRow} (h : E.get db .definitions (definitionKey name version) = some row) :
    row.fromRow.workflowName = name ∧ row.fromRow.workflowVersion = version := by
  obtain ⟨d, rfl⟩ := enc.definitions _ row h
  have hkey : d.toRow.key = definitionKey name version := E.key_of_get db .definitions _ d.toRow h
  rw [d.fromRow_toRow]
  exact definitionKey_inj.mp (d.key_toRow.symm.trans hkey)

theorem listed_candidates (keyed : Keyed db) (env : Environment) (name : String) (version : Int32) :
    Listed db (candidatesIn env db name version) := by
  refine ⟨fun s hs => ?_, candidates_nodup keyed env name version⟩
  obtain ⟨row, hfrom, hget⟩ := candidate_row keyed hs
  exact ⟨row, hget, hfrom⟩

theorem poll_atomic (keyed : Keyed db) {env : Environment} {name : String} {version : Int32}
    {workerId : String} {maxResults : ℕ} {d : WorkflowDefinition}
    (polling : Polling env (Tx.begin db) name version workerId maxResults d)
    {claimed : List WorkflowStepExecution}
    (hclaimed : List.Forall₂ (Leasing d workerId (env.answer 0 .clock))
      (claimable (env.answer 0 .clock) maxResults (candidatesIn env db name version)) claimed) :
    Program.atomic env (pollAndClaimWorkflowSteps name version workerId maxResults) db =
      (.ok claimed, E.applyWrites db (claimed.map claimWrite)) := by
  obtain ⟨tx₁, hview, hexec⟩ := exec_poll polling
  have hlisted : Listed tx₁.view (candidatesIn env db name version) :=
    hview.symm ▸ listed_candidates keyed env name version
  obtain ⟨tx', hreturns, hafter⟩ := claimSteps_claims [] hlisted hclaimed
  exact Program.atomic_ok.mpr ⟨tx', hexec.trans hreturns, hafter.trans (by rw [hview]; rfl)⟩

theorem poll_performs (keyed : Keyed db) {env : Environment} {name : String} {version : Int32}
    {workerId : String} {maxResults : ℕ} {d : WorkflowDefinition}
    (polling : Polling env (Tx.begin db) name version workerId maxResults d)
    {claimed : List WorkflowStepExecution}
    (hclaimed : List.Forall₂ (Leasing d workerId (env.answer 0 .clock))
      (claimable (env.answer 0 .clock) maxResults (candidatesIn env db name version)) claimed) :
    Call.perform ⟨.pollAndClaimWorkflowSteps name version workerId maxResults, env⟩ db =
      (.ok (.claimed claimed), E.applyWrites db (claimed.map claimWrite)) := by
  refine (atomic_bind_pure _ _ db).trans ?_
  rw [poll_atomic keyed polling hclaimed]
  rfl

theorem polling_of_returns {env : Environment} {tx tx' : Tx E} {name : String} {version : Int32}
    {workerId : String} {maxResults : ℕ} {claimed : List WorkflowStepExecution}
    (hr : Returns env (pollAndClaimWorkflowSteps name version workerId maxResults) tx claimed tx') :
    ∃ row tx₁, E.get tx.view .definitions (definitionKey name version) = some row ∧
      Polling env tx name version workerId maxResults row.fromRow ∧ tx₁.view = tx.view ∧
      Returns env (claimSteps row.fromRow workerId (env.answer tx.ticks .clock) maxResults []
        (candidatesIn env tx.view name version)) tx₁ claimed tx' := by
  obtain ⟨hnamed, row, tx₁, hrow, hreserve, hview, -, hloop⟩ := pollAndClaimWorkflowSteps_cases hr
  exact ⟨row, tx₁, hrow, ⟨hnamed, ⟨row, hrow, rfl⟩, hreserve⟩, hview, hloop⟩

/-- A poll that returns has passed its checks and leased what it came to. -/
theorem poll_outcome (keyed : Keyed db) {env : Environment} {tx' : Tx E} {name : String}
    {version : Int32} {workerId : String} {maxResults : ℕ} {claimed : List WorkflowStepExecution}
    (hr : Returns env (pollAndClaimWorkflowSteps name version workerId maxResults) (Tx.begin db)
      claimed tx') :
    ∃ d, Polling env (Tx.begin db) name version workerId maxResults d ∧
      List.Forall₂ (Leasing d workerId (env.answer 0 .clock))
        (claimable (env.answer 0 .clock) maxResults (candidatesIn env db name version)) claimed ∧
      tx'.view = E.applyWrites db (claimed.map claimWrite) := by
  obtain ⟨row, tx₁, -, polling, hview, hloop⟩ := polling_of_returns hr
  change tx₁.view = db at hview
  change Returns env (claimSteps row.fromRow workerId (env.answer 0 .clock) maxResults []
    (candidatesIn env db name version)) tx₁ claimed tx' at hloop
  have hlisted : Listed tx₁.view (candidatesIn env db name version) :=
    hview.symm ▸ listed_candidates keyed env name version
  have hleases : ∀ s ∈ claimable (env.answer 0 .clock) maxResults (candidatesIn env db name version),
      ∃ lease, row.fromRow.lease s.stepName = .ok lease := by
    intro s hs
    cases hlease : row.fromRow.lease s.stepName with
    | ok lease => exact ⟨lease, rfl⟩
    | error ex =>
      have hfails : Fails env (claimSteps row.fromRow workerId (env.answer 0 .clock) maxResults []
          (candidatesIn env db name version)) tx₁ := (claimSteps_fails hlisted).mpr ⟨s, hs, ex, hlease⟩
      obtain ⟨ex', tx₂, hthrows⟩ := hfails
      exact (hloop.not_throws hthrows).elim
  obtain ⟨claimed', hclaims⟩ := exists_claims workerId (env.answer 0 .clock) hleases
  obtain ⟨tx₂, hreturns, hafter⟩ := claimSteps_claims [] hlisted hclaims
  obtain ⟨hsame, rfl⟩ := Prod.mk.inj (hloop.symm.trans hreturns)
  obtain rfl := Except.ok.inj hsame
  exact ⟨row.fromRow, polling, hclaims, hview ▸ hafter⟩

theorem poll_claims_oldest (h : ReachableFromEpoch E db) {name : String} {version : Int32}
    {row : WorkflowDefinitionRow} {now : TimePoint} {workerId : String} {maxResults : ℕ}
    (registered : E.get db .definitions (definitionKey name version) = some row)
    (leases : ∀ s, StoredStep db s → s.versionKey = (name, version) → s.status.Active →
      ∃ lease, row.fromRow.lease s.stepName = .ok lease ∧ now.addSeconds lease < yearTenThousand)
    (worker : workerId ≠ "") (results : 1 ≤ maxResults) (hnow : Exact now) :
    ∃ due claimed : List WorkflowStepExecution,
      due.Pairwise (fun s t => s.age < t.age) ∧
      (∀ s, s ∈ due ↔ StoredStep db s ∧ s.versionKey = (name, version) ∧ s.Claimable now) ∧
      List.Forall₂ (Leasing row.fromRow workerId now) (due.take maxResults) claimed ∧
      ∀ env : Environment, env.answer 0 .clock = now → env.answer 1 (.reserve maxResults) = .ok () →
        let c : Call := ⟨.pollAndClaimWorkflowSteps name version workerId maxResults, env⟩
        c.result db = .ok (.claimed claimed) ∧ (∀ s ∈ claimed, StoredStep (c.after db) s) ∧
        ∀ (t : TableName) k, (∀ s ∈ claimed, (t, k) ≠ (.steps, s.stepKey.text)) →
          E.get (c.after db) t k = E.get db t k := by
  have sound := h.reachable.sound
  have hrows := h.holds
  let due := (candidatesIn (scripted now 0 [] {}) db name version).filter fun c => isClaimable c now
  have hdue : due.Pairwise Older := (candidates_older sound.encoded.keyed _ name version).filter _
  have hmem : ∀ s, s ∈ due ↔
      StoredStep db s ∧ s.versionKey = (name, version) ∧ s.Claimable now := fun s => mem_claimable sound
  have htaken : ∀ s ∈ due.take maxResults, StoredStep db s ∧ ∃ lease,
      row.fromRow.lease s.stepName = .ok lease ∧ now.addSeconds lease < yearTenThousand := by
    intro s hs
    obtain ⟨hstored, hversion, hclaimable⟩ := (hmem s).mp (List.mem_of_mem_take hs)
    exact ⟨hstored, leases s hstored hversion
      (Ledger.active_of_isClaimable (isClaimable_iff.mpr hclaimable))⟩
  obtain ⟨claimed, hclaimed⟩ := exists_claims workerId now fun s hs =>
    have ⟨lease, hlease, _⟩ := (htaken s hs).2
    ⟨lease, hlease⟩
  refine ⟨due, claimed, hdue, hmem, hclaimed, ?_⟩
  intro env hclock hreserve c
  have hsame : (candidatesIn env db name version).filter (fun c => isClaimable c now) = due := by
    refine List.Pairwise.eq_of_mem_iff ((candidates_older sound.encoded.keyed env name version).filter _)
      hdue ?_
    intro s
    rw [mem_claimable sound, hmem]
  have hkeys : (claimed.map fun s => s.stepKey.text).Nodup :=
    claims_nodup hclaimed (claimable_nodup sound.encoded.keyed _ name version now maxResults)
  obtain ⟨hname, hversion⟩ := registered_key sound.encoded registered
  have hnamed : row.fromRow.workflowName ≠ "" ∧ ¬ row.fromRow.workflowVersion < 1 :=
    hrows .definitions _ row registered
  rw [hname, hversion] at hnamed
  have polling : Polling env (Tx.begin db) name version workerId maxResults row.fromRow :=
    ⟨⟨hnamed.1, hnamed.2, worker, Nat.one_le_iff_ne_zero.mp results⟩, ⟨row, registered, rfl⟩, hreserve⟩
  subst hclock
  have hperform : c.perform db = (.ok (.claimed claimed), E.applyWrites db (claimed.map claimWrite)) :=
    poll_performs sound.encoded.keyed polling (by rwa [claimable, hsame])
  have hafter : c.after db = E.applyWrites db (claimed.map claimWrite) := congrArg Prod.snd hperform
  refine ⟨congrArg Prod.fst hperform, ?_, ?_⟩
  · intro s hs
    obtain ⟨step, hstep, hclaim⟩ := claim_of_mem hclaimed s hs
    obtain ⟨⟨row', hrow', hfrom⟩, lease, hlease, hdeadline⟩ := htaken step hstep
    have hsettled : step.stored = step := hfrom ▸ hrows .steps _ row' hrow'
    have hstored : s.stored = s := hclaim.stored hsettled hnow fun lease' hlease' => by
      obtain rfl := Except.ok.inj (hlease.symm.trans hlease')
      exact hdeadline
    refine ⟨s.toRow, ?_, s.fromRow_toRow.trans hstored⟩
    rw [hafter, ← s.key_toRow_text]
    exact E.get_applyWrites_mem (claimWrites_nodup hkeys) (List.mem_map_of_mem hs)
  · intro t k hk
    rw [hafter]
    refine E.get_applyWrites_other ?_
    intro w hw heq
    obtain ⟨s, hs, rfl⟩ := List.mem_map.mp hw
    rw [claimWrite_address] at heq
    cases heq
    exact hk s hs rfl

theorem poll_claims_oldest_first :
    let calls := Sample.begin (Sample.definition false 0)
    let db := Sample.after calls
    let poll := Sample.poll 2000000 "first" (Sample.script 0 "ship" calls)
    ∃ due claimed : List WorkflowStepExecution,
      due.Pairwise (fun s t => s.age < t.age) ∧
      (∀ s, s ∈ due ↔ StoredStep db s ∧ s.versionKey = ("order", 1) ∧ s.Claimable 2000000) ∧
      List.Forall₂ (Leasing (Sample.definition false 0) "first" 2000000) (due.take 1) claimed ∧
      poll.result db = .ok (.claimed claimed) ∧
      claimed.map WorkflowStepExecution.leaseExpiresAt = [some 10002000000] := by
  intro calls db poll
  have hreachable : ReachableFromEpoch Sample.store db := by
    refine ⟨_, calls_play (by decide +kernel), ?_⟩
    intro c hc n
    rcases List.mem_pair.mp hc with rfl | rfl
    · exact (by decide : (0 : ℤ) ≤ 0)
    · exact (by decide : (0 : ℤ) ≤ 1000000)
  have hregistered : Sample.store.get db .definitions (definitionKey "order" 1) =
      some (Sample.definition false 0).toRow := by
    decide +kernel
  have hnames : ∀ row ∈ Sample.store.rows db .steps, row.stepName = "ship" := by decide +kernel
  have hleases : ∀ s, StoredStep db s → s.versionKey = ("order", 1) → s.status.Active →
      ∃ lease, (Sample.definition false 0).toRow.fromRow.lease s.stepName = .ok lease ∧
        TimePoint.addSeconds 2000000 lease < yearTenThousand := by
    intro s hs _ _
    obtain ⟨row, hrow, rfl⟩ := hs
    have hkey : schema.key .steps row = row.fromRow.stepKey.text :=
      Sample.store.key_of_get _ _ _ _ hrow
    rw [← hkey] at hrow
    have hname : row.fromRow.stepName = "ship" :=
      hnames row ((Sample.store.mem_rows db .steps row).mpr hrow)
    rw [hname]
    exact ⟨10, by decide, by decide⟩
  have hnow : Exact 2000000 := ⟨by decide, by decide, by decide⟩
  obtain ⟨due, claimed, hdue, hmem, hclaimed, hpoll⟩ := poll_claims_oldest hreachable hregistered hleases
    (by decide : "first" ≠ "") (le_refl 1) hnow
  rw [WorkflowDefinition.fromRow_toRow] at hclaimed
  obtain ⟨hresult, -, -⟩ := hpoll poll.env rfl rfl
  have hcomputed : (Entry.claimed ⟨poll, poll.result db⟩).map WorkflowStepExecution.leaseExpiresAt =
      [some 10002000000] := by
    decide +kernel
  have hpolled : poll.result db = .ok (.claimed claimed) := hresult
  rw [hpolled] at hcomputed
  exact ⟨due, claimed, hdue, hmem, hclaimed, hpolled, hcomputed⟩

end WorkflowEngine
