import WorkflowEngine.Leases
import WorkflowEngine.Playback
import WorkflowEngine.Staging
import WorkflowEngine.Txn.Occ

/-!
# Operations side by side

The operations run as optimistic transactions. Whatever a decision depends on
is read through the transaction: a poll reads the key of every row that it
claims, and a start of a singleton reads the lock that it takes. Two polls that
overlap therefore never hand out the same attempt, and of two starts of a
singleton that overlap only one commits.
-/

namespace WorkflowEngine
open Txn Txn.Program Ledger Orchestrator

variable {E : Engine schema} {db db' : E.Db} {env : Environment} {tx tx' : Tx E}

def Ledger.OnlySingleton (L : Ledger) (k : VersionKey) : Prop :=
  ∀ d, L.definition k = some d → d.singleton = true

def StepKey.address (k : StepKey) : schema.Address := ⟨.steps, k.text⟩

theorem claimSteps_updates {d : WorkflowDefinition} {workerId : String} {now : TimePoint}
    {maxResults : ℕ} {candidates claimed claimed' : List WorkflowStepExecution}
    (hr : Returns env (claimSteps d workerId now maxResults claimed candidates) tx claimed' tx')
    (enc : Encoded tx.view) (first : tx.ReadsFirst)
    (h : ∀ s ∈ claimed, tx.Updates s.stepKey.address) :
    ∀ s ∈ claimed', tx'.Updates s.stepKey.address := by
  induction candidates generalizing tx claimed with
  | nil =>
    simp only [claimSteps] at hr
    obtain ⟨rfl, rfl⟩ := returns_pure.mp hr
    exact h
  | cons c candidates ih =>
    simp only [claimSteps] at hr
    split_ifs at hr with hfull
    · obtain ⟨rfl, rfl⟩ := returns_pure.mp hr
      exact h
    · simp only [returns_bind, returns_getStep] at hr
      obtain ⟨_, _, ⟨rfl, rfl⟩, claimed₁, tx₁, hstep, hr⟩ := hr
      have hread := first.mem_noteKey .steps c.stepKey.text
      have hfirst := first.noteKey .steps c.stepKey.text
      have henc : Encoded (tx.noteKey .steps c.stepKey.text).view := by rwa [Tx.noteKey_view]
      have hkept : ∀ s ∈ claimed, (tx.noteKey .steps c.stepKey.text).Updates s.stepKey.address :=
        fun s hs => (h s hs).noteKey .steps c.stepKey.text
      rcases claimStep_cases hstep with ⟨rfl, rfl, -⟩ | ⟨row, lease, hrow, hc, -, rfl, rfl⟩
      · exact ih hr henc hfirst hkept
      · obtain ⟨s, rfl, hplain⟩ := henc.steps _ row ((Tx.noteKey_view ..).symm ▸ hrow)
        rw [WorkflowStepExecution.fromRow_toRow] at hr
        have hkey : (s.stored.claimedBy workerId now (now.addSeconds lease)).toRow.key =
            c.stepKey.text := E.key_of_get _ _ _ _ hrow
        have hread' : ⟨.steps, (s.stored.claimedBy workerId now (now.addSeconds lease)).toRow.key⟩ ∈
            (tx.noteKey .steps c.stepKey.text).keysRead := hkey ▸ hread
        refine ih hr (encoded_putStep henc _ hplain) (hfirst.stage hread') fun s' hs' => ?_
        rcases List.mem_append.mp hs' with hs' | hs'
        · exact (hkept s' hs').stage _ _
        · rw [List.mem_singleton.mp hs', StepKey.address, ← WorkflowStepExecution.key_toRow_text]
          exact Tx.updates_stage hread'

theorem pollAndClaimWorkflowSteps_updates {name : String} {version : Int32} {workerId : String}
    {maxResults : ℕ} {claimed : List WorkflowStepExecution} (enc : Encoded db)
    (hr : Returns env (pollAndClaimWorkflowSteps name version workerId maxResults) (Tx.begin db)
      claimed tx) : ∀ s ∈ claimed, tx.Updates s.stepKey.address := by
  obtain ⟨-, row, tx₁, -, -, hview, hwrites, hclaim⟩ := pollAndClaimWorkflowSteps_cases hr
  refine claimSteps_updates hclaim (hview ▸ enc) (Tx.readsFirst_of_nil hwrites) ?_
  intro s hs
  cases hs

theorem takeSingletonLock_updates {e : WorkflowExecution} {u : Unit} (first : tx.writes = [])
    (hr : Returns env (takeSingletonLock true e) tx u tx') :
    tx'.Updates ⟨.singletonLocks, singletonLockKey e.workflowName e.workflowVersion⟩ := by
  simp only [takeSingletonLock, if_true, returns_bind, returns_getLock, returns_putLock] at hr
  obtain ⟨lock, _, ⟨rfl, rfl⟩, _, tx₁, hc, rfl⟩ := hr
  have hkey := key_makeSingletonLock e
  have hread : ⟨.singletonLocks, (makeSingletonLock e).key⟩ ∈ tx₁.keysRead := by
    rw [hkey]
    exact hc.keysRead ((Tx.readsFirst_of_nil first).mem_noteKey ..)
  rw [← hkey]
  exact Tx.updates_stage hread

theorem startWorkflow_updates {name : String} {version : Int32} {input : Json}
    {e : WorkflowExecution}
    (hr : Returns env (startWorkflow name version input) (Tx.begin db) e tx)
    (only : (view db).OnlySingleton (name, version)) :
    tx.Updates ⟨.singletonLocks, singletonLockKey name version⟩ := by
  obtain ⟨row, id, tx₀, tx₁, hrow, hid, rfl, hlock, rfl⟩ := startWorkflow_cases hr
  have hs : row.fromRow.singleton = true :=
    only _ (Encoded.definition (k := (name, version)) hrow)
  rw [hs] at hlock
  have hnone : tx₀.tick.writes = [] :=
    (readOnly_generateExecutionId.writes hid).trans (Tx.noteKey_writes ..)
  have hupdates := takeSingletonLock_updates hnone hlock
  exact (hupdates.stage _ _).tick.stage _ _

theorem Call.Step.onlySingleton {c : Call} {k : VersionKey} (step : Call.Step db c db')
    (sound : Sound db) (h : (view db).OnlySingleton k)
    (hregister : ∀ d, c.operation = .registerWorkflowDefinition d →
      (d.workflowName, d.workflowVersion) = k → d.singleton = true) :
    (view db').OnlySingleton k := by
  rcases step.cases sound with ⟨r, evs, -, heff, -⟩ | ⟨-, rfl⟩
  swap
  · exact h
  by_cases hop : ∃ d, c.operation = .registerWorkflowDefinition d
  · obtain ⟨d, hd⟩ := hop
    rw [hd] at heff
    generalize view db' = L' at heff ⊢
    cases heff with
    | registerWorkflowDefinition d =>
      intro d' hd'
      rw [setDefinition_definition] at hd'
      split_ifs at hd' with hk
      · exact Option.some_inj.mp hd' ▸ hregister d hd hk.symm
      · exact h d' hd'
  · have hsame := definition_of_run heff.run (heff.not_registered fun d hd => hop ⟨d, hd⟩)
    intro d hd
    rw [hsame] at hd
    exact h d hd

/-- The operations of the orchestrator, as jobs for sessions. -/
abbrev service : Occ.Service schema where
  Question := Question
  Answer := Question.Answer
  Error := Exception
  Reply := Response
  Job := Operation
  program := Operation.program

abbrev Commit (E : Engine schema) := Occ.Committed service E

namespace Txn.Occ.Committed

def call (x : Commit E) : Call := ⟨x.job, x.env⟩

def entry (x : Commit E) : Entry := ⟨x.call, .ok x.result⟩

def Starts (x : Commit E) (name : String) (version : Int32) : Prop :=
  ∃ input, x.job = .startWorkflow name version input

theorem Step.entry {x : Commit E} (h : x.Step db db') (fresh : x.call.Fresh x.before) :
    Entry.Step db x.entry db' := by
  obtain ⟨rfl, hatomic⟩ := h
  have hperform : x.call.perform x.before = (.ok x.result, db') := hatomic
  exact ⟨⟨fresh, (congrArg Prod.snd hperform).symm⟩, (congrArg Prod.fst hperform).symm⟩

end Txn.Occ.Committed

/-- A committed start drew an identifier that no execution had. -/
def FreshIds (log : List (Commit E)) : Prop := ∀ x ∈ log, x.call.Fresh x.before

def AlwaysSingleton (log : List (Commit E)) (name : String) (version : Int32) : Prop :=
  ∀ x ∈ log, ∀ d, x.job = .registerWorkflowDefinition d →
    d.workflowName = name → d.workflowVersion = version → d.singleton = true

variable {log : List (Commit E)} {x y : Commit E} {name : String} {version : Int32}

theorem history_of_serial (run : Systems.Run Occ.Committed.Step db log db') (fresh : FreshIds log) :
    History E db (log.map Occ.Committed.entry) db' := by
  induction run with
  | nil => exact .nil
  | snoc _ last ih =>
    rw [List.map_append]
    refine (ih fun x hx => fresh x (List.mem_append_left _ hx)).snoc (last.entry ?_)
    exact fresh _ (List.mem_append_right _ (List.mem_singleton_self _))

theorem sound_of_serial (run : Systems.Run Occ.Committed.Step E.empty log db)
    (fresh : FreshIds log) : Sound db :=
  sound_of_calls (History.calls (history_of_serial run fresh)) sound_empty

theorem onlySingleton_of_serial (run : Systems.Run Occ.Committed.Step E.empty log db)
    (fresh : FreshIds log) (always : AlwaysSingleton log name version) :
    (view db).OnlySingleton (name, version) := by
  induction run with
  | nil =>
    rw [view_empty]
    nofun
  | @snoc db db' log x run last ih =>
    have hfresh : FreshIds log := fun x hx => fresh x (List.mem_append_left _ hx)
    have hmem : x ∈ log ++ [x] := List.mem_append_right _ (List.mem_singleton_self _)
    have hcall : Call.Step db x.call db' := (last.entry (fresh x hmem)).1
    refine hcall.onlySingleton (sound_of_serial run hfresh) ?_ ?_
    · exact ih hfresh fun x hx => always x (List.mem_append_left _ hx)
    · intro d hd hk
      exact always x hmem d hd (congrArg Prod.fst hk) (congrArg Prod.snd hk)

theorem AlwaysSingleton.take {m n : ℕ} (h : AlwaysSingleton (log.take n) name version)
    (hmn : m ≤ n) : AlwaysSingleton (log.take m) name version :=
  fun x hx => h x ((List.take_subset_take_left log hmn) hx)

theorem sound_before (run : Systems.Run Occ.Committed.Step E.empty log db) (fresh : FreshIds log)
    {m : ℕ} (hx : log[m]? = some x) : Sound x.before ∧ ∃ db₁, x.Step x.before db₁ := by
  obtain ⟨hbefore, hstep⟩ := Occ.run_before run hx
  exact ⟨sound_of_serial hbefore fun y hy => fresh y (List.mem_of_mem_take hy), hstep⟩

theorem poll_of_claimed {op : Operation} {steps : List WorkflowStepExecution}
    (hr : Returns env op.program tx (.claimed steps) tx') :
    ∃ name version workerId maxResults,
      Returns env (pollAndClaimWorkflowSteps name version workerId maxResults) tx steps tx' := by
  cases op <;> simp only [Operation.program, returns_bind, returns_pure] at hr
  case pollAndClaimWorkflowSteps name version workerId maxResults =>
    obtain ⟨_, _, hret, heq, rfl⟩ := hr
    obtain rfl := Response.claimed.inj heq
    exact ⟨name, version, workerId, maxResults, hret⟩
  all_goals
    obtain ⟨_, _, -, heq, -⟩ := hr
    cases heq

theorem claimed_updates (sound : Sound x.before) (step : x.Step x.before db) :
    ∀ s ∈ x.entry.claimed, x.serial.2.Updates s.stepKey.address := by
  have hret := step.returns
  intro s hs
  cases hresult : x.result with
  | claimed steps =>
    rw [hresult] at hret
    obtain ⟨name, version, workerId, maxResults, hpoll⟩ := poll_of_claimed hret
    refine pollAndClaimWorkflowSteps_updates sound.encoded hpoll s ?_
    simpa only [Entry.claimed, Occ.Committed.entry, hresult] using hs
  | _ => simp [Entry.claimed, Occ.Committed.entry, hresult] at hs

theorem start_updates (step : x.Step x.before db) (starts : x.Starts name version)
    (only : (view x.before).OnlySingleton (name, version)) :
    x.serial.2.Updates ⟨.singletonLocks, singletonLockKey name version⟩ := by
  obtain ⟨input, hjob⟩ := starts
  have hret := step.returns
  rw [hjob] at hret
  simp only [Operation.program, returns_bind, returns_pure] at hret
  obtain ⟨e, tx, hstart, -, heq⟩ := hret
  rw [heq]
  exact startWorkflow_updates hstart only

theorem claimed_unleased (sound : Sound x.before) (step : x.Step x.before db)
    {row : WorkflowStepExecutionRow} {workerId : String} {deadline : TimePoint}
    (found : E.get x.before .steps row.key = some row) (leased : Leased row workerId deadline)
    (hmem : ∃ s ∈ x.entry.claimed, s.stepKey = row.fromRow.stepKey) :
    deadline ≤ x.call.now := by
  obtain ⟨s, hs, hkey⟩ := hmem
  by_contra hnow
  cases hresult : x.result with
  | claimed steps =>
    have hstep := step.2
    rw [hresult] at hstep
    have hc : x.call.result x.before = .ok (.claimed steps) := congrArg Prod.fst hstep
    refine leased_row_not_claimed sound found leased (not_le.mp hnow) hc s ?_ hkey
    simpa only [Entry.claimed, Occ.Committed.entry, hresult] using hs
  | _ => simp [Entry.claimed, Occ.Committed.entry, hresult] at hs

/-- However the steps of concurrent sessions interleave, the committed operations are the calls of
a serial run, in commit order and with the results and the store of that run. No poll hands out
an attempt whose lease runs. Polls that overlap hand out different attempts, and starts of a key
that overlap do not both commit if the key has been a singleton only. -/
theorem calls_serializable {moves : List (Occ.Move service)} {s : Occ.State service E}
    (run : Systems.Run Occ.State.Step (Occ.State.empty E.empty) moves s) :
    Systems.Run Occ.Committed.Step E.empty s.log s.store ∧
    (FreshIds s.log →
      History E E.empty (s.log.map Occ.Committed.entry) s.store ∧
      (∀ x ∈ s.log, ∀ step ∈ x.entry.claimed, ∀ row workerId deadline,
        E.get x.before .steps row.key = some row → Leased row workerId deadline →
        step.stepKey = row.fromRow.stepKey → deadline ≤ x.call.now) ∧
      ∀ m n x y, m < n → s.log[m]? = some x → s.log[n]? = some y → y.began ≤ m →
        (∀ a ∈ x.entry.claimed, ∀ b ∈ y.entry.claimed, a.stepKey ≠ b.stepKey) ∧
        ∀ name version, AlwaysSingleton (s.log.take n) name version →
          x.Starts name version → ¬ y.Starts name version) := by
  obtain ⟨-, serial, apart⟩ := Occ.State.run_sound run
  refine ⟨serial, fun fresh => ⟨history_of_serial serial fresh, ?_, ?_⟩⟩
  · intro x hx step hs row workerId deadline found leased hkey
    obtain ⟨m, hm⟩ := List.getElem?_of_mem hx
    obtain ⟨sound, _, hstep⟩ := sound_before serial fresh hm
    exact claimed_unleased sound hstep found leased ⟨step, hs, hkey⟩
  · intro m n x y hmn hx hy hbegan
    have spares := apart m n x y hmn hx hy hbegan
    obtain ⟨hsoundx, _, hstepx⟩ := sound_before serial fresh hx
    obtain ⟨hsoundy, _, hstepy⟩ := sound_before serial fresh hy
    constructor
    · intro a ha b hb hkey
      have hupdates := claimed_updates hsoundx hstepx a ha
      rw [hkey] at hupdates
      exact spares.not_updates hupdates (claimed_updates hsoundy hstepy b hb)
    · intro name version always startsx startsy
      have honlyx := onlySingleton_of_serial (Occ.run_before serial hx).1
        (fun z hz => fresh z (List.mem_of_mem_take hz)) (always.take hmn.le)
      have honlyy := onlySingleton_of_serial (Occ.run_before serial hy).1
        (fun z hz => fresh z (List.mem_of_mem_take hz)) always
      exact spares.not_updates (start_updates hstepx startsx honlyx)
        (start_updates hstepy startsy honlyy)

theorem concurrent_play (calls : List Call) {s : Occ.State service E}
    (free : ∀ i, s.session i = none)
    (returned : ∀ x ∈ record E s.store calls, x.result.isOk = true)
    (fresh : allFresh E s.store calls = true) :
    ∃ moves s', Systems.Run Occ.State.Step s moves s' ∧ s'.store = play E s.store calls ∧
      (∀ i, s'.session i = none) ∧ s'.log.length = s.log.length + calls.length ∧
      (FreshIds s.log → FreshIds s'.log) := by
  induction calls generalizing s with
  | nil => exact ⟨[], s, .nil, rfl, free, rfl, id⟩
  | cons c calls ih =>
    simp only [allFresh, Bool.and_eq_true] at fresh
    obtain ⟨r, hr⟩ := Call.returns (returned _ (List.mem_cons_self ..))
    have hatomic : Program.atomic c.env c.operation.program s.store = (.ok r, c.after s.store) :=
      Prod.ext hr rfl
    obtain ⟨ms, s₁, run, hstore, hsession, hlog⟩ :=
      Occ.State.run_commit (s := s.setSession 0 (some (.begin s c.operation c.env)))
        (Function.update_self ..) hatomic
    have hfree : ∀ i, s₁.session i = none := by
      intro i
      rw [hsession]
      by_cases hi : i = 0
      · rw [hi, Function.update_self]
      · rw [Function.update_of_ne hi]
        exact (Function.update_of_ne hi _ _).trans (free i)
    have hrest : ∀ x ∈ record E s₁.store calls, x.result.isOk = true := by
      rw [hstore]
      exact fun x hx => returned x (List.mem_cons_of_mem _ hx)
    obtain ⟨ms', s₂, run', hstore', hfree', hlength, hfresh⟩ :=
      ih hfree hrest (hstore.symm ▸ fresh.2)
    have hbegin : Occ.State.Step s (.begin 0 c.operation c.env) _ := .begin _ _ (free 0)
    refine ⟨_, s₂, (run.cons hbegin).append run', ?_, hfree', ?_, fun h => hfresh ?_⟩
    · rw [hstore', hstore]
      rfl
    · rw [hlength, hlog, List.length_append]
      change s.log.length + 1 + calls.length = s.log.length + (calls.length + 1)
      omega
    · rw [hlog]
      intro x hx
      rcases List.mem_append.mp hx with hx | hx
      · exact h x hx
      · rw [List.mem_singleton.mp hx]
        exact Call.fresh_of_isFresh fresh.1

namespace Sample

noncomputable def twoWorkflows : List Call :=
  begin (definition false 0) ++
    [register { definition false 0 with workflowName := "bill" },
      ⟨.startWorkflow "bill" 1 .null, scripted 1000000 1 [] {}⟩]

noncomputable def pollOrder : Call :=
  poll 2000000 "first" (script 0 "ship" twoWorkflows)

noncomputable def pollBill : Call :=
  ⟨.pollAndClaimWorkflowSteps "bill" 1 "second" 1,
    scripted 2000000 0 (script 1 "ship" twoWorkflows) {}⟩

end Sample

theorem exists_claimed {c : Call} {db : E.Db} (h : Entry.claimed ⟨c, c.result db⟩ ≠ []) :
    ∃ s steps tx, s ∈ steps ∧
      Returns c.env c.operation.program (Tx.begin db) (.claimed steps) tx ∧
      tx = (Program.exec c.env c.operation.program (Tx.begin db)).2 := by
  cases hr : c.result db with
  | error e =>
    rw [hr] at h
    exact absurd rfl h
  | ok r =>
    rw [hr] at h
    cases r with
    | claimed steps =>
      obtain ⟨s, hs⟩ := List.exists_mem_of_ne_nil _ h
      obtain ⟨tx, hret, -⟩ := Call.result_ok hr
      exact ⟨s, steps, tx, hs, hret, (congrArg Prod.snd hret).symm⟩
    | _ => exact absurd rfl h

theorem calls_serializable_overlap :
    ∃ (moves : List (Occ.Move service)) (s : Occ.State service Sample.store)
      (x y : Commit Sample.store) (a b : WorkflowStepExecution),
      Systems.Run Occ.State.Step (Occ.State.empty Sample.store.empty) moves s ∧
      s.log[4]? = some x ∧ s.log[5]? = some y ∧ y.began ≤ 4 ∧
      a ∈ x.entry.claimed ∧ b ∈ y.entry.claimed ∧ a.stepKey ≠ b.stepKey := by
  obtain ⟨moves, s, run, hstore, hfree, hlength, hfresh⟩ :=
    concurrent_play Sample.twoWorkflows (s := Occ.State.empty Sample.store.empty) (fun _ => rfl)
      (by decide +kernel) (by decide +kernel)
  have hclaims : Entry.claimed ⟨Sample.pollOrder, Sample.pollOrder.result
      (Sample.after Sample.twoWorkflows)⟩ ≠ [] := by decide +kernel
  have hclaims' : Entry.claimed ⟨Sample.pollBill, Sample.pollBill.result
      (Sample.after Sample.twoWorkflows)⟩ ≠ [] := by decide +kernel
  have hforeign : ∀ w ∈ (Program.exec Sample.pollOrder.env Sample.pollOrder.operation.program
      (Tx.begin (Sample.after Sample.twoWorkflows))).2.writes,
      Occ.Foreign (Sample.after Sample.twoWorkflows) w (Program.exec Sample.pollBill.env
        Sample.pollBill.operation.program (Tx.begin (Sample.after Sample.twoWorkflows))).2 := by
    intro w hw
    refine ⟨?_, ?_, ?_⟩
    · revert w
      decide +kernel
    · unfold Occ.Selected
      revert w
      decide +kernel
    · unfold Occ.Selected
      revert w
      decide +kernel
  have hfreshOrder : ∀ db : Sample.store.Db, Sample.pollOrder.Fresh db :=
    fun db => Call.fresh_of_not_start fun name version input hop => by cases hop
  have hfreshBill : ∀ db : Sample.store.Db, Sample.pollBill.Fresh db :=
    fun db => Call.fresh_of_not_start fun name version input hop => by cases hop
  have hlog : s.log.length = 4 := hlength
  have hempty : FreshIds s.log := hfresh (by intro x hx; cases hx)
  change s.store = Sample.after Sample.twoWorkflows at hstore
  rw [← hstore] at hclaims hclaims' hforeign
  generalize Sample.pollOrder = order at hclaims hforeign hfreshOrder
  generalize Sample.pollBill = bill at hclaims' hforeign hfreshBill
  obtain ⟨a, steps, tx, ha, hret, rfl⟩ := exists_claimed hclaims
  obtain ⟨b, steps', tx', hb, hret', rfl⟩ := exists_claimed hclaims'
  obtain ⟨moves', s', run', hlog'⟩ := Occ.State.run_overlap (s := s) (i := 0) (j := 1)
    (by decide) (hfree 0) (hfree 1) hret hret' hforeign
  rw [hlog] at hlog'
  generalize Engine.applyWrites Sample.store s.store _ = db₁ at hlog'
  have hx : s'.log[4]? = some ⟨order.operation, order.env, 4, s.store, .claimed steps⟩ := by
    rw [hlog', List.getElem?_append_right (by omega), hlog]
    rfl
  have hy : s'.log[5]? = some ⟨bill.operation, bill.env, 4, db₁, .claimed steps'⟩ := by
    rw [hlog', List.getElem?_append_right (by omega), hlog]
    rfl
  have hfresh' : FreshIds s'.log := by
    intro x hx
    rw [hlog'] at hx
    rcases List.mem_append.mp hx with hx | hx
    · exact hempty x hx
    · rcases List.mem_cons.mp hx with rfl | hx
      · exact hfreshOrder _
      · rw [List.mem_singleton.mp hx]
        exact hfreshBill _
  obtain ⟨-, -, hapart⟩ := (calls_serializable (run.append run')).2 hfresh'
  exact ⟨_, s', _, _, a, b, run.append run', hx, hy, le_refl 4, ha, hb,
    (hapart 4 5 _ _ (by omega) hx hy (le_refl 4)).1 a ha b hb⟩

end WorkflowEngine
