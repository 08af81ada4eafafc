import WorkflowEngine.ClientPool

/-!
# Stopping the pool

The pollers, the executors and their keep-alive threads wait for each other at
the client mutex, for handlers and for calls of the client. A pool that is
stopping can come to its end from any point: the call that holds the mutex ends,
and then each thread on its own gets to its end.
-/

namespace WorkflowEngine
namespace ClientPool
open Systems ExecuteStep
open Transport (Request)
open WorkerPool (Shared Poller PollerEvent PollerStep Executor ExecutorEvent Stop)

variable {config : Config} {pool pool' : ClientPool} {events : List Event} {i : ℕ} {c c' : Common}
  {p p' : PollerThread} {x x' : ExecutorThread} {request : Request} {call call' : ClientCall}
  {locked locked' : Bool}

/-- The definitions that a poller has yet to come to in its cycle. -/
def rest : Poller → List ℕ
  | .scan _ rest | .polling _ rest _ | .polled _ rest _ _ | .threw _ rest _ => rest
  | .reserve _ defIdx rest => defIdx :: rest
  | _ => []

theorem rest_of_step {config : WorkerPool.Config} {s s' : Shared} {p p' : Poller} {e : PollerEvent}
    (h : PollerStep config i s p e s' p')
    (hrest : ∀ defIdx ∈ rest p, defIdx < config.definitions.length) :
    ∀ defIdx ∈ rest p', defIdx < config.definitions.length := by
  cases h with
  | enter => split <;> simp [rest]
  | begin h shuffle =>
    intro defIdx hmem
    have hsubset := shuffle.mem_iff.mp hmem
    simp only [WorkerPool.Config.subset, List.mem_filter, List.mem_range] at hsubset
    exact hsubset.1
  | full => exact fun defIdx hmem => hrest defIdx (List.mem_cons_of_mem _ hmem)
  | take => exact fun defIdx hmem => hrest defIdx (List.mem_cons_of_mem _ hmem)
  | leave | breakOff | again | wait | wake => simp [rest]
  | proceed | answer | throws | giveBack | deliver => exact hrest

theorem pollerStep_stopping {config : WorkerPool.Config} {s s' : Shared} {p p' : Poller}
    {e : PollerEvent} (h : PollerStep config i s p e s' p') : s'.stopping = s.stopping := by
  cases h <;> rfl

theorem executorStep_stopping {s s' : Shared} {x x' : Executor} {e : ExecutorEvent}
    (h : WorkerPool.ExecutorStep i s x e s' x') : s'.stopping = s.stopping := by
  cases h <;> rfl

/-- The parts of a pool fit its configuration, and its flag tells that `stop` was called. -/
structure Sound (config : WorkerPool.Config) (pool : WorkerPool.Pool) : Prop where
  count : pool.pollers.length = config.options.pollerCount
  indexed : ∀ p ∈ pool.pollers, ∀ defIdx ∈ rest p, defIdx < config.definitions.length
  stopping : pool.stop ≠ .notCalled → pool.shared.stopping = true

theorem Sound.step {config : WorkerPool.Config} {pool pool' : WorkerPool.Pool} {e : WorkerPool.Event}
    (h : Sound config pool) (hstep : WorkerPool.Step config pool e pool') : Sound config pool' := by
  obtain ⟨count, indexed, stopping⟩ := h
  cases hstep with
  | poller hmoves =>
    refine ⟨hmoves.length.trans count, fun q hq => ?_, fun hstop => ?_⟩
    · obtain ⟨p, p', hp, hlocal, -, hmem, -⟩ := hmoves.inv
      rcases hmem q hq with rfl | hq
      · exact rest_of_step hlocal (indexed p hp)
      · exact indexed q hq
    · obtain ⟨p, p', -, hlocal, -⟩ := hmoves.inv
      exact (pollerStep_stopping hlocal).trans (stopping hstop)
  | executor hmoves =>
    refine ⟨count, indexed, fun hstop => ?_⟩
    obtain ⟨x, x', -, hlocal, -⟩ := hmoves.inv
    exact (executorStep_stopping hlocal).trans (stopping hstop)
  | stop => exact ⟨count, indexed, fun _ => rfl⟩
  | joinPollers hstop => exact ⟨count, indexed, fun _ => stopping (by simp [hstop])⟩
  | joinExecutors hstop => exact ⟨count, indexed, fun _ => stopping (by simp [hstop])⟩

theorem sound_of_run (run : Run (Step config) (start config) events pool) :
    Sound config.pool pool.pool := by
  refine (run_pool run).invariant (I := Sound config.pool) (fun _ _ _ h hs => h.step hs) ⟨?_, ?_, ?_⟩
  · simp [WorkerPool.start]
  · intro p hp
    rw [List.eq_of_mem_replicate hp]
    simp [rest]
  · simp [WorkerPool.start]

def Quiet (c : Common) : Prop := c.shared.stopping = true ∧ c.locked = false

def PollerThread.CanEnd (config : WorkerPool.Config) (i : ℕ) (s : Shared) (p : PollerThread) : Prop :=
  CanReach (Alone (PollerThread.Step config) i) (fun x => Quiet x.1 ∧ x.2.poller = .done)
    (⟨s, false⟩, p)

theorem PollerThread.canEnd {config : WorkerPool.Config} {s : Shared}
    (indexed : ∀ defIdx ∈ rest p.poller, defIdx < config.definitions.length)
    (hstopping : s.stopping = true) (hnone : p.openCall = none) : p.CanEnd config i s := by
  obtain ⟨p, call⟩ := p
  have hdone : ∀ s call, s.stopping = true → PollerThread.CanEnd config i s ⟨.done, call⟩ :=
    fun s call h => .here ⟨⟨h, rfl⟩, rfl⟩
  have hcycle : ∀ s call, s.stopping = true → PollerThread.CanEnd config i s ⟨.cycle, call⟩ :=
    fun s call h => .alone (.own (.leave h) id) (hdone s _ h)
  have hempty : ∀ s foundWork call, s.stopping = true →
      PollerThread.CanEnd config i s ⟨.scan foundWork [], call⟩ :=
    fun s foundWork call h => .alone (.own (.again (.inr h)) id) (hcycle s _ h)
  have hscan : ∀ s foundWork rest call, s.stopping = true →
      PollerThread.CanEnd config i s ⟨.scan foundWork rest, call⟩ := by
    intro s foundWork rest call h
    cases rest with
    | nil => exact hempty s foundWork call h
    | cons defIdx rest => exact .alone (.own (.breakOff h) id) (hempty s _ _ h)
  have hthrew : ∀ s foundWork rest n call, s.stopping = true →
      PollerThread.CanEnd config i s ⟨.threw foundWork rest n, call⟩ :=
    fun s foundWork rest n call h => .alone (.own .giveBack id) (hscan _ _ _ _ h)
  have hwanted : ∀ s foundWork rest request, s.stopping = true →
      PollerThread.CanEnd config i s ⟨.polling foundWork rest request, .wanted⟩ :=
    fun s foundWork rest request h => .alone (.call .enter .enter) <|
      .alone (.throws .fail (.leave _ _) rfl .throws) (hthrew _ _ _ _ _ h)
  cases p with
  | entry =>
    have henter := @PollerStep.enter config i s
    by_cases hsubset : (config.subset i).isEmpty
    · rw [if_pos hsubset] at henter
      exact .alone (.own henter id) (hdone s _ hstopping)
    · rw [if_neg hsubset] at henter
      exact .alone (.own henter id) (hcycle s _ hstopping)
  | cycle => exact hcycle s call hstopping
  | scan foundWork rest => exact hscan s foundWork rest call hstopping
  | reserve foundWork defIdx rest =>
    by_cases hidle : s.idleExecutors ≤ 0
    · exact .alone (.own (.full hidle) id) (hscan s _ _ _ hstopping)
    · have hkey := List.getElem?_eq_getElem (indexed defIdx List.mem_cons_self)
      exact .alone (.own (.take hkey hidle) id) (hwanted _ _ _ _ hstopping)
  | polling foundWork rest request =>
    cases call with
    | wanted => exact hwanted s foundWork rest request hstopping
    | sent => cases hnone
    | served reply => cases hnone
  | polled foundWork rest n steps => exact .alone (.own .deliver id) (hscan _ _ _ _ hstopping)
  | threw foundWork rest n => exact hthrew s foundWork rest n call hstopping
  | waiting => exact .alone (.own .wake id) (hcycle s _ hstopping)
  | done => exact hdone s call hstopping

theorem call_free {e : CallEvent} (h : call.Step e (some call')) :
    Guards (callRequest request call).isSome e (callRequest request call').isSome := by
  cases h with
  | enter => exact .enter
  | serve reply => exact .serve _ _

theorem leave_free {e : CallEvent} (h : call.Step e none) : Guards locked e false := by
  cases h <;> exact .leave _ _

theorem keepAlive_free {done : Bool} {k k' : KeepAlive} {e : StageEvent}
    (h : k.Step request done e k') :
    EventGuards (keepAliveCall request k).isSome e (keepAliveCall request k').isSome := by
  cases h with
  | call h => exact .call (call_free h)
  | pinged h => exact .call (leave_free h)
  | _ => exact .internal _

theorem stage_free {workerId : String} {handlers : Handlers} {stage stage' : Stage} {e : StageEvent}
    (h : ExecuteStep.Step handlers workerId stage e stage') :
    EventGuards (stageCall workerId stage).isSome e (stageCall workerId stage').isSome := by
  cases h with
  | pingCalling h => exact keepAlive_free h
  | pingHandling h => exact keepAlive_free h
  | pingClosing h => exact keepAlive_free h
  | pingJoining h => exact keepAlive_free h
  | report h => exact .call (call_free h)
  | reported h => exact .call (leave_free h)
  | handle h => exact .begins _ _
  | finish h ends => exact .ends _ _ _
  | _ => exact .internal _

def ExecutorThread.CanEnd (config : Config) (i : ℕ) (s : Shared) (x : ExecutorThread) : Prop :=
  CanReach (Alone (ExecutorThread.Step config) i) (fun x => Quiet x.1 ∧ x.2 = .done) (⟨s, false⟩, x)

theorem ExecutorThread.canEnd {s : Shared} (terminating : Worker.Terminating config.handlers)
    (valid : x.Valid config.handlers) (hstopping : s.stopping = true)
    (hnone : x.openCall config.pool.workerId = none) : x.CanEnd config i s := by
  have hexecuting : ∀ s stage, Worker.Registered config.handlers stage →
      stageCall config.pool.workerId stage = none →
      (∀ idleExecutors,
        ExecutorThread.CanEnd config i { s with idleExecutors := idleExecutors } .waiting) →
      ExecutorThread.CanEnd config i s (.executing stage) := by
    intro s stage registered hfree hwaiting
    have hreturned : CanReach (Alone (ExecutorThread.Step config) i) _ _ :=
      (@Worker.canReach_returned config.worker terminating stage registered).embed
        (fun stage => ((⟨s, (stageCall config.pool.workerId stage).isSome⟩ : Common),
          ExecutorThread.executing stage)) ExecutorThread.Event.stage
        (fun _ _ _ h => .stage h (stage_free h))
    simp only [hfree] at hreturned
    refine hreturned.trans ?_
    rintro _ ⟨_, ⟨step, rfl⟩, rfl⟩
    exact .alone (.finish .finish) (hwaiting _)
  have hholding : ∀ s step, (∀ executed idleExecutors, ExecutorThread.CanEnd config i
      { s with executed := executed, idleExecutors := idleExecutors } .waiting) →
      ExecutorThread.CanEnd config i s (.holding step) := by
    intro s step hwaiting
    exact .alone (.execute .execute) (hexecuting _ _ trivial rfl fun _ => hwaiting _ _)
  have hwaiting : ∀ queue (s : Shared), s.stopping = true → ExecutorThread.CanEnd config i
      { s with workQueue := queue } .waiting := by
    intro queue
    induction queue with
    | nil => exact fun s h => .alone (.leave (.leave h rfl)) (.here ⟨⟨h, rfl⟩, rfl⟩)
    | cons step queue ih =>
      intro s h
      exact .alone (.take (.take rfl)) (hholding _ _ fun executed idleExecutors =>
        ih { s with executed := executed, idleExecutors := idleExecutors } h)
  cases x with
  | waiting => exact hwaiting s.workQueue s hstopping
  | holding step =>
    exact hholding s step fun executed idleExecutors =>
      hwaiting s.workQueue { s with executed := executed, idleExecutors := idleExecutors } hstopping
  | executing stage =>
    exact hexecuting s stage valid.1 hnone fun idleExecutors =>
      hwaiting s.workQueue { s with idleExecutors := idleExecutors } hstopping
  | done => exact .here ⟨⟨hstopping, rfl⟩, rfl⟩

theorem call_leaves (h : callRequest request call ≠ none) : call.Step (.leave none) none := by
  cases call with
  | wanted => exact absurd rfl h
  | sent => exact .fail
  | served reply => exact .lose reply

theorem PollerThread.leaves (h : p.openCall ≠ none) :
    ∃ e c' p', PollerThread.Step config.pool i c p e c' p' ∧ c'.locked = false := by
  obtain ⟨p, call⟩ := p
  cases p with
  | polling foundWork rest request =>
    exact ⟨_, _, _, .throws (call_leaves h) (.leave _ _) rfl .throws, rfl⟩
  | _ => exact absurd rfl h

theorem keepAlive_leaves {done : Bool} {k : KeepAlive} (h : keepAliveCall request k ≠ none) :
    ∃ e k', k.Step request done e k' ∧ EventGuards locked e false := by
  cases k with
  | pinging call => exact ⟨_, _, .pinged (call_leaves h), .call (.leave _ _)⟩
  | _ => exact absurd rfl h

theorem stage_leaves {workerId : String} {handlers : Handlers} {stage : Stage}
    (h : stageCall workerId stage ≠ none) :
    ∃ e stage', ExecuteStep.Step handlers workerId stage e stage' ∧ EventGuards locked e false := by
  cases stage with
  | calling step k =>
    obtain ⟨e, k', hstep, guards⟩ := keepAlive_leaves h
    exact ⟨e, _, .pingCalling hstep, guards⟩
  | handling step k =>
    obtain ⟨e, k', hstep, guards⟩ := keepAlive_leaves h
    exact ⟨e, _, .pingHandling hstep, guards⟩
  | closing step outcome k =>
    obtain ⟨e, k', hstep, guards⟩ := keepAlive_leaves h
    exact ⟨e, _, .pingClosing hstep, guards⟩
  | joining step outcome k =>
    obtain ⟨e, k', hstep, guards⟩ := keepAlive_leaves h
    exact ⟨e, _, .pingJoining hstep, guards⟩
  | reporting step outcome call => exact ⟨_, _, .reported (call_leaves h), .call (.leave _ _)⟩
  | _ => exact absurd rfl h

theorem ExecutorThread.leaves (h : x.openCall config.pool.workerId ≠ none) :
    ∃ e c' x', ExecutorThread.Step config i c x e c' x' ∧ c'.locked = false := by
  cases x with
  | executing stage =>
    obtain ⟨e, stage', hstep, guards⟩ := stage_leaves h
    exact ⟨_, _, _, .stage hstep guards, rfl⟩
  | _ => exact absurd rfl h

theorem unlocks (one : (openCalls config pool).length = pool.common.locked.toNat)
    (hlocked : pool.common.locked = true) : ∃ e pool', Step config pool e pool' ∧
      pool'.common.locked = false ∧ pool'.stop = pool.stop := by
  obtain ⟨common, pollers, executors, stop⟩ := pool
  have hopen : openCalls config ⟨common, pollers, executors, stop⟩ ≠ [] := by
    intro hnil
    rw [hnil, hlocked] at one
    cases one
  obtain ⟨request, hrequest⟩ := List.exists_mem_of_ne_nil _ hopen
  rcases List.mem_append.mp hrequest with hmem | hmem
  · obtain ⟨p, hp, hcall⟩ := List.mem_filterMap.mp hmem
    obtain ⟨before, after, rfl⟩ := List.append_of_mem hp
    have hleaves : ∃ e c' p', PollerThread.Step config.pool before.length common p e c' p' ∧
        c'.locked = false := PollerThread.leaves (by simp [hcall])
    obtain ⟨e, c', p', hstep, hfree⟩ := hleaves
    exact ⟨_, _, .poller (.mk before after hstep), hfree, rfl⟩
  · obtain ⟨x, hx, hcall⟩ := List.mem_filterMap.mp hmem
    obtain ⟨before, after, rfl⟩ := List.append_of_mem hx
    have hleaves : ∃ e c' x', ExecutorThread.Step config before.length common x e c' x' ∧
        c'.locked = false := ExecutorThread.leaves (by simp [hcall])
    obtain ⟨e, c', x', hstep, hfree⟩ := hleaves
    exact ⟨_, _, .executor (.mk before after hstep), hfree, rfl⟩

theorem one_call (run : Run (Step config) (start config) events pool) :
    (openCalls config pool).length = pool.common.locked.toNat :=
  run.invariant (I := fun pool => (openCalls config pool).length = pool.common.locked.toNat)
    (fun _ _ _ one h => (h.client one).1) (by rw [openCalls_start]; rfl)

theorem canReach_unlocked (run : Run (Step config) (start config) events pool) :
    CanReach (Step config) (fun t => (∃ events, Run (Step config) (start config) events t) ∧
      t.common.locked = false ∧ t.stop = pool.stop) pool := by
  cases hlocked : pool.common.locked with
  | false => exact .here ⟨⟨events, run⟩, hlocked, rfl⟩
  | true =>
    obtain ⟨e, pool', hstep, hfree, hstop⟩ := unlocks (one_call run) hlocked
    exact .cons hstep (.here ⟨⟨_, run.snoc hstep⟩, hfree, hstop⟩)

theorem pollers_canEnd (hquiet : Quiet pool.common) (hpollers : ∀ p ∈ pool.pollers,
      (∀ defIdx ∈ rest p.poller, defIdx < config.pool.definitions.length) ∧ p.openCall = none) :
    CanReach (Step config) (fun t => Quiet t.common ∧ (∀ p ∈ t.pollers, p.poller = .done) ∧
      t.executors = pool.executors ∧ t.stop = pool.stop) pool := by
  have hlead : ∀ i c (p : PollerThread), Quiet c →
      (∀ defIdx ∈ rest p.poller, defIdx < config.pool.definitions.length) ∧ p.openCall = none →
      CanReach (Alone (PollerThread.Step config.pool) i)
        (fun x => Quiet x.1 ∧ x.2.poller = .done) (c, p) := by
    rintro i ⟨s, locked⟩ p ⟨hstopping, rfl⟩ ⟨indexed, hnone⟩
    exact PollerThread.canEnd indexed hstopping hnone
  have hall : CanReach (Step config) _ _ :=
    (canReach_all (fun p => p.poller = .done) hlead hquiet hpollers).embed
      (fun x : Common × List PollerThread => { pool with common := x.1, pollers := x.2 })
      (fun l : ℕ × PollerThread.Event => Event.poller l.1 l.2) (fun _ _ _ h => .poller h)
  refine hall.trans ?_
  rintro _ ⟨x, ⟨hx, hdone⟩, rfl⟩
  exact .here ⟨hx, hdone, rfl, rfl⟩

theorem executors_canEnd (terminating : Worker.Terminating config.handlers) (hquiet : Quiet pool.common)
    (hexecutors : ∀ x ∈ pool.executors,
      x.Valid config.handlers ∧ x.openCall config.pool.workerId = none) :
    CanReach (Step config) (fun t => (∀ x ∈ t.executors, x = .done) ∧ t.pollers = pool.pollers ∧
      t.stop = pool.stop) pool := by
  have hlead : ∀ i c (x : ExecutorThread), Quiet c →
      x.Valid config.handlers ∧ x.openCall config.pool.workerId = none →
      CanReach (Alone (ExecutorThread.Step config) i) (fun y => Quiet y.1 ∧ y.2 = .done) (c, x) := by
    rintro i ⟨s, locked⟩ x ⟨hstopping, rfl⟩ ⟨valid, hnone⟩
    exact ExecutorThread.canEnd terminating valid hstopping hnone
  have hall : CanReach (Step config) _ _ :=
    (canReach_all (· = .done) hlead hquiet hexecutors).embed
      (fun x : Common × List ExecutorThread => { pool with common := x.1, executors := x.2 })
      (fun l : ℕ × ExecutorThread.Event => Event.executor l.1 l.2) (fun _ _ _ h => .executor h)
  refine hall.trans ?_
  rintro _ ⟨x, ⟨-, hdone⟩, rfl⟩
  exact .here ⟨hdone, rfl, rfl⟩

theorem canReach_done (terminating : Worker.Terminating config.handlers)
    (run : Run (Step config) (start config) events pool) (hlocked : pool.common.locked = false)
    (hstop : pool.stop ≠ .notCalled) :
    CanReach (Step config) (fun t => (∀ p ∈ t.pollers, p.poller = .done) ∧
      (∀ x ∈ t.executors, x = .done) ∧ t.stop = pool.stop) pool := by
  have sound := sound_of_run run
  have valid := (accounted_of_run run).valid
  have hopen : openCalls config pool = [] :=
    List.eq_nil_of_length_eq_zero ((one_call run).trans (by simp [hlocked]))
  obtain ⟨hpollers, hexecutors⟩ := List.append_eq_nil_iff.mp hopen
  rw [List.filterMap_eq_nil_iff] at hpollers hexecutors
  refine (pollers_canEnd ⟨sound.stopping hstop, hlocked⟩ fun p hp =>
    ⟨sound.indexed _ (List.mem_map_of_mem hp), hpollers p hp⟩).trans ?_
  rintro t ⟨hquiet, hdone, hsame, ht⟩
  refine (executors_canEnd terminating hquiet fun x hx => ?_).trans ?_
  · rw [hsame] at hx
    exact ⟨valid x hx, hexecutors x hx⟩
  · rintro u ⟨hdone', hsame', hu⟩
    exact .here ⟨by rwa [hsame'], hdone', hu.trans ht⟩

theorem canReach_joined (hpollers : ∀ p ∈ pool.pollers, p.poller = .done)
    (hexecutors : ∀ x ∈ pool.executors, x = .done) (hstop : pool.stop ≠ .notCalled) :
    CanReach (Step config) (fun t => t.stop = .returned) pool := by
  obtain ⟨common, pollers, executors, stop⟩ := pool
  have hjoining : CanReach (Step config) (fun t => t.stop = .returned)
      ⟨common, pollers, executors, .joiningExecutors⟩ :=
    .cons (.joinExecutors rfl hexecutors) (.here rfl)
  cases stop with
  | notCalled => exact absurd rfl hstop
  | joiningPollers => exact .cons (.joinPollers rfl hpollers) hjoining
  | joiningExecutors => exact hjoining
  | returned => exact .here rfl

def pollsOf (i : ℕ) (events : List Event) : List (Option (Except Exception Transport.Response)) :=
  events.filterMap fun
    | .poller j e => if j = i then e.message.bind Worker.Message.polled else none
    | _ => none

/-- How many polls a poller of a pool that is stopping may still make. -/
def pollsLeft : Poller → ℕ
  | .reserve _ _ _ | .polling _ _ _ => 1
  | _ => 0

def PollerThread.Event.polls (e : PollerThread.Event) : ℕ :=
  (e.message.bind Worker.Message.polled).toList.length

def Event.pollsOf (i : ℕ) : Event → ℕ
  | .poller j e => if j = i then e.polls else 0
  | _ => 0

theorem pollsOf_length (i : ℕ) (events : List Event) :
    (pollsOf i events).length = (events.map (Event.pollsOf i)).sum := by
  refine (length_filterMap _ _).trans (congrArg List.sum (List.map_congr_left fun e _ => ?_))
  cases e with
  | poller j e =>
    dsimp only [Event.pollsOf]
    split_ifs <;> rfl
  | _ => rfl

theorem PollerThread.Step.stopping {e : PollerThread.Event}
    (h : PollerThread.Step config.pool i c p e c' p') : c'.shared.stopping = c.shared.stopping := by
  rcases h.hides with ⟨-, hsame, -⟩ | ⟨m, -, hstep⟩
  · rw [hsame]
  · exact pollerStep_stopping hstep

theorem ExecutorThread.Step.stopping {e : ExecutorThread.Event}
    (h : ExecutorThread.Step config i c x e c' x') : c'.shared.stopping = c.shared.stopping := by
  rcases h.hides with ⟨-, hsame, -⟩ | ⟨m, -, hstep⟩
  · rw [hsame]
  · exact executorStep_stopping hstep

theorem PollerThread.Step.pollsLeft {e : PollerThread.Event}
    (h : PollerThread.Step config.pool i c p e c' p') (hstopping : c.shared.stopping = true) :
    e.polls + ClientPool.pollsLeft p'.poller ≤ ClientPool.pollsLeft p.poller := by
  cases h with
  | own h own =>
    cases h with
    | enter => split <;> exact Nat.le_refl _
    | begin hrunning => exact absurd hstopping (by simp [hrunning])
    | proceed hrunning => exact absurd hstopping (by simp [hrunning])
    | wait hrunning => exact absurd hstopping (by simp [hrunning])
    | answer => exact absurd trivial own
    | throws => exact absurd trivial own
    | full => exact Nat.zero_le _
    | _ => exact Nat.le_refl _
  | call h guards => cases h <;> exact Nat.le_refl _
  | answer h guards answered step =>
    cases step
    exact Nat.le_refl _
  | throws h guards threw step =>
    cases step
    exact Nat.le_refl _

def pollsLeftOf (i : ℕ) (pool : ClientPool) : ℕ :=
  pool.pollers[i]?.elim 0 fun p => pollsLeft p.poller

theorem pollsLeftOf_le (i : ℕ) (pool : ClientPool) : pollsLeftOf i pool ≤ 1 := by
  unfold pollsLeftOf
  cases pool.pollers[i]? with
  | none => exact Nat.zero_le _
  | some p =>
    change pollsLeft p.poller ≤ 1
    unfold pollsLeft
    split <;> decide

theorem Step.pollsLeft {e : Event} (i : ℕ) (hstopping : pool.common.shared.stopping = true)
    (h : Step config pool e pool') : pool'.common.shared.stopping = true ∧
      e.pollsOf i + pollsLeftOf i pool' ≤ pollsLeftOf i pool := by
  cases h with
  | @poller j e common pollers hmoves =>
    obtain ⟨p, p', hp, hlocal, hp', hothers⟩ := hmoves.getElem?
    refine ⟨hlocal.stopping.trans hstopping, ?_⟩
    simp only [pollsLeftOf, Event.pollsOf]
    by_cases hij : j = i
    · subst hij
      rw [if_pos rfl, hp, hp']
      exact hlocal.pollsLeft hstopping
    · rw [if_neg hij, hothers i (Ne.symm hij), Nat.zero_add]
  | executor hmoves =>
    obtain ⟨x, x', -, hlocal, -⟩ := hmoves.inv
    exact ⟨hlocal.stopping.trans hstopping, Nat.le_of_eq (Nat.zero_add _)⟩
  | stop => exact ⟨rfl, Nat.le_of_eq (Nat.zero_add _)⟩
  | joinPollers | joinExecutors => exact ⟨hstopping, Nat.le_of_eq (Nat.zero_add _)⟩

/-- A call of `stop` can always return if handlers can end: no thread waits for another for ever. From
the call on, each poller makes at most one more poll. -/
theorem stop_can_return (terminating : Worker.Terminating config.handlers)
    (run : Run (Step config) (start config) events pool) :
    (pool.stop ≠ .notCalled → CanReach (Step config) (fun t => t.stop = .returned) pool) ∧
    ∀ before after, events = before ++ .stop :: after → ∀ i, (pollsOf i after).length ≤ 1 := by
  refine ⟨fun hstop => ?_, ?_⟩
  · refine (canReach_unlocked run).trans ?_
    rintro t ⟨⟨_, run⟩, hfree, ht⟩
    refine (canReach_done terminating run hfree (by rwa [ht])).trans ?_
    rintro u ⟨hpollers, hexecutors, hu⟩
    exact canReach_joined hpollers hexecutors (by rwa [hu, ht])
  · rintro before after rfl i
    obtain ⟨s, -, hrest⟩ := run.append_inv
    obtain ⟨t, hstop, hafter⟩ := hrest.cons_inv
    have hstopping : t.common.shared.stopping = true := by
      cases hstop
      rfl
    obtain ⟨-, hbudget⟩ := hafter.budget (I := fun pool => pool.common.shared.stopping = true)
      (Event.pollsOf i) (pollsLeftOf i) (fun _ _ _ hstopping h => h.pollsLeft i hstopping) hstopping
    have hleft := pollsLeftOf_le i t
    rw [pollsOf_length]
    omega

theorem stop_can_return_single : ∃ events pool, openCalls single pool ≠ [] ∧
    CanReach (Step single) (fun t => t.stop = .returned) pool ∧
    ∀ before after, events = before ++ .stop :: after → ∀ i, (pollsOf i after).length ≤ 1 := by
  have run : ∃ events pool, Run (Step single) (start single) events pool ∧
      openCalls single pool ≠ [] ∧ pool.stop = .joiningPollers := by
    refine ⟨_, _, .cons (.poller (.mk [] [] (.own .enter id))) <|
      .cons (.poller (.mk [] [] (.own (@PollerStep.begin _ 0 _ [0] rfl (.refl _)) id))) <|
      .cons (.poller (.mk [] [] (.own (.proceed rfl) id))) <|
      .cons (.poller (.mk [] [] (.own
        (@PollerStep.take _ 0 _ _ _ _ ⟨"orders", 1⟩ rfl (by decide)) id))) <|
      .cons (.poller (.mk [] [] (.call .enter .enter))) <|
      .cons (.stop rfl) .nil, ?_, rfl⟩
    exact List.cons_ne_nil _ _
  obtain ⟨events, pool, run, hopen, hstop⟩ := run
  obtain ⟨hreturns, hpolls⟩ := stop_can_return Worker.shipper_terminating run
  exact ⟨events, pool, hopen, hreturns (by simp [hstop]), hpolls⟩

end ClientPool
end WorkflowEngine
