import WorkflowEngine.Sweeping
import WorkflowEngine.Systems.Traces

/-!
# The service's sweep thread

The service keeps a thread that sweeps at intervals until the service is
destroyed. The thread waits on a condition variable under a mutex, gives the
mutex back while it sweeps, and an exception that leaves the sweep ends the
process. The destructor sets the flag under the mutex and joins the thread.
Clients call the service meanwhile; `C` says what calls they make.
-/

namespace WorkflowEngine
open Txn Txn.Program Systems Orchestrator

namespace SweepThread

inductive Thread where
  /-- Wants the mutex. -/
  | locking
  /-- At the head of the loop. -/
  | checking
  /-- In `wait_for`. -/
  | waiting
  /-- Past `wait_for`, for whatever reason it returned. -/
  | woken
  | sweeping
  | ended
  /-- The sweep threw. -/
  | terminated

def Thread.HoldsMutex : Thread → Prop
  | .checking | .woken => True
  | _ => False

inductive Destructor where
  | notCalled
  | stopped
  | joining
  | returned

end SweepThread

open SweepThread in
structure Service (E : Engine schema) where
  db : E.Db
  thread : Thread := .locking
  stopping : Bool := false
  destructor : Destructor := .notCalled

namespace SweepThread

inductive ServiceEvent where
  | internal
  | swept (x : Entry)
  | called (x : Entry)
  | stop
  | notify
  | join

def Thread.afterSweep (x : Entry) : Thread :=
  if x.result.isOk then .locking else .terminated

variable {E : Engine schema}

inductive Step (C : E.Db → Entry → Prop) : Service E → ServiceEvent → Service E → Prop
  | lock {s : Service E} (h : s.thread = .locking) :
      Step C s .internal { s with thread := .checking }
  | leave {s : Service E} (h : s.thread = .checking) (stopping : s.stopping = true) :
      Step C s .internal { s with thread := .ended }
  | wait {s : Service E} (h : s.thread = .checking) (going : s.stopping = false) :
      Step C s .internal { s with thread := .waiting }
  | wake {s : Service E} (h : s.thread = .waiting) :
      Step C s .internal { s with thread := .woken }
  | recheck {s : Service E} (h : s.thread = .woken) (stopping : s.stopping = true) :
      Step C s .internal { s with thread := .checking }
  | sweep {s : Service E} (h : s.thread = .woken) (going : s.stopping = false) :
      Step C s .internal { s with thread := .sweeping }
  | swept {s : Service E} {x : Entry} {db : E.Db} (h : s.thread = .sweeping)
      (operation : x.call.operation = .sweepExpiredLeases) (served : Entry.Step s.db x db) :
      Step C s (.swept x) { s with db := db, thread := .afterSweep x }
  | called {s : Service E} {x : Entry} {db : E.Db} (alive : s.thread ≠ .terminated)
      (allowed : C s.db x) (served : Entry.Step s.db x db) :
      Step C s (.called x) { s with db := db }
  | stop {s : Service E} (alive : s.thread ≠ .terminated) (free : ¬ s.thread.HoldsMutex)
      (h : s.destructor = .notCalled) :
      Step C s .stop { s with stopping := true, destructor := .stopped }
  | notify {s : Service E} (alive : s.thread ≠ .terminated) (h : s.destructor = .stopped) :
      Step C s .notify { s with destructor := .joining }
  | join {s : Service E} (h : s.destructor = .joining) (ended : s.thread = .ended) :
      Step C s .join { s with destructor := .returned }

variable {C : E.Db → Entry → Prop} {s s' : Service E} {e : ServiceEvent} {events : List ServiceEvent}
  {x : Entry} {db : E.Db}

def KeepsSteps (db : E.Db) (x : Entry) : Prop := x.call.Served ∧ x.call.KeepsSteps db

structure Running (s : Service E) : Prop where
  alive : s.thread ≠ .terminated
  unended : s.stopping = false → s.thread ≠ .ended
  stopped : s.destructor ≠ .notCalled → s.stopping = true
  kept : ∃ calls, Kept E E.empty calls s.db

theorem completes_of_kept {calls : List Call} {c : Call} (kept : Kept E E.empty calls db)
    (hop : c.operation = .sweepExpiredLeases) : Completes db c := by
  obtain ⟨sound, placed⟩ := kept.placed
  rw [completes_iff sound hop]
  intro row d overdue
  obtain ⟨e, he, hr, hk, registered, hd, rfl⟩ := overdue.execution
  have hname : e.fromRow.currentStepName = row.stepName := congrArg StepKey.stepName hk
  rw [← hname]
  exact placed.current _ _ _ (view_execution.mpr ⟨e, he, rfl⟩) hr
    (Encoded.definition (k := e.fromRow.versionKey) hd)

theorem keepsSteps_of_sweep (hop : x.call.operation = .sweepExpiredLeases) : KeepsSteps db x := by
  constructor
  · intro d hd
    rw [hop] at hd
    cases hd
  · intro d hd
    rw [hop] at hd
    cases hd

theorem afterSweep_locking (hx : x.result = x.call.result db) (h : Completes db x.call) :
    Thread.afterSweep x = .locking := by
  obtain ⟨r, hr⟩ := h.returns
  rw [Thread.afterSweep, hx, hr]
  rfl

theorem Step.running (h : Step KeepsSteps s e s') (running : Running s) : Running s' := by
  obtain ⟨calls, kept⟩ := running.kept
  cases h with
  | @swept x db h operation served =>
    have locking := afterSweep_locking served.2 (completes_of_kept kept operation)
    have kept' := kept.snoc ⟨served.1, keepsSteps_of_sweep operation⟩
    constructor
    · rw [locking]
      nofun
    · rw [locking]
      nofun
    · exact running.stopped
    · exact ⟨calls ++ [x.call], kept'⟩
  | @called x db alive allowed served =>
    exact ⟨alive, running.unended, running.stopped, calls ++ [x.call], kept.snoc ⟨served.1, allowed⟩⟩
  | stop alive free h => exact ⟨alive, nofun, fun _ => rfl, calls, kept⟩
  | notify alive h =>
    have called : s.destructor ≠ .notCalled := by
      rw [h]
      nofun
    exact ⟨alive, running.unended, fun _ => running.stopped called, calls, kept⟩
  | join h ended =>
    have called : s.destructor ≠ .notCalled := by
      rw [h]
      nofun
    exact ⟨running.alive, running.unended, fun _ => running.stopped called, calls, kept⟩
  | leave h stopping =>
    exact ⟨nofun, fun going => absurd (stopping.symm.trans going) (by decide), running.stopped, calls,
      kept⟩
  | _ => exact ⟨nofun, fun _ => nofun, running.stopped, calls, kept⟩

theorem running_start : Running ({ db := E.empty } : Service E) :=
  ⟨nofun, fun _ => nofun, fun called => absurd rfl called, [], .nil⟩

theorem running_of_run (run : Run (Step KeepsSteps) s events s') (running : Running s) :
    Running s' :=
  run.invariant (fun _ _ _ running step => step.running running) running

theorem Running.sweeps (running : Running s) (going : s.stopping = false) :
    ∃ n ≤ 4, Run (Step C) s (List.replicate n .internal) { s with thread := .sweeping } := by
  obtain ⟨db, thread, stopping, destructor⟩ := s
  obtain rfl : stopping = false := going
  have woken : Run (Step C) ⟨db, .woken, false, destructor⟩ (List.replicate 1 .internal)
      ⟨db, .sweeping, false, destructor⟩ := .single (.sweep rfl rfl)
  have waiting : Run (Step C) ⟨db, .waiting, false, destructor⟩ (List.replicate 2 .internal)
      ⟨db, .sweeping, false, destructor⟩ := .cons (.wake rfl) woken
  have checking : Run (Step C) ⟨db, .checking, false, destructor⟩ (List.replicate 3 .internal)
      ⟨db, .sweeping, false, destructor⟩ := .cons (.wait rfl rfl) waiting
  have locking : Run (Step C) ⟨db, .locking, false, destructor⟩ (List.replicate 4 .internal)
      ⟨db, .sweeping, false, destructor⟩ := .cons (.lock rfl) checking
  cases thread with
  | locking => exact ⟨4, by decide, locking⟩
  | checking => exact ⟨3, by decide, checking⟩
  | waiting => exact ⟨2, by decide, waiting⟩
  | woken => exact ⟨1, by decide, woken⟩
  | sweeping => exact ⟨0, by decide, .nil⟩
  | ended => exact absurd rfl (running.unended rfl)
  | terminated => exact absurd rfl running.alive

theorem run_of_kept {calls : List Call} {db' : E.Db} (kept : Kept E db calls db')
    (thread : Thread) (alive : thread ≠ .terminated) :
    ∃ events, Run (Step KeepsSteps) ⟨db, thread, false, .notCalled⟩ events
      ⟨db', thread, false, .notCalled⟩ := by
  induction kept with
  | nil => exact ⟨[], .nil⟩
  | @snoc db₁ db₂ calls c kept last ih =>
    obtain ⟨events, run⟩ := ih
    let x : Entry := ⟨c, c.result db₁⟩
    have called : Step KeepsSteps ⟨db₁, thread, false, .notCalled⟩ (.called x)
        ⟨db₂, thread, false, .notCalled⟩ := .called alive last.2 ⟨last.1, rfl⟩
    exact ⟨events ++ [.called x], .snoc run called⟩

/-- While its clients keep the steps that are in use, the service does not lose its process to a
sweep: in every state that it reaches a sweep completes, and until the destructor is called the
thread comes to one. -/
theorem service_keeps_sweeping
    (run : Run (Step KeepsSteps) ({ db := E.empty } : Service E) events s) :
    s.thread ≠ .terminated ∧
      (∀ c : Call, c.operation = .sweepExpiredLeases → Completes s.db c) ∧
      (s.stopping = false → ∃ n ≤ 4, Run (Step KeepsSteps) s (List.replicate n .internal)
        { s with thread := .sweeping }) := by
  have running := running_of_run run running_start
  obtain ⟨calls, kept⟩ := running.kept
  exact ⟨running.alive, fun c => completes_of_kept kept, running.sweeps⟩

theorem service_keeps_sweeping_shipping : ∃ s : Service Sample.store,
    s.db = Sample.after Sample.shipping ∧
    Completes s.db (Sample.sweep 20000000000 (Sample.script 0 "ship" Sample.shipping)) ∧
    ∃ n ≤ 4, Run (Step KeepsSteps) s (List.replicate n .internal)
      { s with thread := .sweeping } := by
  obtain ⟨events, run⟩ := run_of_kept kept_shipping .locking nofun
  have hop : (Sample.sweep 20000000000 (Sample.script 0 "ship" Sample.shipping)).operation =
      .sweepExpiredLeases := rfl
  generalize Sample.sweep 20000000000 (Sample.script 0 "ship" Sample.shipping) = c at *
  obtain ⟨-, completes, sweeps⟩ := service_keeps_sweeping run
  exact ⟨_, rfl, completes c hop, sweeps rfl⟩

def ServiceEvent.sweeps : ServiceEvent → ℕ
  | .swept _ => 1
  | _ => 0

/-- Sweeps that the thread still ends once the flag is set. -/
def Thread.sweepsLeft : Thread → ℕ
  | .sweeping => 1
  | _ => 0

theorem Thread.afterSweep_sweepsLeft (x : Entry) : (Thread.afterSweep x).sweepsLeft = 0 := by
  unfold Thread.afterSweep
  split_ifs <;> rfl

theorem Step.sweepsLeft (h : Step C s e s') (stopping : s.stopping = true) :
    s'.stopping = true ∧ e.sweeps + s'.thread.sweepsLeft ≤ s.thread.sweepsLeft := by
  cases h with
  | @swept x db h operation served =>
    refine ⟨stopping, ?_⟩
    rw [h]
    exact Nat.le_of_eq (congrArg (1 + ·) (Thread.afterSweep_sweepsLeft x))
  | wait h going => exact absurd (stopping.symm.trans going) (by decide)
  | sweep h going => exact absurd (stopping.symm.trans going) (by decide)
  | stop alive free h => exact ⟨rfl, Nat.le_of_eq (Nat.zero_add _)⟩
  | called | notify | join => exact ⟨stopping, Nat.le_of_eq (Nat.zero_add _)⟩
  | _ => exact ⟨stopping, Nat.zero_le _⟩

theorem Running.ends (running : Running s) (stopping : s.stopping = true) :
    CanReach (Step KeepsSteps) (fun t => t.destructor = s.destructor ∧ t.thread = .ended) s := by
  obtain ⟨db, thread, flag, destructor⟩ := s
  obtain rfl : flag = true := stopping
  let Ends (db : E.Db) (thread : Thread) : Prop :=
    CanReach (Step KeepsSteps) (fun t => t.destructor = destructor ∧ t.thread = .ended)
      (⟨db, thread, true, destructor⟩ : Service E)
  have ended (db : E.Db) : Ends db .ended := .here ⟨rfl, rfl⟩
  have checking (db : E.Db) : Ends db .checking := .cons (.leave rfl rfl) (ended db)
  have locking (db : E.Db) : Ends db .locking := .cons (.lock rfl) (checking db)
  have woken : Ends db .woken := .cons (.recheck rfl rfl) (checking db)
  have waiting : Ends db .waiting := .cons (.wake rfl) woken
  cases thread with
  | locking => exact locking db
  | checking => exact checking db
  | waiting => exact waiting
  | woken => exact woken
  | ended => exact ended db
  | terminated => exact absurd rfl running.alive
  | sweeping =>
    obtain ⟨calls, kept⟩ := running.kept
    let c : Call := ⟨.sweepExpiredLeases, scripted 0 0 [] {}⟩
    have served : Entry.Step db ⟨c, c.result db⟩ (c.after db) :=
      ⟨⟨Call.fresh_of_not_start nofun, rfl⟩, rfl⟩
    have swept : Step KeepsSteps ⟨db, .sweeping, true, destructor⟩ (.swept ⟨c, c.result db⟩)
        ⟨c.after db, .afterSweep ⟨c, c.result db⟩, true, destructor⟩ := .swept rfl rfl served
    rw [afterSweep_locking rfl (completes_of_kept kept rfl)] at swept
    exact .cons swept (locking _)

theorem Running.returns (running : Running s) (called : s.destructor ≠ .notCalled) :
    CanReach (Step KeepsSteps) (fun t => t.destructor = .returned) s := by
  refine (running.ends (running.stopped called)).trans ?_
  rintro ⟨db, thread, stopping, destructor⟩ ⟨hdestructor, ended⟩
  obtain rfl : destructor = s.destructor := hdestructor
  obtain rfl : thread = .ended := ended
  generalize s.destructor = destructor at called ⊢
  let Returns (destructor : Destructor) : Prop :=
    CanReach (Step KeepsSteps) (fun t => t.destructor = .returned)
      (⟨db, .ended, stopping, destructor⟩ : Service E)
  have returned : Returns .returned := .here rfl
  have joining : Returns .joining := .cons (.join rfl rfl) returned
  have stopped : Returns .stopped := .cons (.notify nofun rfl) joining
  cases destructor with
  | notCalled => exact absurd rfl called
  | stopped => exact stopped
  | joining => exact joining
  | returned => exact returned

/-- A call of the destructor can always return, and once it has set the flag no sweep ends but the one
that was under way. -/
theorem destructor_returns
    (run : Run (Step KeepsSteps) ({ db := E.empty } : Service E) events s) :
    (s.destructor ≠ .notCalled →
      CanReach (Step KeepsSteps) (fun t => t.destructor = .returned) s) ∧
    ∀ t u after, Step KeepsSteps s .stop t → Run (Step KeepsSteps) t after u →
      (after.map ServiceEvent.sweeps).sum ≤ s.thread.sweepsLeft := by
  refine ⟨(running_of_run run running_start).returns, fun t u after hstop hafter => ?_⟩
  cases hstop with
  | stop alive free h =>
    obtain ⟨-, hbudget⟩ := hafter.budget (I := fun s => s.stopping = true) ServiceEvent.sweeps
      (fun s => s.thread.sweepsLeft) (fun _ _ _ stopping h => h.sweepsLeft stopping) rfl
    exact (Nat.le_add_right _ _).trans hbudget

theorem destructor_returns_sweeping : ∃ s t : Service Sample.store, s.thread = .sweeping ∧
    Step KeepsSteps s .stop t ∧ CanReach (Step KeepsSteps) (fun t => t.destructor = .returned) t ∧
    ∀ u after, Run (Step KeepsSteps) t after u → (after.map ServiceEvent.sweeps).sum ≤ 1 := by
  have run : Run (Step KeepsSteps) ({ db := Sample.store.empty } : Service Sample.store)
      [.internal, .internal, .internal, .internal] ⟨Sample.store.empty, .sweeping, false, .notCalled⟩ :=
    .cons (.lock rfl) <| .cons (.wait rfl rfl) <| .cons (.wake rfl) <| .single (.sweep rfl rfl)
  have stop : Step KeepsSteps
      (⟨Sample.store.empty, .sweeping, false, .notCalled⟩ : Service Sample.store) .stop
      ⟨Sample.store.empty, .sweeping, true, .stopped⟩ := .stop nofun id rfl
  exact ⟨_, _, rfl, stop, (destructor_returns (run.snoc stop)).1 nofun,
    fun u after hafter => (destructor_returns run).2 _ u after stop hafter⟩

end SweepThread
end WorkflowEngine
