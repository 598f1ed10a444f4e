import Akasha.Lib.Interleaving
import Mathlib.Logic.Function.Basic

/-!
# The maintenance worker

One thread of a collection merges and compacts in the background. Other threads ask it for a run
with `akasha_worker_request`, wait for it to be idle with `akasha_worker_drain`, and end it with
`akasha_worker_close`. All of them meet in four flags under one mutex and wait on one condition
variable, so that a signal may wake a thread that drains where the worker was meant.

A critical section is one action here: the functions of this file compute what the flags are at
its end and where its thread goes from there. Between two critical sections the threads take
turns in any order, and a thread that waits may wake without a signal. The result is
`worker_loses_no_request`.
-/

namespace Akasha.Storage

open Lib

/-- The flags of `struct akasha_worker`, which its mutex guards. -/
structure AkashaWorker where
  pending : Bool
  running : Bool
  closing : Bool
  failure : Int32
deriving DecidableEq, Repr

/-- Where the worker's thread stands: it wants the mutex, is in `pthread_cond_wait` and not woken,
runs the callback before or after `take_compaction_request`, or has returned. -/
inductive WorkerPoint where
  | ready
  | asleep
  | merging
  | compacting (requested : Bool)
  | ended
deriving DecidableEq, Repr

/-- The thread is in its callback. -/
def WorkerPoint.inCallback : WorkerPoint → Bool
  | .merging | .compacting _ => true
  | _ => false

/-- Where another thread stands: outside, in `MaintenanceController.request_compaction` with the
flag set and the worker not asked yet, in the wait of `akasha_worker_drain` before or after it was
woken, or in the `pthread_join` of `akasha_worker_close`. -/
inductive ClientPoint where
  | idle
  | requesting
  | asleep
  | woken
  | joining
deriving DecidableEq, Repr

/-- `akasha_worker_open`: `calloc` clears every flag. -/
def akashaWorkerOpen : AkashaWorker := ⟨false, false, false, 0⟩

/-- `akasha_worker_main` from the loop's condition to where it gives up the mutex. -/
def akashaWorkerMain (worker : AkashaWorker) : AkashaWorker × WorkerPoint :=
  if !worker.pending && !worker.closing then (worker, .asleep)
  else if worker.closing && !worker.pending then (worker, .ended)
  else ({ worker with pending := false, running := true }, .merging)

/-- `akasha_worker_main` from the lock behind the callback to the broadcast. -/
def akashaWorkerFinished (worker : AkashaWorker) (result : Int32) : AkashaWorker :=
  let worker := { worker with running := false }
  if result ≠ 0 then { worker with failure := result, pending := false } else worker

/-- `akasha_worker_request`: the flags, what it returns and whether it signals the condition. -/
def akashaWorkerRequest (worker : AkashaWorker) : AkashaWorker × Int32 × Bool :=
  if worker.closing then (worker, -1, false)
  else if worker.failure ≠ 0 then (worker, -2, false)
  else if worker.pending then (worker, 0, false)
  else ({ worker with pending := true }, 1, true)

/-- `akasha_worker_drain` with the mutex held: it returns, or it waits on the condition. -/
def akashaWorkerDrain (worker : AkashaWorker) : Option Int32 :=
  if worker.pending || worker.running then none else some worker.failure

/-- `akasha_worker_close` up to `pthread_join`; it broadcasts at the end. -/
def akashaWorkerClose (worker : AkashaWorker) : AkashaWorker := { worker with closing := true }

/-- What `_maintenance_entry` returns to the worker. -/
def maintenanceEntry (raised : Bool) : Int32 := if raised then 1 else 0

/-- The worker, the flag of `_MaintenanceState` and all threads. `freed` is set when
`akasha_worker_close` returns. -/
structure WorkerSystem (Thread : Type) where
  worker : AkashaWorker
  compactionRequested : Bool
  main : WorkerPoint
  clients : Thread → ClientPoint
  freed : Bool

/-- Who can wait on the condition. -/
inductive Waiter (Thread : Type) where
  | main
  | client (t : Thread)

/-- What can happen next: what a client does, what the worker's thread does, and a thread that
wakes by itself. `request` names the thread that its signal wakes. -/
inductive WorkerAction (Thread : Type) where
  | requestCompaction (t : Thread)
  | request (t : Thread) (woken : Option (Waiter Thread))
  | drain (t : Thread)
  | close (t : Thread)
  | join (t : Thread)
  | enter
  | takeCompactionRequest
  | finish (raised : Bool)
  | spurious (waiter : Waiter Thread)

/-- The actions of the worker's own thread. -/
def WorkerAction.Own {Thread : Type} : WorkerAction Thread → Prop
  | .enter | .takeCompactionRequest | .finish _ => True
  | _ => False

section

variable {worker : AkashaWorker}

theorem akasha_worker_main_cases (worker : AkashaWorker) :
    (worker.pending = false ∧ worker.closing = false ∧
      akashaWorkerMain worker = (worker, .asleep)) ∨
    (worker.pending = false ∧ worker.closing = true ∧
      akashaWorkerMain worker = (worker, .ended)) ∨
    (worker.pending = true ∧
      akashaWorkerMain worker = ({ worker with pending := false, running := true }, .merging)) := by
  cases hpending : worker.pending <;> cases hclosing : worker.closing <;>
    simp [akashaWorkerMain, hpending, hclosing]

theorem akasha_worker_request_cases (worker : AkashaWorker) :
    (worker.closing = true ∧ akashaWorkerRequest worker = (worker, -1, false)) ∨
    (worker.closing = false ∧ worker.failure ≠ 0 ∧
      akashaWorkerRequest worker = (worker, -2, false)) ∨
    (worker.closing = false ∧ worker.failure = 0 ∧ worker.pending = true ∧
      akashaWorkerRequest worker = (worker, 0, false)) ∨
    (worker.closing = false ∧ worker.failure = 0 ∧ worker.pending = false ∧
      akashaWorkerRequest worker = ({ worker with pending := true }, 1, true)) := by
  cases hclosing : worker.closing <;> cases hpending : worker.pending <;>
    by_cases hfailure : worker.failure = 0 <;>
    simp [akashaWorkerRequest, hclosing, hpending, hfailure]

theorem akasha_worker_drain_is_some :
    (akashaWorkerDrain worker).isSome = true ↔
      worker.pending = false ∧ worker.running = false := by
  cases hpending : worker.pending <;> cases hrunning : worker.running <;>
    simp [akashaWorkerDrain, hpending, hrunning]

end

namespace WorkerSystem

variable {Thread : Type}

/-- A new worker; its thread has yet to get the mutex. -/
def initial (Thread : Type) : WorkerSystem Thread :=
  ⟨akashaWorkerOpen, false, .ready, fun _ => .idle, false⟩

/-- The thread is in `pthread_cond_wait` and nothing has woken it. -/
def Asleep (s : WorkerSystem Thread) : Waiter Thread → Prop
  | .main => s.main = .asleep
  | .client t => s.clients t = .asleep

/-- The worker's thread can go on. -/
def Ready (s : WorkerSystem Thread) : Prop := s.main ≠ .asleep ∧ s.main ≠ .ended

/-- A callback of the worker has returned an error. -/
def Failed (s : WorkerSystem Thread) : Prop := s.worker.failure ≠ 0

/-- What ties the flags to the threads. The last but one is why a signal cannot go astray: a
thread that drains is asleep only while the worker still has its broadcast to make. -/
structure Consistent (s : WorkerSystem Thread) : Prop where
  asleep : s.main = .asleep → s.worker.pending = false ∧ s.worker.closing = false
  running : s.worker.running = s.main.inCallback
  draining : ∀ t, s.clients t = .asleep → s.worker.pending = true ∨ s.worker.running = true
  ended : s.main = .ended → s.worker.pending = false ∧ s.worker.closing = true

/-- `pthread_cond_signal` may wake this: one of the threads that wait, or nobody when none does. -/
def Signals (s : WorkerSystem Thread) : Option (Waiter Thread) → Prop
  | none => ∀ waiter, ¬ s.Asleep waiter
  | some waiter => s.Asleep waiter

/-- `pthread_cond_broadcast`. -/
def broadcast (s : WorkerSystem Thread) : WorkerSystem Thread :=
  { s with
    main := if s.main = .asleep then .ready else s.main
    clients := fun t => if s.clients t = .asleep then .woken else s.clients t }

@[simp] theorem broadcast_worker (s : WorkerSystem Thread) :
    s.broadcast.worker = s.worker := rfl

@[simp] theorem broadcast_requested (s : WorkerSystem Thread) :
    s.broadcast.compactionRequested = s.compactionRequested := rfl

theorem broadcast_not_asleep (s : WorkerSystem Thread) (waiter : Waiter Thread) :
    ¬ s.broadcast.Asleep waiter := by
  cases waiter with
  | main =>
      show (if s.main = .asleep then WorkerPoint.ready else s.main) ≠ .asleep
      split <;> simp_all
  | client t =>
      show (if s.clients t = .asleep then ClientPoint.woken else s.clients t) ≠ .asleep
      split <;> simp_all

theorem broadcast_main {s : WorkerSystem Thread} (h : s.main ≠ .asleep) :
    s.broadcast.main = s.main :=
  if_neg h

/-- What the critical section of the worker's thread leaves that begins at the loop's condition.
The thread broadcasts once more before it returns. -/
def entered (s : WorkerSystem Thread) : WorkerSystem Thread :=
  let (worker, point) := akashaWorkerMain s.worker
  let left := { s with worker := worker, main := point }
  if point = .ended then left.broadcast else left

/-- What the critical section leaves that begins behind the callback: its broadcast comes before
the loop's condition is looked at again. -/
def finished (s : WorkerSystem Thread) (raised : Bool) : WorkerSystem Thread :=
  entered { s with
    worker := akashaWorkerFinished s.worker (maintenanceEntry raised) }.broadcast

section

variable {s : WorkerSystem Thread}

theorem client_not_asleep (h : s.Consistent) (hasleep : s.main = .asleep) (t : Thread) :
    s.clients t ≠ .asleep := by
  intro hclient
  obtain hpending | hrunning := h.draining t hclient
  · rw [(h.asleep hasleep).1] at hpending
    cases hpending
  · rw [h.running, hasleep] at hrunning
    cases hrunning

theorem signals_worker (h : s.Consistent) (hasleep : s.main = .asleep)
    {woken : Option (Waiter Thread)} (hwoken : s.Signals woken) : woken = some .main := by
  cases woken with
  | none => exact absurd hasleep (hwoken .main)
  | some waiter =>
    cases waiter with
    | main => rfl
    | client t => exact absurd hwoken (client_not_asleep h hasleep t)

theorem consistent_entered (hrunning : s.worker.running = false)
    (hdraining : ∀ t, s.clients t = .asleep → s.worker.pending = true) :
    s.entered.Consistent := by
  obtain ⟨hpending, hclosing, hmain⟩ | ⟨hpending, hclosing, hmain⟩ | ⟨hpending, hmain⟩ :=
    akasha_worker_main_cases s.worker
  · simp only [entered, hmain, reduceCtorEq, if_false]
    exact ⟨fun _ => ⟨hpending, hclosing⟩, hrunning,
      fun t hasleep => .inl (hdraining t hasleep), fun h => absurd h (by simp)⟩
  · simp only [entered, hmain, if_true]
    exact ⟨fun h => absurd h (broadcast_not_asleep _ .main),
      hrunning,
      fun t h => absurd h (broadcast_not_asleep _ (.client t)),
      fun _ => ⟨hpending, hclosing⟩⟩
  · simp only [entered, hmain, reduceCtorEq, if_false]
    exact ⟨fun h => absurd h (by simp), rfl, fun _ _ => .inr rfl,
      fun h => absurd h (by simp)⟩

theorem akasha_worker_finished_running (worker : AkashaWorker) (result : Int32) :
    (akashaWorkerFinished worker result).running = false := by
  by_cases h : result = 0 <;> simp [akashaWorkerFinished, h]

theorem entered_failure : s.entered.worker.failure = s.worker.failure := by
  obtain ⟨-, -, hmain⟩ | ⟨-, -, hmain⟩ | ⟨-, hmain⟩ := akasha_worker_main_cases s.worker <;>
    simp [entered, hmain]

theorem finished_failed : (s.finished true).Failed := by
  show (s.finished true).worker.failure ≠ 0
  rw [finished, entered_failure]
  exact (by decide : (1 : Int32) ≠ 0)

theorem consistent_finished (raised : Bool) : (s.finished raised).Consistent :=
  consistent_entered (akasha_worker_finished_running _ _)
    fun t hasleep => absurd hasleep (broadcast_not_asleep _ (.client t))

theorem consistent_initial : (initial Thread).Consistent :=
  ⟨fun h => absurd h (by simp [initial]), rfl, fun _ h => absurd h (by simp [initial]),
    fun h => absurd h (by simp [initial])⟩

theorem ready_of_pending (h : s.Consistent) (hpending : s.worker.pending = true) : s.Ready := by
  refine ⟨fun hmain => ?_, fun hmain => ?_⟩
  · rw [(h.asleep hmain).1] at hpending
    cases hpending
  · rw [(h.ended hmain).1] at hpending
    cases hpending

/-- How many actions of its own the worker takes before it starts the callback for a request. -/
def distance (s : WorkerSystem Thread) : Nat := if s.main = .merging then 1 else 0

theorem entered_merging (hpending : s.worker.pending = true) : s.entered.main = .merging := by
  obtain ⟨hnone, -⟩ | ⟨hnone, -⟩ | ⟨-, hmain⟩ := akasha_worker_main_cases s.worker
  · rw [hnone] at hpending
    cases hpending
  · rw [hnone] at hpending
    cases hpending
  · simp [entered, hmain]

end

variable [DecidableEq Thread]

/-- Wakes one thread. -/
def wake (s : WorkerSystem Thread) : Waiter Thread → WorkerSystem Thread
  | .main => { s with main := .ready }
  | .client t => { s with clients := Function.update s.clients t .woken }

/-- Puts a thread somewhere. -/
def goto (s : WorkerSystem Thread) (t : Thread) (point : ClientPoint) : WorkerSystem Thread :=
  { s with clients := Function.update s.clients t point }

/-- What `akasha_worker_request` leaves, with the thread its signal woke. -/
def requested (s : WorkerSystem Thread) (t : Thread) (woken : Option (Waiter Thread)) :
    WorkerSystem Thread :=
  let asked := { s with worker := (akashaWorkerRequest s.worker).1 }.goto t .idle
  woken.elim asked asked.wake

/-- One action. -/
inductive Step : WorkerSystem Thread → WorkerAction Thread → WorkerSystem Thread → Prop where
  /-- `MaintenanceController.request_compaction` sets the flag before it asks the worker. -/
  | requestCompaction {s t} (hpoint : s.clients t = .idle) :
      Step s (.requestCompaction t) ({ s with compactionRequested := true }.goto t .requesting)
  /-- The request behind the flag, or that of `request_merge`. -/
  | request {s t woken} (hopen : s.freed = false)
      (hpoint : s.clients t = .idle ∨ s.clients t = .requesting)
      (hwoken : if (akashaWorkerRequest s.worker).2.2 then s.Signals woken else woken = none) :
      Step s (.request t woken) (s.requested t woken)
  /-- A call of `akasha_worker_drain`, or what it does after it was woken. -/
  | drain {s t} (hopen : s.freed = false)
      (hpoint : s.clients t = .idle ∨ s.clients t = .woken) :
      Step s (.drain t)
        (s.goto t (if (akashaWorkerDrain s.worker).isSome then .idle else .asleep))
  /-- The one call of `akasha_worker_close`. -/
  | close {s t} (hclosing : s.worker.closing = false) (hpoint : s.clients t = .idle) :
      Step s (.close t)
        ({ s with worker := akashaWorkerClose s.worker }.goto t .joining).broadcast
  /-- `pthread_join` returns when the worker's thread has ended. -/
  | join {s t} (hpoint : s.clients t = .joining) (hended : s.main = .ended) :
      Step s (.join t) ({ s with freed := true }.goto t .idle)
  | enter {s} (hpoint : s.main = .ready) : Step s .enter s.entered
  /-- The runs are merged; `_maintenance_entry` takes the flag. -/
  | takeCompactionRequest {s} (hpoint : s.main = .merging) :
      Step s .takeCompactionRequest
        { s with compactionRequested := false, main := .compacting s.compactionRequested }
  /-- The callback returns; before it took the flag it does so only by raising. -/
  | finish {s raised} (hpoint : s.main.inCallback = true)
      (hraised : s.main = .merging → raised = true) :
      Step s (.finish raised) (s.finished raised)
  | spurious {s waiter} (hasleep : s.Asleep waiter) : Step s (.spurious waiter) (s.wake waiter)

variable {waiter : Waiter Thread}

section Waiting

variable {s : WorkerSystem Thread} {t t' : Thread} {point : ClientPoint}

@[simp] theorem wake_worker : (s.wake waiter).worker = s.worker := by
  cases waiter <;> rfl

@[simp] theorem wake_requested :
    (s.wake waiter).compactionRequested = s.compactionRequested := by
  cases waiter <;> rfl

theorem asleep_of_goto (hpoint : point ≠ .asleep) (h : (s.goto t point).clients t' = .asleep) :
    s.clients t' = .asleep := by
  change Function.update s.clients t point t' = .asleep at h
  by_cases heq : t' = t
  · rw [heq, Function.update_self] at h
    exact absurd h hpoint
  · rwa [Function.update_of_ne heq] at h

theorem wake_main (waiter : Waiter Thread) :
    (s.wake waiter).main = s.main ∨ (waiter = .main ∧ (s.wake waiter).main = .ready) := by
  cases waiter with
  | main => exact .inr ⟨rfl, rfl⟩
  | client t' => exact .inl rfl

end Waiting

section Invariant

variable {s s' : WorkerSystem Thread}

theorem consistent_goto (h : s.Consistent) {t : Thread} {point : ClientPoint}
    (hpoint : point ≠ .asleep) : (s.goto t point).Consistent :=
  ⟨h.asleep, h.running, fun _ hasleep => h.draining _ (asleep_of_goto hpoint hasleep), h.ended⟩

theorem consistent_wake (h : s.Consistent) (hasleep : s.Asleep waiter) :
    (s.wake waiter).Consistent := by
  cases waiter with
  | client t => exact consistent_goto h (by decide : ClientPoint.woken ≠ .asleep)
  | main =>
      refine ⟨fun hmain => absurd hmain (by simp [wake]), ?_, h.draining,
        fun hmain => absurd hmain (by simp [wake])⟩
      show s.worker.running = WorkerPoint.inCallback .ready
      rw [h.running, show s.main = .asleep from hasleep]
      rfl

/-- A request leaves the threads right: if it makes the worker's sleep wrong, it ends it. -/
theorem consistent_requested (h : s.Consistent) {t : Thread} {woken : Option (Waiter Thread)}
    (hwoken : if (akashaWorkerRequest s.worker).2.2 then s.Signals woken else woken = none) :
    (s.requested t woken).Consistent := by
  obtain ⟨-, hrequest⟩ | ⟨-, -, hrequest⟩ | ⟨-, -, -, hrequest⟩ | ⟨hclosing, -, -, hrequest⟩ :=
    akasha_worker_request_cases s.worker
  case inr.inr.inr =>
    simp only [hrequest, if_true] at hwoken
    simp only [requested, hrequest]
    have hended : s.main ≠ .ended := by
      intro hmain
      rw [(h.ended hmain).2] at hclosing
      cases hclosing
    by_cases hasleep : s.main = .asleep
    · rw [signals_worker h hasleep hwoken]
      refine ⟨fun hmain => absurd hmain (by simp [wake]), ?_, fun _ _ => .inl rfl,
        fun hmain => absurd hmain (by simp [wake])⟩
      show s.worker.running = WorkerPoint.inCallback .ready
      rw [h.running, hasleep]
      rfl
    · -- an awake worker looks at the flag before it sleeps
      have hconsistent : ({ s with worker := { s.worker with pending := true } }.goto t
          .idle).Consistent :=
        ⟨fun hmain => absurd hmain hasleep, h.running, fun _ _ => .inl rfl,
          fun hmain => absurd hmain hended⟩
      cases woken with
      | none => exact hconsistent
      | some waiter =>
        cases waiter with
        | main => exact absurd hwoken hasleep
        | client t' => exact consistent_goto hconsistent (by decide : ClientPoint.woken ≠ .asleep)
  all_goals
    simp only [hrequest, Bool.false_eq_true, if_false] at hwoken
    subst hwoken
    simp only [requested, hrequest]
    exact consistent_goto h (by decide)

/-- Every action keeps flags and threads consistent. -/
theorem consistent_step {action : WorkerAction Thread} (h : s.Consistent)
    (hstep : Step s action s') : s'.Consistent := by
  cases hstep with
  | requestCompaction hpoint =>
      exact consistent_goto (s := { s with compactionRequested := true })
        ⟨h.asleep, h.running, h.draining, h.ended⟩ (by decide)
  | request hopen hpoint hwoken => exact consistent_requested h hwoken
  | @drain t hopen hpoint =>
      by_cases hidle : (akashaWorkerDrain s.worker).isSome = true
      · rw [if_pos hidle]
        exact consistent_goto h (by decide)
      · -- it sleeps because something is pending or running
        refine ⟨h.asleep, h.running, fun _ _ => ?_, h.ended⟩
        rw [akasha_worker_drain_is_some] at hidle
        show s.worker.pending = true ∨ s.worker.running = true
        grind
  | close hclosing hpoint =>
      have hended : s.main ≠ .ended := by
        intro hmain
        rw [(h.ended hmain).2] at hclosing
        cases hclosing
      refine ⟨fun hmain => absurd hmain (broadcast_not_asleep _ .main), ?_,
        fun t hclient => absurd hclient (broadcast_not_asleep _ (.client t)), ?_⟩
      · show s.worker.running =
          (if s.main = .asleep then .ready else s.main : WorkerPoint).inCallback
        rw [h.running]
        split
        case isTrue hasleep => rw [hasleep]; rfl
        case isFalse => rfl
      · intro hmain
        change (if s.main = .asleep then WorkerPoint.ready else s.main) = .ended at hmain
        split at hmain
        case isTrue => cases hmain
        case isFalse => exact absurd hmain hended
  | join hpoint hended =>
      exact consistent_goto (s := { s with freed := true })
        ⟨h.asleep, h.running, h.draining, h.ended⟩ (by decide)
  | enter hpoint =>
      have hrunning : s.worker.running = false := by
        rw [h.running, hpoint]
        rfl
      exact consistent_entered hrunning
        fun t hasleep => (h.draining t hasleep).resolve_right (by simp [hrunning])
  | takeCompactionRequest hpoint =>
      refine ⟨fun hmain => absurd hmain (by simp), ?_, h.draining,
        fun hmain => absurd hmain (by simp)⟩
      show s.worker.running = WorkerPoint.inCallback (.compacting _)
      rw [h.running, hpoint]
      rfl
  | finish hpoint hraised => exact consistent_finished _
  | spurious hasleep => exact consistent_wake h hasleep

end Invariant

section Progress

variable {s s' : WorkerSystem Thread} {action : WorkerAction Thread}

/-- No action of a client, and nobody's waking, changes where an awake worker stands or takes
back a request. -/
theorem pending_step_others (h : s.Consistent) (hpending : s.worker.pending = true)
    (hstep : Step s action s') (hown : ¬ action.Own) :
    s'.worker.pending = true ∧ s'.main = s.main := by
  have hready := ready_of_pending h hpending
  cases hstep with
  | requestCompaction hpoint => exact ⟨hpending, rfl⟩
  | @request t woken hopen hpoint hwoken =>
      have hkeep : (akashaWorkerRequest s.worker).1 = s.worker ∧
          (akashaWorkerRequest s.worker).2.2 = false := by
        obtain ⟨-, h⟩ | ⟨-, -, h⟩ | ⟨-, -, -, h⟩ | ⟨-, -, hnone, -⟩ :=
          akasha_worker_request_cases s.worker
        case inr.inr.inr => rw [hnone] at hpending; cases hpending
        all_goals rw [h]; exact ⟨rfl, rfl⟩
      rw [hkeep.2] at hwoken
      cases hwoken
      exact ⟨(congrArg AkashaWorker.pending hkeep.1).trans hpending, rfl⟩
  | drain hopen hpoint => exact ⟨hpending, rfl⟩
  | close hclosing hpoint => exact ⟨hpending, broadcast_main hready.1⟩
  | join hpoint hended => exact ⟨hpending, rfl⟩
  | enter hpoint => exact absurd trivial hown
  | takeCompactionRequest hpoint => exact absurd trivial hown
  | finish hpoint hraised => exact absurd trivial hown
  | @spurious waiter hasleep =>
      refine ⟨by rw [wake_worker, hpending], ?_⟩
      obtain hmain | ⟨hmain, -⟩ := wake_main (s := s) waiter
      · exact hmain
      · rw [hmain] at hasleep
        exact absurd hasleep hready.1

theorem pending_step_own (hpending : s.worker.pending = true) (hstep : Step s action s')
    (hown : action.Own) :
    s'.Failed ∨ (s.main ≠ .merging ∧ s'.main = .merging) ∨
      (s'.worker.pending = true ∧ s'.distance < s.distance) := by
  cases hstep with
  | enter hpoint =>
      exact .inr (.inl ⟨by simp [hpoint], entered_merging hpending⟩)
  | takeCompactionRequest hpoint =>
      exact .inr (.inr ⟨hpending, by simp [distance, hpoint]⟩)
  | @finish raised hpoint hraised =>
      cases raised with
      | true => exact .inl finished_failed
      | false =>
        exact .inr (.inl ⟨fun hmain => absurd (hraised hmain) (by decide),
          entered_merging hpending⟩)
  | requestCompaction | request | drain | close | join | spurious => exact hown.elim

theorem pending_step (h : s.Consistent) (hpending : s.worker.pending = true)
    (hstep : Step s action s') :
    (s'.Failed ∨ (s.main ≠ .merging ∧ s'.main = .merging)) ∨
      (s'.worker.pending = true ∧ s'.distance ≤ s.distance ∧
        (action.Own → s'.distance < s.distance)) := by
  by_cases hown : action.Own
  · obtain hfailed | hstarted | ⟨hpending', hless⟩ := pending_step_own hpending hstep hown
    · exact .inl (.inl hfailed)
    · exact .inl (.inr hstarted)
    · exact .inr ⟨hpending', hless.le, fun _ => hless⟩
  · obtain ⟨hpending', hmain⟩ := pending_step_others h hpending hstep hown
    exact .inr ⟨hpending', by rw [distance, hmain, distance], fun hown' => absurd hown' hown⟩

/-- In the callback, before the flag is taken, only the callback itself goes on: it takes the flag
or it fails. -/
theorem merging_step (hmain : s.main = .merging) (hstep : Step s action s') :
    (s'.Failed ∨ action = .takeCompactionRequest) ∨ (s'.main = .merging ∧ ¬ action.Own) := by
  have hawake : s.main ≠ .asleep := by rw [hmain]; decide
  cases hstep with
  | takeCompactionRequest hpoint => exact .inl (.inr rfl)
  | enter hpoint =>
      rw [hmain] at hpoint
      cases hpoint
  | finish hpoint hraised =>
      obtain rfl := hraised hmain
      exact .inl (.inl finished_failed)
  | requestCompaction | drain | join => exact .inr ⟨hmain, id⟩
  | close => exact .inr ⟨(broadcast_main hawake).trans hmain, id⟩
  | @spurious waiter hasleep =>
      cases waiter with
      | main => exact absurd hasleep hawake
      | client t => exact .inr ⟨hmain, id⟩
  | @request t woken hopen hpoint hwoken =>
      refine .inr ⟨?_, id⟩
      cases woken with
      | none => exact hmain
      | some waiter =>
        cases waiter with
        | client t => exact hmain
        | main =>
          split at hwoken
          · exact absurd hwoken hawake
          · cases hwoken

theorem requested_step (hrequested : s.compactionRequested = true) (hstep : Step s action s') :
    action = .takeCompactionRequest ∨ s'.compactionRequested = true := by
  have hentered : ∀ s : WorkerSystem Thread,
      s.entered.compactionRequested = s.compactionRequested := by
    intro s
    simp only [entered]
    split <;> rfl
  cases hstep with
  | takeCompactionRequest => exact .inl rfl
  | requestCompaction => exact .inr rfl
  | drain | close | join => exact .inr hrequested
  | enter => exact .inr ((hentered s).trans hrequested)
  | finish => exact .inr ((hentered _).trans hrequested)
  | spurious => exact .inr (wake_requested.trans hrequested)
  | @request t woken =>
      cases woken with
      | none => exact .inr hrequested
      | some waiter => exact .inr (wake_requested.trans hrequested)

end Progress

end WorkerSystem

section

variable {Thread : Type} [DecidableEq Thread]

/-- An order in which the threads use one worker, from its `akasha_worker_open` on. -/
abbrev WorkerRun (Thread : Type) [DecidableEq Thread] :=
  Interleaving (@WorkerSystem.Step Thread _) (WorkerSystem.initial Thread)

namespace WorkerRun

/-- A request returns 0 or 1 at `n`. -/
def Accepts (run : WorkerRun Thread) (n : Nat) : Prop :=
  ∃ t woken, run.action n = some (.request t woken) ∧
    ((akashaWorkerRequest (run.state n).worker).2.1 = 0 ∨
      (akashaWorkerRequest (run.state n).worker).2.1 = 1)

/-- The worker calls its callback at `n`. -/
def Starts (run : WorkerRun Thread) (n : Nat) : Prop :=
  (run.state n).main ≠ .merging ∧ (run.state (n + 1)).main = .merging

/-- `MaintenanceController.request_compaction` sets the flag at `n`. -/
def SetsFlag (run : WorkerRun Thread) (n : Nat) : Prop :=
  ∃ t, run.action n = some (.requestCompaction t)

/-- `take_compaction_request` returns True at `n`. -/
def TakesFlag (run : WorkerRun Thread) (n : Nat) : Prop :=
  run.action n = some .takeCompactionRequest ∧ (run.state n).compactionRequested = true

variable {run : WorkerRun Thread}

theorem consistent (run : WorkerRun Thread) (n : Nat) : (run.state n).Consistent :=
  run.invariant WorkerSystem.consistent_initial WorkerSystem.consistent_step n

theorem pending_of_accepts {n : Nat} (h : run.Accepts n) :
    (run.state (n + 1)).worker.pending = true := by
  obtain ⟨t, woken, haction, hresult⟩ := h
  have hstep := run.acts n _ haction
  generalize run.state (n + 1) = s' at hstep
  cases hstep with
  | request hopen hpoint hwoken =>
      have hworker : ((run.state n).requested t woken).worker =
          (akashaWorkerRequest (run.state n).worker).1 := by
        cases woken with
        | none => rfl
        | some waiter => exact WorkerSystem.wake_worker
      rw [hworker]
      obtain ⟨-, h⟩ | ⟨-, -, h⟩ | ⟨-, -, hpending, h⟩ | ⟨-, -, -, h⟩ :=
        akasha_worker_request_cases (run.state n).worker <;> rw [h] at hresult ⊢
      · simp at hresult
      · simp at hresult
      · exact hpending

theorem flag_taken {j k : Nat} (hjk : j < k) (hset : run.SetsFlag j)
    (htake : run.action k = some .takeCompactionRequest) :
    ∃ i, j < i ∧ i ≤ k ∧ run.TakesFlag i := by
  obtain ⟨t, haction⟩ := hset
  have hrequested : (run.state (j + 1)).compactionRequested = true := by
    have hstep := run.acts j _ haction
    generalize run.state (j + 1) = s' at hstep
    cases hstep with
    | requestCompaction hpoint => rfl
  obtain ⟨i, hji, hik, htaken⟩ | hstill := @Interleaving.holds_until _ _ _ _ run
    (fun s => s.compactionRequested = true) run.TakesFlag _ _ (Nat.succ_le_of_lt hjk) hrequested
    fun i a _ _ hi ha => (WorkerSystem.requested_step hi (run.acts i a ha)).imp_left
      fun htakes => ⟨htakes.subst (motive := fun b => _ = some b) ha, hi⟩
  · exact ⟨i, hji, hik.le, htaken⟩
  · exact ⟨k, hjk, Nat.le_refl k, htake, hstill⟩

theorem pending_until {n m : Nat} (hpending : (run.state n).worker.pending = true) (hnm : n ≤ m) :
    (∃ i, n ≤ i ∧ i < m ∧ ((run.state (i + 1)).Failed ∨ run.Starts i)) ∨
      (run.state m).worker.pending = true :=
  run.holds_until (P := fun s => s.worker.pending = true) hnm hpending fun i a _ _ hi ha =>
    (WorkerSystem.pending_step (run.consistent i) hi (run.acts i a ha)).imp_right And.left

theorem eventually_starts (hfair : run.Fair WorkerSystem.Ready WorkerAction.Own) {n : Nat}
    (hpending : (run.state n).worker.pending = true) :
    ∃ m, n ≤ m ∧ ((run.state (m + 1)).Failed ∨ run.Starts m) :=
  run.leads_to (P := fun s => s.Consistent ∧ s.worker.pending = true) hfair
    WorkerSystem.distance (fun hP => WorkerSystem.ready_of_pending hP.1 hP.2)
    (fun i a hP ha => (WorkerSystem.pending_step hP.1 hP.2 (run.acts i a ha)).imp_right
      fun hnext => ⟨⟨run.consistent (i + 1), hnext.1⟩, hnext.2⟩)
    ⟨run.consistent n, hpending⟩

/-- The callback that has started takes the flag, or has failed, before it does anything else. -/
theorem eventually_takes (hfair : run.Fair WorkerSystem.Ready WorkerAction.Own) {n : Nat}
    (hmain : (run.state n).main = .merging) :
    ∃ m, n ≤ m ∧ ((run.state (m + 1)).Failed ∨
      run.action m = some .takeCompactionRequest) ∧
      ∀ i, n ≤ i → i ≤ m → (run.state i).main = .merging := by
  have hstep : ∀ i a, (run.state i).main = .merging → run.action i = some a →
      ((run.state (i + 1)).Failed ∨ run.action i = some .takeCompactionRequest) ∨
        ((run.state (i + 1)).main = .merging ∧ ¬ a.Own) := by
    intro i a hi ha
    obtain (hfailed | rfl) | hnext := WorkerSystem.merging_step hi (run.acts i a ha)
    · exact .inl (.inl hfailed)
    · exact .inl (.inr ha)
    · exact .inr hnext
  refine run.holds_to_goal (P := fun s => s.main = .merging)
    (fun i a hi ha => (hstep i a hi ha).imp_right And.left) hmain ?_
  refine run.leads_to (P := fun s => s.main = .merging) hfair (fun _ => 0) ?_ ?_ hmain
  · intro s hs
    constructor <;> rw [hs] <;> decide
  · exact fun i a hi ha => (hstep i a hi ha).imp_right
      fun hnext => ⟨hnext.1, Nat.le_refl 0, fun hown => absurd hown hnext.2⟩

end WorkerRun

/-- In every order of the threads' actions no request is pending while the worker sleeps, a drain
returns only when nothing is pending or runs, the worker's thread does not end while a request is
pending, and a request that was accepted waits for nothing but the worker's own actions: until a
callback starts or one fails it stays pending and the worker can go on. If the worker is treated
fairly, the callback does start, and each flag set before the request has been taken, since it was
set, when that callback has called `take_compaction_request`. -/
theorem worker_loses_no_request (run : WorkerRun Thread) :
    (∀ n, ¬ ((run.state n).worker.pending = true ∧ (run.state n).main = .asleep)) ∧
    (∀ n t, run.action n = some (.drain t) → (run.state (n + 1)).clients t = .idle →
      (run.state (n + 1)).worker.pending = false ∧ (run.state (n + 1)).worker.running = false) ∧
    (∀ n, (run.state n).main = .ended → (run.state n).worker.pending = false) ∧
    (∀ n, run.Accepts n → ∀ m, n < m →
      (∃ i, n < i ∧ i < m ∧ ((run.state (i + 1)).Failed ∨ run.Starts i)) ∨
        ((run.state m).worker.pending = true ∧ (run.state m).Ready)) ∧
    (run.Fair WorkerSystem.Ready WorkerAction.Own → ∀ n, run.Accepts n →
      (∃ m, n < m ∧ (run.state m).Failed) ∨
        ∃ m k, n < m ∧ m < k ∧ run.Starts m ∧
          (∀ i, m < i → i ≤ k → (run.state i).main = .merging) ∧
          run.action k = some .takeCompactionRequest ∧
          ∀ j, j < n → run.SetsFlag j → ∃ i, j < i ∧ i ≤ k ∧ run.TakesFlag i) := by
  refine ⟨fun n ⟨hpending, hmain⟩ => ?_, fun n t haction hidle => ?_,
    fun n hmain => ((run.consistent n).ended hmain).1, fun n haccepts m hnm => ?_,
    fun hfair n haccepts => ?_⟩
  · exact (WorkerSystem.ready_of_pending (run.consistent n) hpending).1 hmain
  · have hstep := run.acts n _ haction
    generalize run.state (n + 1) = s' at hstep hidle
    cases hstep with
    | drain hopen hpoint =>
        simp only [WorkerSystem.goto, Function.update_self] at hidle
        split at hidle
        case isTrue hdrained => exact akasha_worker_drain_is_some.1 hdrained
        case isFalse => cases hidle
  · obtain hdone | hpending := WorkerRun.pending_until (WorkerRun.pending_of_accepts haccepts) hnm
    · exact .inl hdone
    · exact .inr ⟨hpending, WorkerSystem.ready_of_pending (run.consistent m) hpending⟩
  · obtain ⟨m, hnm, hfailed | hstarts⟩ :=
      WorkerRun.eventually_starts hfair (WorkerRun.pending_of_accepts haccepts)
    · exact .inl ⟨m + 1, by omega, hfailed⟩
    obtain ⟨k, hmk, hfailed | htake, hmerging⟩ := WorkerRun.eventually_takes hfair hstarts.2
    · exact .inl ⟨k + 1, by omega, hfailed⟩
    · exact .inr ⟨m, k, hnm, hmk, hstarts, fun i hmi hik => hmerging i hmi hik, htake,
        fun j hjn hset => WorkerRun.flag_taken (by omega) hset htake⟩

/-- One thread asks for a run before the worker gets the mutex, and for another one in the middle
of it, with a signal that wakes the thread that drains instead of the worker; that thread waits
again until the worker has run twice. -/
def stolenState : Nat → WorkerSystem Bool
  | 0 => .initial Bool
  | 1 => { stolenState 0 with compactionRequested := true }.goto false .requesting
  | 2 => (stolenState 1).requested false none
  | 3 => (stolenState 2).entered
  | 4 => (stolenState 3).goto true .asleep
  | 5 => { stolenState 4 with compactionRequested := false, main := .compacting true }
  | 6 => { stolenState 5 with compactionRequested := true }.goto false .requesting
  | 7 => (stolenState 6).requested false (some (.client true))
  | 8 => (stolenState 7).goto true .asleep
  | 9 => (stolenState 8).finished false
  | 10 => { stolenState 9 with compactionRequested := false, main := .compacting true }
  | 11 => (stolenState 10).finished false
  | 12 => (stolenState 11).goto true .idle
  | n + 13 => stolenState (n + 12)

theorem stolen_rests (n : Nat) : stolenState (n + 12) = stolenState 12 := by
  induction n with
  | zero => rfl
  | succ n ih => exact ih

def stolenActions : List (WorkerAction Bool) :=
  [.requestCompaction false, .request false none, .enter, .drain true, .takeCompactionRequest,
    .requestCompaction false, .request false (some (.client true)), .drain true, .finish false,
    .takeCompactionRequest, .finish false, .drain true]

def stolenSignal : WorkerRun Bool where
  state := stolenState
  action n := stolenActions[n]?
  starts := rfl
  acts n a h := by
    match n, h with
    | 0, rfl | 5, rfl => exact .requestCompaction rfl
    | 1, rfl =>
        refine .request rfl (.inr rfl) fun waiter => ?_
        cases waiter with
        | main => exact nofun
        | client t => cases t <;> exact nofun
    | 2, rfl => exact .enter rfl
    | 3, rfl => exact .drain rfl (.inl rfl)
    | 7, rfl | 11, rfl => exact .drain rfl (.inr rfl)
    | 4, rfl | 9, rfl => exact .takeCompactionRequest rfl
    | 6, rfl => exact .request rfl (.inr rfl) rfl
    | 8, rfl | 10, rfl => exact .finish rfl nofun
  rests n h := by
    obtain ⟨n, rfl⟩ := Nat.exists_eq_add_of_le' (List.getElem?_eq_none_iff.1 h)
    rfl

theorem worker_loses_no_request_once :
    stolenSignal.Fair WorkerSystem.Ready WorkerAction.Own ∧
      (stolenSignal.state 6).clients true = .asleep ∧ stolenSignal.Accepts 6 ∧
      stolenSignal.SetsFlag 5 ∧
      ∃ m i, 6 < m ∧ stolenSignal.Starts m ∧ 5 < i ∧ stolenSignal.TakesFlag i := by
  have hfair : stolenSignal.Fair WorkerSystem.Ready WorkerAction.Own := fun n =>
    ⟨n + 12, Nat.le_add_right n 12, .inr fun hready =>
      hready.1 (congrArg WorkerSystem.main (stolen_rests n))⟩
  have haccepts : stolenSignal.Accepts 6 := ⟨false, some (.client true), rfl, .inr rfl⟩
  have hset : stolenSignal.SetsFlag 5 := ⟨false, rfl⟩
  have hearly : ∀ m, m < 12 → (stolenState m).worker.failure = 0 := by decide
  obtain ⟨m, -, hfailed⟩ | ⟨m, k, hm, hmk, hstarts, -, -, htaken⟩ :=
    (worker_loses_no_request stolenSignal).2.2.2.2 hfair 6 haccepts
  · obtain hm | hm := Nat.lt_or_ge m 12
    · exact absurd (hearly m hm) hfailed
    · obtain ⟨n, rfl⟩ := Nat.exists_eq_add_of_le' hm
      have hcalm : (stolenState (n + 12)).worker.failure = 0 :=
        congrArg (·.worker.failure) (stolen_rests n)
      exact absurd hcalm hfailed
  · obtain ⟨i, hi, -, htakes⟩ := htaken 5 (by decide) hset
    exact ⟨hfair, rfl, haccepts, hset, m, i, hm, hstarts, hi, htakes⟩

end

end Akasha.Storage
