import Akasha.Lib.Fault

/-!
# Programs whose steps follow a schedule

A program over a state that outlives its process changes it in steps. A schedule says what becomes
of each: it passes, it fails with an exception and changes nothing, or the process dies before it.
Any number of steps may fail. `Scheduled σ` is a state together with the verdicts on the steps to
come; a schedule that has run out lets every step pass. A handler sees a failure and never a death.
The rule `wp_step` turns each step into the obligation that the invariant holds where it is halted.
-/

namespace Akasha.Lib

/-- What becomes of a step. -/
inductive Verdict where
  | passes
  | fails
  | dies
deriving DecidableEq, Repr

/-- A state, and the verdicts on the steps to come. -/
structure Scheduled (σ : Type) where
  state : σ
  verdicts : List Verdict

section

variable {σ ε : Type}

/-- No step is halted any more. -/
def Scheduled.Calm (s : Scheduled σ) : Prop :=
  ∀ verdict ∈ s.verdicts, verdict = .passes

/-- A state that is reached without halting a step of a calm schedule. -/
def Scheduled.Reaches {τ : Type} (s : Scheduled σ) (s' : Scheduled τ) : Prop :=
  s.Calm → s'.Calm

/-- The schedule halted a program that started in `s`. -/
structure Halted (s : Scheduled σ) (e : Fault ε) : Prop where
  struck : e = .crash ∨ e = .failure
  restless : ¬ s.Calm

theorem calm_nil (state : σ) : Scheduled.Calm ⟨state, []⟩ :=
  fun _ h => absurd h List.not_mem_nil

theorem schedule_refl (s : Scheduled σ) : s.Reaches s := id

theorem schedule_trans {s₁ s₂ s₃ : Scheduled σ} (h : s₁.Reaches s₂) (h' : s₂.Reaches s₃) :
    s₁.Reaches s₃ :=
  fun hcalm => h' (h hcalm)

theorem Halted.later {s₁ s₂ : Scheduled σ} {e : Fault ε} (h : s₁.Reaches s₂) (h' : Halted s₂ e) :
    Halted s₁ e :=
  ⟨h'.struck, fun hcalm => h'.restless (h hcalm)⟩

theorem not_halted {s : Scheduled σ} {e : Fault ε} (hcalm : s.Calm) : ¬ Halted s e :=
  fun h => h.restless hcalm

end

/-- A program over a state whose steps follow a schedule. -/
abbrev ScheduleM (σ ε : Type) := Exec (Scheduled σ) (Fault ε)

namespace ScheduleM

open Exec

variable {σ τ ε α β : Type}

/-- One step. -/
def step (change : σ → σ) : ScheduleM σ ε Unit := fun s =>
  match s.verdicts with
  | [] => (.ok (), ⟨change s.state, []⟩)
  | .passes :: later => (.ok (), ⟨change s.state, later⟩)
  | .fails :: later => (.error .failure, ⟨s.state, later⟩)
  | .dies :: later => (.error .crash, ⟨s.state, later⟩)

/-- Read the state. -/
def get : ScheduleM σ ε σ :=
  Scheduled.state <$> read

/-- A change that is not a step, such as one of an object in memory. -/
def modify (change : σ → σ) : ScheduleM σ ε Unit :=
  update fun s => { s with state := change s.state }

/-- Raise an exception of the program's own. -/
def throw (e : ε) : ScheduleM σ ε α :=
  raise (.raised e)

/-- A pure computation that may raise. -/
def ofExcept (x : Except ε α) : ScheduleM σ ε α :=
  lift (x.mapError .raised)

/-- A handler that does not see the death of the process. -/
def unlessDead (handler : Fault ε → ScheduleM σ ε α) : Fault ε → ScheduleM σ ε α
  | .crash => raise .crash
  | e => handler e

/-- `try`/`except`. -/
def recovering (x : ScheduleM σ ε α) (handler : Fault ε → ScheduleM σ ε α) : ScheduleM σ ε α :=
  catching x (unlessDead handler)

/-- Run a program on a part of the state. -/
def within (get : σ → τ) (put : τ → σ → σ) (x : ScheduleM τ ε α) : ScheduleM σ ε α :=
  zoom (fun s => ⟨get s.state, s.verdicts⟩)
    (fun inner s => ⟨put inner.state s.state, inner.verdicts⟩) x

/-! ## Weakest preconditions -/

section

variable {Q : α → Scheduled σ → Prop} {E : Fault ε → Scheduled σ → Prop} {s : Scheduled σ}

theorem wp_step {change : σ → σ} {Q : Unit → Scheduled σ → Prop}
    (hok : ∀ s' : Scheduled σ, s'.state = change s.state → s.Reaches s' → Q () s')
    (herr : ∀ e (s' : Scheduled σ), s'.state = s.state → Halted s e → E e s') :
    wp (step change) Q E s := by
  obtain ⟨state, verdicts⟩ := s
  unfold wp step
  cases verdicts with
  | nil => exact hok _ rfl fun _ => calm_nil _
  | cons verdict later =>
      have hrestless : ∀ verdict : Verdict, verdict ≠ .passes →
          ¬ Scheduled.Calm ⟨state, verdict :: later⟩ :=
        fun verdict hne hcalm => hne (hcalm verdict List.mem_cons_self)
      cases verdict with
      | passes =>
          exact hok _ rfl fun hcalm other hother => hcalm other (List.mem_cons_of_mem _ hother)
      | fails => exact herr _ _ rfl ⟨.inr rfl, hrestless _ (by decide)⟩
      | dies => exact herr _ _ rfl ⟨.inl rfl, hrestless _ (by decide)⟩

@[simp] theorem wp_get {Q : σ → Scheduled σ → Prop} :
    wp (get : ScheduleM σ ε σ) Q E s ↔ Q s.state s := by
  unfold get
  rw [wp_map, wp_read]

@[simp] theorem wp_modify {change : σ → σ} {Q : Unit → Scheduled σ → Prop} :
    wp (modify change : ScheduleM σ ε Unit) Q E s ↔ Q () { s with state := change s.state } :=
  Iff.rfl

@[simp] theorem wp_of_except (x : Except ε α) :
    wp (ofExcept x : ScheduleM σ ε α) Q E s ↔
      (∀ a, x = .ok a → Q a s) ∧ (∀ e, x = .error e → E (.raised e) s) := by
  unfold ofExcept wp lift
  cases x <;> simp [Except.mapError]

theorem wp_of_except_ok {x : Except ε α} {a : α} (h : x = .ok a) (hpost : Q a s) :
    wp (ofExcept x : ScheduleM σ ε α) Q E s := by
  rw [wp_of_except, h]
  refine ⟨fun b hb => Except.ok.inj hb ▸ hpost, fun e he => ?_⟩
  cases he

theorem wp_unless_dead (handler : Fault ε → ScheduleM σ ε α) (e : Fault ε) :
    wp (unlessDead handler e) Q E s ↔
      (e = .crash → E .crash s) ∧ (e ≠ .crash → wp (handler e) Q E s) := by
  cases e <;> simp [unlessDead]

@[simp] theorem wp_recovering (x : ScheduleM σ ε α) (handler : Fault ε → ScheduleM σ ε α) :
    wp (recovering x handler) Q E s ↔
      wp x Q (fun e s' => (e = .crash → E .crash s') ∧ (e ≠ .crash → wp (handler e) Q E s')) s := by
  unfold recovering
  simp only [wp_catching, wp_unless_dead]

theorem wp_within {get : σ → τ} {put : τ → σ → σ} {x : ScheduleM τ ε α} :
    wp (within get put x) Q E s ↔
      wp x (fun a inner => Q a ⟨put inner.state s.state, inner.verdicts⟩)
        (fun e inner => E e ⟨put inner.state s.state, inner.verdicts⟩)
        ⟨get s.state, s.verdicts⟩ := by
  unfold wp within zoom
  cases x ⟨get s.state, s.verdicts⟩ with
  | mk result inner => cases result <;> exact Iff.rfl

end

end ScheduleM

end Akasha.Lib
