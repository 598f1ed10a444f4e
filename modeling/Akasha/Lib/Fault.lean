import Akasha.Lib.Exec

/-!
# Steps that fail or are never reached

A program over a state that outlives its process, such as a directory, changes it in steps.
Two things can go wrong with a step: the process dies before it, or the step itself fails with
an exception and changes nothing. `Faulty σ` is a state together with the number of steps left
before each of the two; at most one step fails. A handler sees a failure and never a death:
that is what `recovering` and `always` add to `Exec`. The rule `wp_step` turns every step into
the obligation that the invariant holds when the process dies before it or the step fails.
-/

namespace Akasha.Lib

/-- How a program ends that does not return: its process died, a step failed, or it raised. -/
inductive Fault (ε : Type) where
  | crash
  | failure
  | raised (e : ε)
deriving DecidableEq, Repr

/-- A state, and how many steps are left before the process dies and before a step fails. -/
structure Faulty (σ : Type) where
  state : σ
  crashIn : Option Nat
  failIn : Option Nat

section

variable {σ ε : Type}

/-- The allowances of a later state: what cannot happen any more never does. -/
structure Faulty.Reaches (s s' : Faulty σ) : Prop where
  crash : s.crashIn = none → s'.crashIn = none
  failure : s.failIn = none → s'.failIn = none

/-- The process died or a step failed after `s`; no step fails twice. -/
def Struck (s : Faulty σ) (e : Fault ε) (s' : Faulty σ) : Prop :=
  (e = .crash ∧ s.crashIn ≠ none) ∨ (e = .failure ∧ s.failIn ≠ none ∧ s'.failIn = none)

theorem reaches_refl (s : Faulty σ) : s.Reaches s := ⟨id, id⟩

theorem reaches_trans {s₁ s₂ s₃ : Faulty σ} (h : s₁.Reaches s₂) (h' : s₂.Reaches s₃) :
    s₁.Reaches s₃ :=
  ⟨fun hnone => h'.crash (h.crash hnone), fun hnone => h'.failure (h.failure hnone)⟩

theorem struck_of_reaches {s₁ s₂ s₃ : Faulty σ} {e : Fault ε} (h : s₁.Reaches s₂)
    (h' : Struck s₂ e s₃) : Struck s₁ e s₃ := by
  obtain ⟨rfl, hne⟩ | ⟨rfl, hne, hnone⟩ := h'
  · exact .inl ⟨rfl, fun hcrash => hne (h.crash hcrash)⟩
  · exact .inr ⟨rfl, fun hfail => hne (h.failure hfail), hnone⟩

theorem not_struck {state : σ} {e : Fault ε} {s' : Faulty σ} :
    ¬ Struck ⟨state, none, none⟩ e s' := by
  rintro (⟨-, hne⟩ | ⟨-, hne, -⟩) <;> exact hne rfl

theorem struck_crash {s s' : Faulty σ} {e : Fault ε} (h : Struck s e s')
    (hnone : s.failIn = none) : e = .crash :=
  h.elim And.left fun hfail => absurd hnone hfail.2.1

end

/-- A program over a state whose steps may fail. -/
abbrev FaultM (σ ε : Type) := Exec (Faulty σ) (Fault ε)

namespace FaultM

open Exec

variable {σ ε α β : Type}

/-- One step: the process dies, the step fails, or the state changes. -/
def step (change : σ → σ) : FaultM σ ε Unit := fun s =>
  if s.crashIn = some 0 then (.error .crash, s)
  else if s.failIn = some 0 then
    (.error .failure, ⟨s.state, s.crashIn.map (· - 1), none⟩)
  else (.ok (), ⟨change s.state, s.crashIn.map (· - 1), s.failIn.map (· - 1)⟩)

/-- Read the state. -/
def get : FaultM σ ε σ :=
  Faulty.state <$> read

/-- A change that is not a step, such as one of an object in memory. -/
def modify (change : σ → σ) : FaultM σ ε Unit :=
  update fun s => { s with state := change s.state }

/-- A pure computation that may raise. -/
def ofExcept (x : Except ε α) : FaultM σ ε α :=
  lift (x.mapError .raised)

/-- `try`/`except`: the handler runs on everything but the death of the process. -/
def recovering (x : FaultM σ ε α) (handler : Fault ε → FaultM σ ε α) : FaultM σ ε α :=
  catching x fun e => match e with
    | .crash => raise .crash
    | e => handler e

/-- `try`/`finally`: what the last part raises replaces what the first part raised. -/
def always (x : FaultM σ ε α) (last : FaultM σ ε Unit) : FaultM σ ε α := do
  let a ← recovering x fun e => do
    last
    raise e
  last
  pure a

/-! ## Weakest preconditions -/

section

variable {Q : α → Faulty σ → Prop} {E : Fault ε → Faulty σ → Prop} {s : Faulty σ}

theorem wp_step {change : σ → σ} {Q : Unit → Faulty σ → Prop}
    (hok : ∀ s' : Faulty σ, s'.state = change s.state → s.Reaches s' → Q () s')
    (herr : ∀ e (s' : Faulty σ), s'.state = s.state → Struck s e s' → E e s') :
    wp (step change) Q E s := by
  unfold wp step
  by_cases hc : s.crashIn = some 0
  · simp only [hc, if_true]
    exact herr _ s rfl (.inl ⟨rfl, by simp [hc]⟩)
  · by_cases hf : s.failIn = some 0
    · simp only [hc, hf, if_true, if_false]
      exact herr _ _ rfl (.inr ⟨rfl, by simp [hf], rfl⟩)
    · simp only [hc, hf, if_false]
      exact hok _ rfl ⟨fun hnone => by simp [hnone], fun hnone => by simp [hnone]⟩

@[simp] theorem wp_get {Q : σ → Faulty σ → Prop} :
    wp (get : FaultM σ ε σ) Q E s ↔ Q s.state s := by
  unfold get
  rw [wp_map, wp_read]

@[simp] theorem wp_modify {change : σ → σ} {Q : Unit → Faulty σ → Prop} :
    wp (modify change : FaultM σ ε Unit) Q E s ↔ Q () { s with state := change s.state } :=
  Iff.rfl

@[simp] theorem wp_of_except (x : Except ε α) :
    wp (ofExcept x : FaultM σ ε α) Q E s ↔
      (∀ a, x = .ok a → Q a s) ∧ (∀ e, x = .error e → E (.raised e) s) := by
  unfold ofExcept wp lift
  cases x <;> simp [Except.mapError]

@[simp] theorem wp_recovering (x : FaultM σ ε α) (handler : Fault ε → FaultM σ ε α) :
    wp (recovering x handler) Q E s ↔
      wp x Q (fun e s' => (e = .crash → E .crash s') ∧ (e ≠ .crash → wp (handler e) Q E s')) s := by
  unfold recovering
  rw [wp_catching]
  have hcases : (fun (e : Fault ε) s' => wp (match e with
        | .crash => (raise .crash : FaultM σ ε α)
        | e => handler e) Q E s') =
      fun e s' => (e = .crash → E .crash s') ∧ (e ≠ .crash → wp (handler e) Q E s') := by
    funext e s'
    cases e <;> simp
  rw [hcases]

@[simp] theorem wp_always (x : FaultM σ ε α) (last : FaultM σ ε Unit) :
    wp (always x last) Q E s ↔
      wp x (fun a s' => wp last (fun _ => Q a) E s')
        (fun e s' => (e = .crash → E .crash s') ∧
          (e ≠ .crash → wp last (fun _ => E e) E s')) s := by
  unfold always
  simp only [wp_bind, wp_recovering, wp_pure, wp_raise]

end

end FaultM

end Akasha.Lib
