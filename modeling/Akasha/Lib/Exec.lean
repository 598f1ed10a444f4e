import Mathlib.Order.Basic

/-!
# Stateful computations that may raise

`Exec σ ε α` is a computation over a state `σ` that either returns an `α` or raises an `ε`,
and keeps the state it reached in both cases, as a `try` statement observes it. The program
logic is the weakest precondition `wp`: one equation for each way of building a computation,
`wp_mono` for weakening, and one invariant rule for each loop. The rules `wp_for_each` and
`wp_collect` index their invariant by the part of the list already visited. `Ascends` is for
what a computation can only make larger; it is closed under every way of building one.
-/

namespace Akasha.Lib

/-- A computation over a state that returns a value or raises an exception. -/
def Exec (σ ε α : Type) : Type :=
  σ → Except ε α × σ

namespace Exec

variable {σ ε α β : Type}

/-- Return a value and leave the state alone. -/
protected def pure (a : α) : Exec σ ε α :=
  fun s => (.ok a, s)

/-- Run `x`, and continue with `f` unless `x` raised. -/
protected def bind (x : Exec σ ε α) (f : α → Exec σ ε β) : Exec σ ε β :=
  fun s =>
    match x s with
    | (.ok a, s') => f a s'
    | (.error e, s') => (.error e, s')

instance : Monad (Exec σ ε) where
  pure := Exec.pure
  bind := Exec.bind

/-- Raise an exception. -/
def raise (e : ε) : Exec σ ε α :=
  fun s => (.error e, s)

/-- Read the state. -/
def read : Exec σ ε σ :=
  fun s => (.ok s, s)

/-- Replace the state. -/
def update (f : σ → σ) : Exec σ ε Unit :=
  fun s => (.ok (), f s)

/-- Run `x` and hand what it raises to `handler`, which continues in the state `x` reached. -/
def catching (x : Exec σ ε α) (handler : ε → Exec σ ε α) : Exec σ ε α :=
  fun s =>
    match x s with
    | (.ok a, s') => (.ok a, s')
    | (.error e, s') => handler e s'

/-- A pure check: raise what it raises. -/
def lift (x : Except ε α) : Exec σ ε α :=
  fun s => (x, s)

/-- Raise `e` unless the condition holds. -/
def ensure (condition : Prop) [Decidable condition] (e : ε) : Exec σ ε Unit :=
  if condition then pure () else raise e

/-- A step that changes nothing when it raises. -/
def attempt (f : σ → Except ε (σ × α)) : Exec σ ε α :=
  fun s =>
    match f s with
    | .ok (s', a) => (.ok a, s')
    | .error e => (.error e, s)

/-- Run a computation on a part of the state. -/
def zoom {τ : Type} (get : σ → τ) (put : τ → σ → σ) (x : Exec τ ε α) : Exec σ ε α :=
  fun s => ((x (get s)).1, put (x (get s)).2 s)

/-- Run `body` on the elements in order; the first exception ends the loop. -/
def forEach : List α → (α → Exec σ ε Unit) → Exec σ ε Unit
  | [], _ => pure ()
  | x :: xs, body => do
      body x
      forEach xs body

/-- Run `body` on the elements in order and keep what it found. -/
def collect : List α → (α → Exec σ ε (Option β)) → Exec σ ε (List β)
  | [], _ => pure []
  | x :: xs, body => do
      let found ← body x
      let rest ← collect xs body
      pure (found.toList ++ rest)

variable {x : Exec σ ε α} {a : α}

theorem bind_of_ok {f : α → Exec σ ε β} {s s' : σ} (h : x s = (.ok a, s')) :
    (x >>= f) s = f a s' := by
  change Exec.bind x f s = _
  simp [Exec.bind, h]

theorem bind_of_error {f : α → Exec σ ε β} {s s' : σ} {e : ε} (h : x s = (.error e, s')) :
    (x >>= f) s = (.error e, s') := by
  change Exec.bind x f s = _
  simp [Exec.bind, h]

theorem bind_of_eq {x y : Exec σ ε α} {s : σ} (h : x s = y s) (f : α → Exec σ ε β) :
    (x >>= f) s = (y >>= f) s := by
  change Exec.bind x f s = Exec.bind y f s
  simp [Exec.bind, h]

theorem ensure_of {condition : Prop} [Decidable condition] (h : condition) (e : ε) (s : σ) :
    ensure condition e s = (.ok (), s) := by
  unfold ensure
  rw [if_pos h]
  rfl

theorem ensure_of_not {condition : Prop} [Decidable condition] (h : ¬ condition) (e : ε) (s : σ) :
    ensure condition e s = (.error e, s) := by
  unfold ensure
  rw [if_neg h]
  rfl

theorem read_bind (f : σ → Exec σ ε β) (s : σ) : (read >>= f : Exec σ ε β) s = f s s := rfl

theorem update_bind (change : σ → σ) (f : Unit → Exec σ ε β) (s : σ) :
    (update change >>= f : Exec σ ε β) s = f () (change s) := rfl

theorem lift_ok_bind {x : Except ε α} (h : x = .ok a) (f : α → Exec σ ε β) :
    (lift x >>= f : Exec σ ε β) = f a := by
  subst h
  rfl

/-! ## Runs that return -/

theorem bind_ok_iff {f : α → Exec σ ε β} {s t : σ} {b : β} :
    (x >>= f) s = (.ok b, t) ↔ ∃ a s', x s = (.ok a, s') ∧ f a s' = (.ok b, t) := by
  change Exec.bind x f s = _ ↔ _
  unfold Exec.bind
  rcases x s with ⟨_ | a, s'⟩
  · simp
  · simp only [Prod.mk.injEq, Except.ok.injEq]
    exact ⟨fun h => ⟨a, s', ⟨rfl, rfl⟩, h⟩, fun ⟨_, _, ⟨ha, hs⟩, h⟩ => ha ▸ hs ▸ h⟩

theorem lift_ok_iff {x : Except ε α} {s t : σ} :
    lift x s = (.ok a, t) ↔ x = .ok a ∧ s = t := by
  simp [lift]

theorem pure_ok_iff {s t : σ} {a b : α} :
    (pure a : Exec σ ε α) s = (.ok b, t) ↔ a = b ∧ s = t := by
  change ((.ok a, s) : Except ε α × σ) = _ ↔ _
  simp

theorem update_ok_iff {change : σ → σ} {s t : σ} {u : Unit} :
    (update change : Exec σ ε Unit) s = (.ok u, t) ↔ change s = t := by
  simp [update]

theorem ensure_ok_iff {condition : Prop} [Decidable condition] {e : ε} {s t : σ} {u : Unit} :
    (ensure condition e : Exec σ ε Unit) s = (.ok u, t) ↔ condition ∧ s = t := by
  unfold ensure
  split
  · rename_i h
    exact pure_ok_iff.trans (by simp [h])
  · rename_i h
    simp [raise, h]

theorem attempt_ok_iff {f : σ → Except ε (σ × α)} {s t : σ} :
    attempt f s = (.ok a, t) ↔ f s = .ok (t, a) := by
  unfold attempt
  rcases f s with _ | ⟨s', b⟩
  · simp
  · simp [and_comm]

theorem zoom_ok_iff {τ : Type} {get : σ → τ} {put : τ → σ → σ} {x : Exec τ ε α} {s t : σ} :
    zoom get put x s = (.ok a, t) ↔ ∃ inner, x (get s) = (.ok a, inner) ∧ put inner s = t := by
  unfold zoom
  rcases x (get s) with ⟨result, inner⟩
  simp only [Prod.mk.injEq]
  exact ⟨fun h => ⟨inner, ⟨h.1, rfl⟩, h.2⟩, fun ⟨_, ⟨hresult, hinner⟩, h⟩ => ⟨hresult, hinner ▸ h⟩⟩

theorem catching_raise_ok_iff {change : σ → σ} {s t : σ} :
    catching x (fun e => do
      update change
      raise e) s = (.ok a, t) ↔ x s = (.ok a, t) := by
  unfold catching
  rcases x s with ⟨e | b, s'⟩
  · simp only [Prod.mk.injEq, reduceCtorEq, false_and, iff_false]
    exact fun h => nomatch congrArg Prod.fst h
  · rfl

/-! ## Weakest preconditions -/

/-- Running `x` from `s` either returns with `Q` or raises with `E`. -/
def wp (x : Exec σ ε α) (Q : α → σ → Prop) (E : ε → σ → Prop) (s : σ) : Prop :=
  match x s with
  | (.ok a, s') => Q a s'
  | (.error e, s') => E e s'

variable {Q : α → σ → Prop} {E : ε → σ → Prop} {s : σ}

theorem wp_ok {s' : σ} (h : wp x Q E s) (hx : x s = (.ok a, s')) :
    Q a s' := by
  simpa [wp, hx] using h

theorem wp_error {e : ε} {s' : σ} (h : wp x Q E s) (hx : x s = (.error e, s')) : E e s' := by
  simpa [wp, hx] using h

theorem wp_final {P : σ → Prop} (h : wp x (fun _ => P) (fun _ => P) s) :
    P (x s).2 := by
  unfold wp at h
  split at h <;> simp_all

theorem wp_run (x : Exec σ ε α) (s : σ) :
    wp x (fun a s' => x s = (.ok a, s')) (fun e s' => x s = (.error e, s')) s := by
  unfold wp
  split <;> assumption

theorem wp_of_ok {s' : σ} (h : x s = (.ok a, s')) (hQ : Q a s') :
    wp x Q E s := by
  simpa [wp, h] using hQ

theorem wp_trivial (x : Exec σ ε α) (s : σ) : wp x (fun _ _ => True) (fun _ _ => True) s := by
  unfold wp
  split <;> trivial

theorem wp_mono {Q' : α → σ → Prop} {E' : ε → σ → Prop} (h : wp x Q E s)
    (hok : ∀ a s', Q a s' → Q' a s') (herr : ∀ e s', E e s' → E' e s') :
    wp x Q' E' s := by
  unfold wp at h ⊢
  split
  · exact hok _ _ (by simp_all)
  · exact herr _ _ (by simp_all)

theorem wp_and {Q' : α → σ → Prop} {E' : ε → σ → Prop} (h : wp x Q E s) (h' : wp x Q' E' s) :
    wp x (fun a s' => Q a s' ∧ Q' a s') (fun e s' => E e s' ∧ E' e s') s := by
  unfold wp at h h' ⊢
  split <;> simp_all

@[simp] theorem wp_pure (a : α) : wp (pure a : Exec σ ε α) Q E s ↔ Q a s :=
  Iff.rfl

@[simp] theorem wp_bind (x : Exec σ ε α) (f : α → Exec σ ε β) {Q : β → σ → Prop} :
    wp (x >>= f) Q E s ↔ wp x (fun a s' => wp (f a) Q E s') E s := by
  change wp (Exec.bind x f) Q E s ↔ _
  unfold wp Exec.bind
  cases x s with
  | mk r s' => cases r <;> rfl

@[simp] theorem wp_map (f : α → β) (x : Exec σ ε α) {Q : β → σ → Prop} :
    wp (f <$> x) Q E s ↔ wp x (fun a => Q (f a)) E s := by
  change wp (x >>= fun a => pure (f a)) Q E s ↔ _
  rw [wp_bind]
  rfl

@[simp] theorem wp_raise (e : ε) : wp (raise e : Exec σ ε α) Q E s ↔ E e s :=
  Iff.rfl

@[simp] theorem wp_read {Q : σ → σ → Prop} : wp (read : Exec σ ε σ) Q E s ↔ Q s s :=
  Iff.rfl

@[simp] theorem wp_update (f : σ → σ) {Q : Unit → σ → Prop} :
    wp (update f : Exec σ ε Unit) Q E s ↔ Q () (f s) :=
  Iff.rfl

@[simp] theorem wp_catching (x : Exec σ ε α) (handler : ε → Exec σ ε α) :
    wp (catching x handler) Q E s ↔ wp x Q (fun e s' => wp (handler e) Q E s') s := by
  unfold wp catching
  cases x s with
  | mk r s' => cases r <;> rfl

@[simp] theorem wp_lift (x : Except ε α) :
    wp (lift x : Exec σ ε α) Q E s ↔
      (∀ a, x = .ok a → Q a s) ∧ (∀ e, x = .error e → E e s) := by
  unfold wp lift
  cases x <;> simp

@[simp] theorem wp_ensure {condition : Prop} [Decidable condition] {e : ε}
    {Q : Unit → σ → Prop} :
    wp (ensure condition e : Exec σ ε Unit) Q E s ↔
      (condition → Q () s) ∧ (¬ condition → E e s) := by
  unfold ensure
  split <;> simp_all

@[simp] theorem wp_ite {condition : Prop} [Decidable condition] {x y : Exec σ ε α} :
    wp (if condition then x else y) Q E s ↔
      (condition → wp x Q E s) ∧ (¬ condition → wp y Q E s) := by
  split <;> simp_all

/-! ## Loops -/

theorem wp_for_each {body : α → Exec σ ε Unit} (I : List α → σ → Prop) (xs : List α)
    (hbody : ∀ before x after, xs = before ++ x :: after → ∀ s, I before s →
      wp (body x) (fun _ s' => I (before ++ [x]) s') E s)
    (h : I [] s) : wp (forEach xs body) (fun _ => I xs) E s := by
  suffices hrest : ∀ after before s, xs = before ++ after → I before s →
      wp (forEach after body) (fun _ => I xs) E s from hrest xs [] s rfl h
  intro after
  induction after with
  | nil =>
      intro before s hxs hI
      simp only [List.append_nil] at hxs
      simpa [forEach, hxs] using hI
  | cons x after ih =>
      intro before s hxs hI
      simp only [forEach, wp_bind]
      refine wp_mono (hbody before x after hxs s hI) ?_ fun _ _ he => he
      intro _ s' hs'
      exact ih (before ++ [x]) s' (by simp [hxs]) hs'

theorem wp_for_each_inv {body : α → Exec σ ε Unit} (I : σ → Prop) (xs : List α)
    (hbody : ∀ x ∈ xs, ∀ s, I s → wp (body x) (fun _ => I) E s)
    (h : I s) : wp (forEach xs body) (fun _ => I) E s := by
  refine wp_for_each (fun _ => I) xs ?_ h
  intro before x after hxs s hs
  exact hbody x (by simp [hxs]) s hs

/-- A collecting loop keeps an invariant indexed by the elements visited and the values kept. -/
theorem wp_collect {body : α → Exec σ ε (Option β)} (I : List α → List β → σ → Prop)
    (xs : List α)
    (hbody : ∀ before kept x after, xs = before ++ x :: after → ∀ s, I before kept s →
      wp (body x) (fun found s' => I (before ++ [x]) (kept ++ found.toList) s') E s)
    (h : I [] [] s) : wp (collect xs body) (fun kept => I xs kept) E s := by
  suffices hrest : ∀ after before kept s, xs = before ++ after → I before kept s →
      wp (collect after body) (fun rest => I xs (kept ++ rest)) E s by
    simpa using hrest xs [] [] s rfl h
  intro after
  induction after with
  | nil =>
      intro before kept s hxs hI
      simp only [List.append_nil] at hxs
      simpa [collect, hxs] using hI
  | cons x after ih =>
      intro before kept s hxs hI
      simp only [collect, wp_bind, wp_pure]
      refine wp_mono (hbody before kept x after hxs s hI) ?_ fun _ _ he => he
      intro found s' hs'
      have hnext := ih (before ++ [x]) _ s' (by simp [hxs]) hs'
      refine wp_mono hnext ?_ fun _ _ he => he
      intro rest s'' hs''
      rwa [List.append_assoc] at hs''

theorem wp_collect_inv {body : α → Exec σ ε (Option β)} (I : σ → Prop) (xs : List α)
    (hbody : ∀ x ∈ xs, ∀ s, I s → wp (body x) (fun _ => I) E s)
    (h : I s) : wp (collect xs body) (fun _ => I) E s := by
  refine wp_collect (fun _ _ => I) xs ?_ h
  intro before kept x after hxs s hs
  exact hbody x (by simp [hxs]) s hs

/-! ## Measures that only grow -/

/-- The measure `f` of the state does not go down, whatever the outcome. -/
def Ascends {γ : Type} [Preorder γ] (f : σ → γ) (x : Exec σ ε α) : Prop :=
  ∀ s, f s ≤ f (x s).2

section

variable {γ : Type} [Preorder γ] {f : σ → γ}

theorem ascends_pure (a : α) : Ascends f (pure a : Exec σ ε α) := fun _ => le_rfl

theorem ascends_raise (e : ε) : Ascends f (raise e : Exec σ ε α) := fun _ => le_rfl

theorem ascends_read : Ascends f (read : Exec σ ε σ) := fun _ => le_rfl

theorem ascends_lift (x : Except ε α) : Ascends f (lift x : Exec σ ε α) := fun _ => le_rfl

theorem ascends_update {change : σ → σ} (h : ∀ s, f s ≤ f (change s)) :
    Ascends f (update change : Exec σ ε Unit) := h

theorem ascends_ensure (condition : Prop) [Decidable condition] (e : ε) :
    Ascends f (ensure condition e : Exec σ ε Unit) := by
  unfold ensure
  split
  · exact ascends_pure ()
  · exact ascends_raise e

theorem le_bind {x : Exec σ ε α} {next : α → Exec σ ε β} (hnext : ∀ a, Ascends f (next a))
    (s : σ) : f (x s).2 ≤ f ((x >>= next) s).2 := by
  change f (x s).2 ≤ f (Exec.bind x next s).2
  unfold Exec.bind
  rcases x s with ⟨_ | a, s'⟩
  · exact le_rfl
  · exact hnext a s'

theorem ascends_bind {x : Exec σ ε α} {next : α → Exec σ ε β} (hx : Ascends f x)
    (hnext : ∀ a, Ascends f (next a)) : Ascends f (x >>= next) :=
  fun s => (hx s).trans (le_bind hnext s)

theorem ascends_map {x : Exec σ ε α} (g : α → β) (hx : Ascends f x) : Ascends f (g <$> x) :=
  ascends_bind hx fun a => ascends_pure (g a)

theorem ascends_ite {condition : Prop} [Decidable condition] {x y : Exec σ ε α}
    (hx : Ascends f x) (hy : Ascends f y) : Ascends f (if condition then x else y) := by
  split
  · exact hx
  · exact hy

theorem ascends_catching {x : Exec σ ε α} {handler : ε → Exec σ ε α} (hx : Ascends f x)
    (hhandler : ∀ e, Ascends f (handler e)) : Ascends f (catching x handler) := by
  intro s
  have hfirst := hx s
  unfold catching
  split
  · next a s' hrun =>
      rw [hrun] at hfirst
      exact hfirst
  · next e s' hrun =>
      rw [hrun] at hfirst
      exact hfirst.trans (hhandler e s')

theorem ascends_for_each {body : α → Exec σ ε Unit} (hbody : ∀ x, Ascends f (body x))
    (xs : List α) : Ascends f (forEach xs body) := by
  induction xs with
  | nil => exact ascends_pure ()
  | cons x xs ih => exact ascends_bind (hbody x) fun _ => ih

theorem ascends_collect {body : α → Exec σ ε (Option β)} (hbody : ∀ x, Ascends f (body x))
    (xs : List α) : Ascends f (collect xs body) := by
  induction xs with
  | nil => exact ascends_pure []
  | cons x xs ih =>
      exact ascends_bind (hbody x) fun _ => ascends_bind ih fun _ => ascends_pure _

end

end Exec

end Akasha.Lib
