import Mathlib.Tactic.TypeStar

/-!
# Computations that keep a state and may stop

`Comp ε σ α` is a computation over a state `σ` that either returns an `α` and a new state or stops
with a fault `ε`. It is the shape of a routine that passes its state along and can halt the machine
half way: a fault gives back no state, because nothing runs after it.

## Two ways to reason about a routine

`wp x Q E s` says what both outcomes of `x` from `s` satisfy: `Q` the value and state it returns,
`E` the fault it stops with. Partial correctness is `E := fun _ => True`, and that a routine cannot
stop is `E := fun _ => False`. The rules follow the way a computation is built, so `simp` walks a
routine forward. A proof that starts from a run that did return inverts it with `bind_eq_ok`
instead.

## Main results

* `Comp.bind_eq_ok` — a successful run of a sequence is two successful runs
* `Comp.wp_bind`, `wp_check`, `wp_ite` — the structural rules
* `Comp.wp.mono` — weakening
* `Comp.Keeps.bind` and the other rules of `Keeps` — what a computation does not touch
* `Comp.Maintains.bind` and the other rules of `Maintains` — what a computation does not break
* `Comp.Triple.bind` and the other rules of `Triple` — pre- and postconditions
-/

namespace X86Os

/-- A computation over the state `σ` that returns an `α` or stops with a fault `ε`. -/
def Comp (ε σ α : Type) : Type := σ → Except ε (α × σ)

namespace Comp

variable {ε σ α β : Type}

instance : Monad (Comp ε σ) where
  pure a := fun s => .ok (a, s)
  bind x f := fun s => match x s with
    | .ok (a, s') => f a s'
    | .error e => .error e

/-- Read the state. -/
def get : Comp ε σ σ := fun s => .ok (s, s)

/-- Change the state. -/
def modify (f : σ → σ) : Comp ε σ Unit := fun s => .ok ((), f s)

/-- Stop. -/
def stop (e : ε) : Comp ε σ α := fun _ => .error e

/-- Go on only if `b` holds. -/
def check (b : Bool) (e : ε) : Comp ε σ Unit := fun s => if b then .ok ((), s) else .error e

/-- Run a computation on a part of the state, read by `get` and put back by `put`. -/
def zoom {τ : Type} (get : σ → τ) (put : σ → τ → σ) (x : Comp ε τ α) : Comp ε σ α := fun s =>
  match x (get s) with
  | .ok (a, t) => .ok (a, put s t)
  | .error e => .error e

/-- A computation that does not touch the state. -/
def lift (x : Except ε α) : Comp ε σ α := fun s => x.map fun a => (a, s)

/-! ### Running -/

@[simp] theorem pure_apply (a : α) (s : σ) : (pure a : Comp ε σ α) s = .ok (a, s) := rfl

@[simp] theorem get_apply (s : σ) : (get : Comp ε σ σ) s = .ok (s, s) := rfl

@[simp] theorem modify_apply (f : σ → σ) (s : σ) :
    (modify f : Comp ε σ Unit) s = .ok ((), f s) := rfl

@[simp] theorem stop_apply (e : ε) (s : σ) : (stop e : Comp ε σ α) s = .error e := rfl

theorem bind_apply (x : Comp ε σ α) (f : α → Comp ε σ β) (s : σ) :
    (x >>= f) s = match x s with
      | .ok (a, s') => f a s'
      | .error e => .error e := rfl

theorem bind_of_ok {x : Comp ε σ α} {f : α → Comp ε σ β} {s s' : σ} {a : α}
    (h : x s = .ok (a, s')) : (x >>= f) s = f a s' := by
  rw [bind_apply, h]

theorem bind_bind {γ : Type} (x : Comp ε σ α) (f : α → Comp ε σ β) (g : β → Comp ε σ γ) (s : σ) :
    (x >>= f >>= g) s = (x >>= fun a => f a >>= g) s := by
  simp only [bind_apply]
  cases x s <;> rfl

/-- Sequences that go the same way from a state. -/
theorem bind_congr_run {x y : Comp ε σ α} {f g : α → Comp ε σ β} {s : σ} (h : x s = y s)
    (hfg : ∀ a s', x s = .ok (a, s') → f a s' = g a s') : (x >>= f) s = (y >>= g) s := by
  rw [bind_apply, bind_apply, ← h]
  cases hx : x s with
  | ok r => exact hfg r.1 r.2 hx
  | error e => rfl

/-- A successful run of a sequence is a successful run of each part. -/
theorem bind_eq_ok {x : Comp ε σ α} {f : α → Comp ε σ β} {s s' : σ} {b : β} :
    (x >>= f) s = .ok (b, s') ↔ ∃ a t, x s = .ok (a, t) ∧ f a t = .ok (b, s') := by
  rw [bind_apply]
  constructor
  · intro h
    cases hx : x s with
    | error e => rw [hx] at h; cases h
    | ok r => obtain ⟨a, t⟩ := r; rw [hx] at h; exact ⟨a, t, rfl, h⟩
  · rintro ⟨a, t, hx, hf⟩
    rw [hx]
    exact hf

theorem pure_eq_ok {a b : α} {s s' : σ} :
    (pure a : Comp ε σ α) s = .ok (b, s') ↔ a = b ∧ s = s' := by simp

theorem modify_eq_ok {f : σ → σ} {s s' : σ} {u : Unit} :
    (modify f : Comp ε σ Unit) s = .ok (u, s') ↔ f s = s' := by simp

theorem check_eq_ok {b : Bool} {e : ε} {s s' : σ} {u : Unit} :
    (check b e : Comp ε σ Unit) s = .ok (u, s') ↔ b = true ∧ s = s' := by
  unfold check
  split <;> simp_all

theorem check_of_true {b : Bool} (e : ε) (s : σ) (h : b = true) :
    (check b e : Comp ε σ Unit) s = .ok ((), s) := by simp [check, h]

/-! ### Evaluating a run -/

/-- The value a run returns, if it does. -/
def value? (x : Comp ε σ α) (s : σ) : Option α :=
  match x s with
  | .ok (a, _) => some a
  | .error _ => none

/-- The state a run leaves; where it started if it stops. -/
def final (x : Comp ε σ α) (s : σ) : σ :=
  match x s with
  | .ok (_, s') => s'
  | .error _ => s

/-- The state a run leaves, if it returns. -/
def state? (x : Comp ε σ α) (s : σ) : Option σ :=
  match x s with
  | .ok (_, s') => some s'
  | .error _ => none

/-- The reason why a run stops, if it does. -/
def fault? (x : Comp ε σ α) (s : σ) : Option ε :=
  match x s with
  | .ok _ => none
  | .error e => some e

theorem eq_error_of_fault? {x : Comp ε σ α} {s : σ} {e : ε} (h : x.fault? s = some e) :
    x s = .error e := by
  rw [fault?] at h
  cases hx : x s with
  | error e' => rw [hx] at h; cases h; rfl
  | ok r => rw [hx] at h; cases h

theorem state?_of_value? {x : Comp ε σ α} {s : σ} {a : α} (h : x.value? s = some a) :
    x.state? s = some (x.final s) := by
  rw [value?] at h
  rw [state?, final]
  cases hx : x s with
  | error e => rw [hx] at h; cases h
  | ok r => rfl

theorem ok_of_state? {x : Comp ε σ α} {s s' : σ} (h : x.state? s = some s') :
    ∃ a, x s = .ok (a, s') := by
  rw [state?] at h
  cases hx : x s with
  | error e => rw [hx] at h; cases h
  | ok r => rw [hx] at h; cases h; exact ⟨r.1, rfl⟩

theorem eq_ok_of_value? {x : Comp ε σ α} {s : σ} {a : α} (h : x.value? s = some a) :
    x s = .ok (a, x.final s) := by
  rw [value?] at h
  rw [final]
  cases hx : x s with
  | error e => rw [hx] at h; cases h
  | ok r => rw [hx] at h; cases h; rfl

/-! ### Weakest preconditions -/

/-- `wp x Q E s`: started in `s`, the computation `x` either returns with `Q` or stops with a fault
that satisfies `E`. -/
def wp (x : Comp ε σ α) (Q : α → σ → Prop) (E : ε → Prop) (s : σ) : Prop :=
  match x s with
  | .ok (a, s') => Q a s'
  | .error e => E e

/-- `post x Q s`: if `x` returns from `s`, it returns with `Q`. -/
abbrev post (x : Comp ε σ α) (Q : α → σ → Prop) (s : σ) : Prop := wp x Q (fun _ => True) s

section

variable {x : Comp ε σ α} {f : α → Comp ε σ β} {Q Q' : α → σ → Prop} {R : β → σ → Prop}
  {E E' : ε → Prop} {s : σ}

theorem wp_of_ok {a : α} {s' : σ} (h : x s = .ok (a, s')) : wp x Q E s ↔ Q a s' := by
  rw [wp, h]

theorem wp_of_error {e : ε} (h : x s = .error e) : wp x Q E s ↔ E e := by
  rw [wp, h]

@[simp] theorem wp_pure {a : α} : wp (pure a : Comp ε σ α) Q E s ↔ Q a s := Iff.rfl

@[simp] theorem wp_bind : wp (x >>= f) R E s ↔ wp x (fun a s' => wp (f a) R E s') E s := by
  unfold wp
  rw [bind_apply]
  cases x s <;> rfl

@[simp] theorem wp_get {Q : σ → σ → Prop} : wp (get : Comp ε σ σ) Q E s ↔ Q s s := Iff.rfl

@[simp] theorem wp_modify {g : σ → σ} {Q : Unit → σ → Prop} :
    wp (modify g : Comp ε σ Unit) Q E s ↔ Q () (g s) := Iff.rfl

@[simp] theorem wp_stop {e : ε} : wp (stop e : Comp ε σ α) Q E s ↔ E e := Iff.rfl

/-- After a check, its condition may be assumed. -/
@[simp] theorem wp_check {b : Bool} {e : ε} {Q : Unit → σ → Prop} :
    wp (check b e : Comp ε σ Unit) Q E s ↔ (b = true → Q () s) ∧ (b = false → E e) := by
  cases b <;> simp [wp, check]

theorem wp_lift {y : Except ε α} :
    wp (lift y : Comp ε σ α) Q E s ↔ (∀ a, y = .ok a → Q a s) ∧ (∀ e, y = .error e → E e) := by
  cases y <;> simp [wp, lift, Except.map]

@[simp] theorem wp_zoom {τ : Type} {get : σ → τ} {put : σ → τ → σ} {y : Comp ε τ α} :
    wp (zoom get put y) Q E s ↔ wp y (fun a t => Q a (put s t)) E (get s) := by
  unfold wp zoom
  cases y (get s) <;> rfl

theorem wp_ite {c : Prop} [Decidable c] {y z : Comp ε σ α} :
    wp (if c then y else z) Q E s ↔ (c → wp y Q E s) ∧ (¬ c → wp z Q E s) := by
  split <;> simp_all

theorem wp.mono (h : wp x Q E s) (hQ : ∀ a s', Q a s' → Q' a s') (hE : ∀ e, E e → E' e) :
    wp x Q' E' s := by
  unfold wp at h ⊢
  cases hx : x s with
  | ok r => rw [hx] at h; exact hQ _ _ h
  | error e => rw [hx] at h; exact hE _ h

/-- Two things that are known of a result. -/
theorem wp.and (h : wp x Q E s) (h' : post x Q' s) : wp x (fun a s' => Q a s' ∧ Q' a s') E s := by
  unfold post wp at *
  cases hx : x s with
  | ok r => rw [hx] at h h'; exact ⟨h, h'⟩
  | error e => rw [hx] at h; exact h

/-- The result may be taken for the one that the run has. -/
theorem wp_of_run (h : wp x (fun a s' => x s = .ok (a, s') → Q a s') E s) : wp x Q E s := by
  unfold wp at *
  cases hx : x s with
  | ok r => rw [hx] at h; exact h rfl
  | error e => rw [hx] at h; exact h

theorem post_of_forall (h : ∀ a s', Q a s') : post x Q s := by
  unfold post wp
  split
  · exact h _ _
  · trivial

theorem wp.ok (h : wp x Q E s) {a : α} {s' : σ} (hx : x s = .ok (a, s')) : Q a s' := by
  unfold wp at h
  rwa [hx] at h

theorem wp.error (h : wp x Q E s) {e : ε} (hx : x s = .error e) : E e := by
  unfold wp at h
  rwa [hx] at h

theorem wp.stops {e : ε} (h : wp x (fun _ _ => False) (· = e) s) : x s = .error e := by
  cases hx : x s with
  | ok r => exact (h.ok hx).elim
  | error e' => rw [h.error hx]

theorem wp.returns (h : wp x Q (fun _ => False) s) : ∃ a s', x s = .ok (a, s') ∧ Q a s' := by
  cases hx : x s with
  | ok r => exact ⟨r.1, r.2, rfl, h.ok hx⟩
  | error e => exact (h.error hx).elim

end

/-! ### Frames -/

/-- The computation leaves the part `f` of the state alone. -/
def Keeps {τ : Type} (f : σ → τ) (x : Comp ε σ α) : Prop := ∀ s, post x (fun _ s' => f s' = f s) s

section

variable {τ : Type} {f : σ → τ} {x : Comp ε σ α} {g : α → Comp ε σ β}

theorem Keeps.pure (a : α) : Keeps f (Pure.pure a : Comp ε σ α) := fun _ => rfl

theorem Keeps.get : Keeps f (Comp.get : Comp ε σ σ) := fun _ => rfl

theorem Keeps.stop (e : ε) : Keeps f (Comp.stop e : Comp ε σ α) := fun _ => trivial

theorem Keeps.modify {h : σ → σ} (hh : ∀ s, f (h s) = f s) :
    Keeps f (Comp.modify h : Comp ε σ Unit) := hh

theorem Keeps.check (b : Bool) (e : ε) : Keeps f (Comp.check b e : Comp ε σ Unit) := by
  intro s
  rw [post, wp_check]
  exact ⟨fun _ => rfl, fun _ => trivial⟩

theorem Keeps.lift (y : Except ε α) : Keeps f (Comp.lift y : Comp ε σ α) := by
  intro s
  rw [post, wp_lift]
  exact ⟨fun _ _ => rfl, fun _ _ => trivial⟩

theorem Keeps.bind (hx : Keeps f x) (hg : ∀ a, Keeps f (g a)) : Keeps f (x >>= g) := by
  intro s
  rw [post, wp_bind]
  refine (hx s).mono (fun a s' hs => (hg a s').mono (fun b s'' hs' => hs'.trans hs) fun _ h => h)
    fun _ h => h

theorem Keeps.ite {c : Prop} [Decidable c] {y z : Comp ε σ α} (hy : Keeps f y) (hz : Keeps f z) :
    Keeps f (if c then y else z) := by
  split
  · exact hy
  · exact hz

theorem Keeps.zoom {ρ : Type} {get : σ → ρ} {put : σ → ρ → σ} (y : Comp ε ρ α)
    (h : ∀ s r, f (put s r) = f s) : Keeps f (Comp.zoom get put y) := by
  intro s
  rw [post, wp_zoom, wp]
  cases y (get s) with
  | ok r => exact h _ _
  | error e => trivial

/-- A frame, and then what comes after it. -/
theorem Keeps.bind_post (hx : Keeps f x) {R : β → σ → Prop} {s : σ}
    (h : ∀ a s', f s' = f s → post (g a) R s') : post (x >>= g) R s := by
  rw [post, wp_bind]
  exact (hx s).mono h fun _ h => h

/-- A frame added to what is known of the result. -/
theorem Keeps.and (hx : Keeps f x) {Q : α → σ → Prop} {s : σ} (h : post x Q s) :
    post x (fun a s' => Q a s' ∧ f s' = f s) s := by
  have hf := hx s
  rw [post, wp] at h hf ⊢
  cases hrun : x s with
  | ok r => rw [hrun] at h hf; exact ⟨h, hf⟩
  | error e => trivial

end

/-! ### Invariants -/

/-- The computation, started where `P` holds, returns only where `P` holds. -/
def Maintains (P : σ → Prop) (x : Comp ε σ α) : Prop := ∀ s, P s → post x (fun _ s' => P s') s

section

variable {P : σ → Prop} {x : Comp ε σ α} {g : α → Comp ε σ β}

theorem Maintains.pure (a : α) : Maintains P (Pure.pure a : Comp ε σ α) := fun _ h => h

theorem Maintains.get : Maintains P (Comp.get : Comp ε σ σ) := fun _ h => h

theorem Maintains.stop (e : ε) : Maintains P (Comp.stop e : Comp ε σ α) := fun _ _ => trivial

theorem Maintains.modify {h : σ → σ} (hh : ∀ s, P s → P (h s)) :
    Maintains P (Comp.modify h : Comp ε σ Unit) := hh

theorem Maintains.check (b : Bool) (e : ε) : Maintains P (Comp.check b e : Comp ε σ Unit) := by
  intro s hs
  rw [post, wp_check]
  exact ⟨fun _ => hs, fun _ => trivial⟩

theorem Maintains.lift (y : Except ε α) : Maintains P (Comp.lift y : Comp ε σ α) := by
  intro s hs
  rw [post, wp_lift]
  exact ⟨fun _ _ => hs, fun _ _ => trivial⟩

theorem Maintains.bind (hx : Maintains P x) (hg : ∀ a, Maintains P (g a)) :
    Maintains P (x >>= g) := by
  intro s hs
  rw [post, wp_bind]
  exact (hx s hs).mono (fun a s' hs' => hg a s' hs') fun _ h => h

theorem Maintains.ite {c : Prop} [Decidable c] {y z : Comp ε σ α} (hy : Maintains P y)
    (hz : Maintains P z) : Maintains P (if c then y else z) := by
  split
  · exact hy
  · exact hz

end

/-! ### Triples -/

/-- Started where `P` holds, the computation returns only with `Q`. -/
def Triple (P : σ → Prop) (x : Comp ε σ α) (Q : α → σ → Prop) : Prop := ∀ s, P s → post x Q s

section

variable {P : σ → Prop} {x : Comp ε σ α} {g : α → Comp ε σ β} {Q : α → σ → Prop} {R : β → σ → Prop}

theorem Triple.pure {a : α} (h : ∀ s, P s → Q a s) : Triple P (Pure.pure a : Comp ε σ α) Q := h

theorem Triple.modify {f : σ → σ} {Q : Unit → σ → Prop} (h : ∀ s, P s → Q () (f s)) :
    Triple P (Comp.modify f : Comp ε σ Unit) Q := h

theorem Triple.stop (e : ε) : Triple P (Comp.stop e : Comp ε σ α) Q := fun _ _ => trivial

theorem Triple.bind (hx : Triple P x Q) (hg : ∀ a, Triple (Q a) (g a) R) :
    Triple P (x >>= g) R := by
  intro s hs
  rw [post, wp_bind]
  exact (hx s hs).mono (fun a s' hs' => hg a s' hs') fun _ h => h

/-- Reading the state: what follows may use what was read. -/
theorem Triple.get_bind {k : σ → Comp ε σ β} (h : ∀ s, P s → post (k s) R s) :
    Triple P (Comp.get >>= k) R := fun s hs => by
  rw [post, wp_bind]
  exact h s hs

theorem Triple.ite {c : Prop} [Decidable c] {y z : Comp ε σ α} (hy : c → Triple P y Q)
    (hz : ¬ c → Triple P z Q) : Triple P (if c then y else z) Q := by
  split
  · exact hy (by assumption)
  · exact hz (by assumption)

theorem Triple.mono {P' : σ → Prop} {Q' : α → σ → Prop} (h : Triple P x Q) (hP : ∀ s, P' s → P s)
    (hQ : ∀ a s, Q a s → Q' a s) : Triple P' x Q' := fun s hs =>
  (h s (hP s hs)).mono hQ fun _ h => h

/-- What a computation does not touch, it does not break. -/
theorem Keeps.triple {τ : Type} {f : σ → τ} (hx : Keeps f x)
    (hP : ∀ s s', f s' = f s → P s → P s') :
    Triple P x fun _ => P := fun s hs =>
  (hx s).mono (fun _ s' hf => hP s s' hf hs) fun _ h => h

end

end Comp

end X86Os
