import X86Os.Lib.Comp

/-!
# Two runs of a computation

A statement that something does not matter is about two runs, one from each of two states that agree
on everything else. `Paired R x y s t` says that `x` from `s` and `y` from `t` do the same as far as
`R` can tell: both return, with the same value and in states that `R` relates, or both stop for the
same reason. The rules follow the structure of the computations, as those of `wp` do for one run.
-/

namespace X86Os.Comp

variable {ε σ τ α β : Type} {R : σ → τ → Prop} {x : Comp ε σ α} {y : Comp ε τ α}
  {f : α → Comp ε σ β} {g : α → Comp ε τ β} {s : σ} {t : τ}

/-- Both runs return the same in related states, or stop with the same error. -/
def Paired (R : σ → τ → Prop) (x : Comp ε σ α) (y : Comp ε τ α) (s : σ) (t : τ) : Prop :=
  match x s, y t with
  | .ok (a, s'), .ok (b, t') => a = b ∧ R s' t'
  | .error e, .error e' => e = e'
  | _, _ => False

namespace Paired

theorem pure {a : α} (h : R s t) : Paired R (Pure.pure a : Comp ε σ α) (Pure.pure a) s t := ⟨rfl, h⟩

theorem modify {p : σ → σ} {q : τ → τ} (h : R (p s) (q t)) :
    Paired R (Comp.modify p : Comp ε σ Unit) (Comp.modify q) s t := ⟨rfl, h⟩

theorem stop (e : ε) : Paired R (Comp.stop e : Comp ε σ α) (Comp.stop e) s t := rfl

theorem check {b : Bool} {e : ε} (h : R s t) :
    Paired R (Comp.check b e : Comp ε σ Unit) (Comp.check b e) s t := by
  cases b
  · exact rfl
  · exact ⟨rfl, h⟩

/-- **One computation after another.** -/
theorem bind (h : Paired R x y s t) (hfg : ∀ a s' t', R s' t' → Paired R (f a) (g a) s' t') :
    Paired R (x >>= f) (y >>= g) s t := by
  unfold Paired at h ⊢
  rw [bind_apply, bind_apply]
  cases hx : x s with
  | error e =>
    cases hy : y t with
    | error e' => rw [hx, hy] at h; exact h
    | ok r => rw [hx, hy] at h; exact h.elim
  | ok r =>
    cases hy : y t with
    | error e => rw [hx, hy] at h; exact h.elim
    | ok r' =>
      obtain ⟨a, s'⟩ := r
      obtain ⟨b, t'⟩ := r'
      rw [hx, hy] at h
      obtain ⟨rfl, hr⟩ := h
      exact hfg a s' t' hr

theorem get_bind {f : σ → Comp ε σ β} {g : τ → Comp ε τ β} (h : Paired R (f s) (g t) s t) :
    Paired R (Comp.get >>= f) (Comp.get >>= g) s t := h

/-- What one run returns the other returns too. -/
theorem ok (h : Paired R x y s t) {a : α} {s' : σ} (hx : x s = .ok (a, s')) :
    ∃ t', y t = .ok (a, t') ∧ R s' t' := by
  unfold Paired at h
  rw [hx] at h
  cases hy : y t with
  | error e => rw [hy] at h; exact h.elim
  | ok r =>
    rw [hy] at h
    obtain ⟨rfl, hr⟩ := h
    exact ⟨r.2, rfl, hr⟩

end Paired

end X86Os.Comp
