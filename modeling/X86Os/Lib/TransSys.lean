import Mathlib.Tactic.TypeStar

/-!
# Runs of a transition system

A system is a set of initial states and a labelled step relation. Everything proved about a whole
run in this development goes through one induction, `TransSys.Reach.invariant`: a predicate that
holds initially and survives each step holds in every state a run reaches.

## Guarded runs

`Reach ok` restricts the runs to those whose every step is taken under the guard `ok`, a condition
on the state *before* the step and on the label. The unrestricted runs are the case
`ok := fun _ _ => True`, which is `Reachable`. A guard is how a result of the form "the property
holds in every run that avoids this step" is stated without a second copy of the step relation.
-/

namespace X86Os

/-- Initial states and labelled steps. -/
structure TransSys (σ : Type*) (ι : Type*) where
  /-- The states a run may start in. -/
  init : σ → Prop
  /-- `step s l s'`: the label `l` takes `s` to `s'`. -/
  step : σ → ι → σ → Prop

namespace TransSys

variable {σ ι : Type*} {S : TransSys σ ι} {ok : σ → ι → Prop}

/-- The states reached by runs all of whose steps meet the guard `ok` in the state they leave. -/
inductive Reach (S : TransSys σ ι) (ok : σ → ι → Prop) : σ → Prop
  | init {s : σ} : S.init s → Reach S ok s
  | step {s s' : σ} {l : ι} : Reach S ok s → ok s l → S.step s l s' → Reach S ok s'

/-- The states reached by any run. -/
def Reachable (S : TransSys σ ι) : σ → Prop := S.Reach fun _ _ => True

/-- **The invariant rule.** -/
theorem Reach.invariant {I : σ → Prop} (hinit : ∀ s, S.init s → I s)
    (hstep : ∀ s l s', I s → ok s l → S.step s l s' → I s') {s : σ} (h : S.Reach ok s) : I s := by
  induction h with
  | init h => exact hinit _ h
  | step _ hok hst ih => exact hstep _ _ _ ih hok hst

/-- The system whose steps a function computes; `none` is no step. -/
def ofNext (init : σ → Prop) (next : σ → ι → Option σ) : TransSys σ ι where
  init := init
  step s l s' := next s l = some s'

/-- The state after the labels `ls`, taken in order. -/
def exec (next : σ → ι → Option σ) : (ls : List ι) → σ → Option σ
  | [], s => some s
  | l :: ls, s => (next s l).bind (exec next ls)

/-- A list of labels that can be taken one after the other is a run. -/
theorem reach_exec {next : σ → ι → Option σ}
    (hnext : ∀ s l s', next s l = some s' → ok s l ∧ S.step s l s') {ls : List ι} {s s' : σ}
    (h : exec next ls s = some s') (hs : S.Reach ok s) : S.Reach ok s' := by
  induction ls generalizing s with
  | nil =>
    cases h
    exact hs
  | cons l ls ih =>
    obtain ⟨t, ht, h⟩ := Option.bind_eq_some_iff.mp h
    obtain ⟨hok, hstep⟩ := hnext s l t ht
    exact ih h (.step hs hok hstep)

/-- What holds at the end of a computed run holds in some state that is reached. -/
theorem exists_reach {next : σ → ι → Option σ}
    (hnext : ∀ s l s', next s l = some s' → ok s l ∧ S.step s l s') {s : σ} (hs : S.init s)
    (ls : List ι) {P : σ → Bool} (h : (exec next ls s).any P = true) :
    ∃ s', S.Reach ok s' ∧ P s' = true := by
  cases hs' : exec next ls s with
  | none => rw [hs'] at h; cases h
  | some s' => rw [hs'] at h; exact ⟨s', reach_exec hnext hs' (.init hs), h⟩

theorem exists_reachable {init : σ → Prop} {next : σ → ι → Option σ} {s : σ} (hs : init s)
    (ls : List ι) {P : σ → Bool} (h : (exec next ls s).any P = true) :
    ∃ s', (ofNext init next).Reachable s' ∧ P s' = true :=
  exists_reach (S := ofNext init next) (fun _ _ _ hst => ⟨trivial, hst⟩) hs ls h

/-- The steps that meet a guard. -/
def guarded (ok : σ → ι → Prop) [∀ s l, Decidable (ok s l)] (next : σ → ι → Option σ) (s : σ)
    (l : ι) : Option σ := if ok s l then next s l else none

theorem guarded_eq_some [∀ s l, Decidable (ok s l)] {next : σ → ι → Option σ} {s s' : σ} {l : ι} :
    guarded ok next s l = some s' ↔ ok s l ∧ next s l = some s' := by
  rw [guarded]
  split <;> simp_all

end TransSys

end X86Os
