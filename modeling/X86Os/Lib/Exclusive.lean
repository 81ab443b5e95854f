import Mathlib.Tactic.ByContra

/-!
# Exclusive use of resources

Places hold resources, and an allocator records which resources are in use. The property an
allocator is there for is that no resource is in two places and that every resource in a place is
recorded. `Exclusive` says so for an arbitrary relation between places and resources and an
arbitrary record.

Every step that keeps it has the same shape, whatever it allocates, moves or frees: a resource that
is in a place afterwards was there before, or was not in use before and is in no second place now.
That is `Exclusive.step`, the only rule; a step that adds nothing is `Exclusive.sub`.
-/

namespace X86Os

/-- No resource is in two places, and every resource in a place is in use. -/
structure Exclusive {ι β : Type*} (holds : ι → β → Prop) (used : β → Prop) : Prop where
  inj : ∀ i j b, holds i b → holds j b → i = j
  used : ∀ i b, holds i b → used b

namespace Exclusive

variable {ι β : Type*} {holds holds' : ι → β → Prop} {used used' : β → Prop}

/-- **The rule.** What is in a place after a step was there before, or was not in use. -/
theorem step (h : Exclusive holds used) (hold : ∀ i b, holds' i b → holds i b ∨ ¬ used b)
    (hnew : ∀ i j b, holds' i b → holds' j b → ¬ used b → i = j)
    (hused : ∀ i b, holds' i b → used' b) : Exclusive holds' used' where
  inj := by
    intro i j b hi hj
    by_cases hb : used b
    · exact h.inj i j b ((hold i b hi).resolve_right fun hn => hn hb)
        ((hold j b hj).resolve_right fun hn => hn hb)
    · exact hnew i j b hi hj hb
  used := hused

/-- A step that puts nothing new anywhere. -/
theorem sub (h : Exclusive holds used) (hold : ∀ i b, holds' i b → holds i b)
    (hused : ∀ i b, holds' i b → used' b) : Exclusive holds' used' :=
  h.step (fun i b hi => Or.inl (hold i b hi))
    (fun i _ b hi _ hb => absurd (h.used i b (hold i b hi)) hb) hused

end Exclusive

end X86Os
