import Mathlib.Data.List.Chain
import Mathlib.Data.Set.Pairwise.Basic

/-!
# Doubly linked rows

Nodes with a link to the next node and a link back, and several rows of such nodes in one memory.
Every edit of a row that keeps it a row is made of one step, `link x y`: let `y` follow `x`. To
insert a node is to link it to both sides, to take a node out is to link its neighbours.

A link is written in two nodes and spoils at most one neighbourhood on either side: the one that `x`
had with what followed it, and the one that `y` had with what it followed. `Row.link` says so, and
is all that has to be known about memory.
-/

namespace X86Os

/-- Where the links of each node lead. -/
structure Links (α : Type*) where
  prev : α → α
  next : α → α

namespace Links

variable {α : Type*} {m : Links α} {l l1 l2 : List α} {a b e x y z : α}

/-- `y` follows `x`, and both know it. -/
def Adj (m : Links α) (x y : α) : Prop := m.next x = y ∧ m.prev y = x

/-- Every node of the list is followed by the next one. -/
def Row (m : Links α) (l : List α) : Prop := l.IsChain m.Adj

theorem Row.next_eq (h : m.Row (x :: y :: l)) : m.next x = y := (List.isChain_cons_cons.1 h).1.1

theorem Row.tail (h : m.Row (x :: l)) : m.Row l := List.IsChain.tail h

/-- A row is a matter of the links of its nodes. -/
theorem Row.congr (h : m.Row l) {m' : Links α}
    (hl : ∀ a ∈ l, m'.prev a = m.prev a ∧ m'.next a = m.next a) : m'.Row l :=
  List.IsChain.imp_of_mem_imp (fun _ _ ha hb hab =>
    ⟨(hl _ ha).2.trans hab.1, (hl _ hb).1.trans hab.2⟩) h

theorem row_append_cons_cons :
    m.Row (l1 ++ x :: y :: l2) ↔ m.Row (l1 ++ [x]) ∧ m.Adj x y ∧ m.Row (y :: l2) :=
  List.isChain_append_cons_cons

/-- The two sides of a seam have no node in common. -/
theorem disjoint_of_seam (hnd : (l1 ++ x :: y :: l2).Nodup) :
    (l1 ++ [x]).Disjoint (y :: l2) := by
  rw [List.append_cons] at hnd
  exact fun a ha hb => (List.nodup_append.1 hnd).2.2 a ha a hb rfl

section

variable [DecidableEq α]

def setNext (m : Links α) (x y : α) : Links α := { m with next := Function.update m.next x y }

def setPrev (m : Links α) (y x : α) : Links α := { m with prev := Function.update m.prev y x }

/-- Let `y` follow `x`. -/
def link (m : Links α) (x y : α) : Links α := (m.setNext x y).setPrev y x

theorem adj_link (m : Links α) (x y : α) : (m.link x y).Adj x y :=
  ⟨Function.update_self _ _ _, Function.update_self _ _ _⟩

@[simp] theorem next_link (m : Links α) (h : a ≠ x) : (m.link x y).next a = m.next a :=
  Function.update_of_ne h _ _

@[simp] theorem prev_link (m : Links α) (h : b ≠ y) : (m.link x y).prev b = m.prev b :=
  Function.update_of_ne h _ _

theorem Adj.link (h : m.Adj a b) (ha : a ≠ x) (hb : b ≠ y) : (m.link x y).Adj a b :=
  ⟨(next_link m ha).trans h.1, (prev_link m hb).trans h.2⟩

/-- **What a link leaves alone.** -/
theorem Row.link (h : m.Row l) (hx : x ∈ l → m.next x ∉ l) (hy : y ∈ l → m.prev y ∉ l) :
    (m.link x y).Row l := by
  refine List.IsChain.imp_of_mem_imp (fun a b ha hb hab => ?_) h
  refine hab.link ?_ ?_
  · rintro rfl
    exact hx ha (hab.1 ▸ hb)
  · rintro rfl
    exact hy hb (hab.2 ▸ ha)

theorem Row.link_of_not_mem (h : m.Row l) (hx : x ∉ l) (hy : y ∉ l) : (m.link x y).Row l :=
  h.link (absurd · hx) (absurd · hy)

/-- **A node between two neighbours.** -/
theorem Row.insert (h : m.Row (l1 ++ x :: y :: l2)) (hnd : (l1 ++ x :: y :: l2).Nodup)
    (he : e ∉ l1 ++ x :: y :: l2) : ((m.link x e).link e y).Row (l1 ++ x :: e :: y :: l2) := by
  obtain ⟨hleft, ⟨hnext, hprev⟩, hright⟩ := row_append_cons_cons.1 h
  have hdisj := disjoint_of_seam hnd
  rw [List.append_cons, List.mem_append, not_or] at he
  obtain ⟨hel, her⟩ := he
  have hyl : y ∉ l1 ++ [x] := fun hm => hdisj hm List.mem_cons_self
  have hxr : x ∉ y :: l2 := hdisj (List.mem_append_right _ List.mem_cons_self)
  have hxe : x ≠ e := fun hxe => hel (hxe ▸ List.mem_append_right _ List.mem_cons_self)
  have hye : y ≠ e := fun hye => her (hye ▸ List.mem_cons_self)
  refine row_append_cons_cons.2 ⟨?_, (adj_link m x e).link hxe hye.symm, List.isChain_cons_cons.2
    ⟨adj_link _ e y, ?_⟩⟩
  · refine Row.link_of_not_mem (hleft.link (fun _ => ?_) (absurd · hel)) hel hyl
    rwa [hnext]
  · refine (hright.link_of_not_mem hxr her).link (absurd · her) fun _ => ?_
    rwa [prev_link m hye, hprev]

/-- **A node taken out.** -/
theorem Row.remove (h : m.Row (l1 ++ x :: y :: z :: l2)) (hnd : (l1 ++ x :: y :: z :: l2).Nodup) :
    (m.link x z).Row (l1 ++ x :: z :: l2) := by
  obtain ⟨hleft, ⟨hnext, -⟩, hmid⟩ := row_append_cons_cons.1 h
  obtain ⟨⟨-, hprev⟩, hright⟩ := List.isChain_cons_cons.1 hmid
  have hdisj := disjoint_of_seam hnd
  have hnd' : (y :: z :: l2).Nodup := (List.nodup_append.1 (List.append_cons .. ▸ hnd)).2.1
  refine row_append_cons_cons.2 ⟨hleft.link (fun _ => ?_) fun hz => ?_, adj_link m x z,
    Row.link hright (fun hx => ?_) fun _ => ?_⟩
  · rw [hnext]
    exact fun hm => hdisj hm List.mem_cons_self
  · exact absurd (List.mem_cons_of_mem _ List.mem_cons_self) (hdisj hz)
  · exact absurd (List.mem_cons_of_mem _ hx)
      (hdisj (List.mem_append_right _ List.mem_cons_self))
  · rw [hprev]
    exact (List.nodup_cons.1 hnd').1

end

/-! ### All rows of a memory -/

/-- The rows `rows i`, for `i` in `I`, are in the memory, and no node is in two places. -/
structure Rows {ι : Type*} (m : Links α) (I : Set ι) (rows : ι → List α) : Prop where
  row : ∀ i ∈ I, m.Row (rows i)
  nodup : ∀ i ∈ I, (rows i).Nodup
  disjoint : I.Pairwise fun i j => (rows i).Disjoint (rows j)

theorem Rows.not_mem {ι : Type*} {I : Set ι} {rows : ι → List α} {i j : ι} (h : m.Rows I rows)
    (hi : i ∈ I) (ha : a ∈ rows i) (hj : j ∈ I) (hji : j ≠ i) : a ∉ rows j :=
  h.disjoint hi hj hji.symm ha

section

variable {ι : Type*} [DecidableEq ι] {I : Set ι} {rows : ι → List α} {i : ι} {m' : Links α}

/-- **One more row**, of nodes that are in none. -/
theorem Rows.add (h : m.Rows I rows) (hi : i ∉ I) (hrow : m.Row l) (hnd : l.Nodup)
    (hdisj : ∀ j ∈ I, l.Disjoint (rows j)) : m.Rows (insert i I) (Function.update rows i l) := by
  have hold : ∀ j ∈ I, Function.update rows i l j = rows j := fun j hj =>
    Function.update_of_ne (ne_of_mem_of_not_mem hj hi) _ _
  refine ⟨?_, ?_, (Set.pairwise_insert_of_notMem hi).2 ⟨fun j hj k hk hjk => ?_, fun j hj => ?_⟩⟩
  · rintro j (rfl | hj)
    · rwa [Function.update_self]
    · rw [hold j hj]
      exact h.row j hj
  · rintro j (rfl | hj)
    · rwa [Function.update_self]
    · rw [hold j hj]
      exact h.nodup j hj
  · simp only [hold j hj, hold k hk]
    exact h.disjoint hj hk hjk
  · simp only [hold j hj, Function.update_self]
    exact ⟨hdisj j hj, fun a haj hal => hdisj j hj hal haj⟩

/-- One row changes, and the nodes that are new in it are in no row. -/
theorem Rows.update (h : m.Rows I rows) (hi : i ∈ I) (hrow : m'.Row l) (hnd : l.Nodup)
    (hmem : ∀ a ∈ l, a ∈ rows i ∨ ∀ j ∈ I, a ∉ rows j)
    (hrest : ∀ j ∈ I, j ≠ i → m'.Row (rows j)) : m'.Rows I (Function.update rows i l) := by
  have hothers : m'.Rows (I \ {i}) rows := ⟨fun j hj => hrest j hj.1 hj.2, fun j hj =>
    h.nodup j hj.1, h.disjoint.mono Set.sdiff_subset⟩
  have hadd := hothers.add (fun hmem => hmem.2 rfl) hrow hnd fun j hj a ha haj =>
    (hmem a ha).elim (fun hai => h.disjoint hi hj.1 (Ne.symm hj.2) hai haj) fun hnew =>
      hnew j hj.1 haj
  rwa [Set.insert_sdiff_singleton, Set.insert_eq_of_mem hi] at hadd

variable [DecidableEq α]

/-- **A node inserted in one of the rows.** -/
theorem Rows.insert (h : m.Rows I rows) (hi : i ∈ I) (hl : rows i = l1 ++ x :: y :: l2)
    (he : ∀ j ∈ I, e ∉ rows j) :
    ((m.link x e).link e y).Rows I (Function.update rows i (l1 ++ x :: e :: y :: l2)) := by
  have hrow := h.row i hi
  have hnd := h.nodup i hi
  have hei := he i hi
  have hx : x ∈ rows i := by simp [hl]
  have hy : y ∈ rows i := by simp [hl]
  rw [hl] at hrow hnd hei
  refine h.update hi (hrow.insert hnd hei) ?_ (fun a ha => ?_) fun j hj hji => ?_
  · have hperm : (l1 ++ x :: e :: y :: l2).Perm (e :: (l1 ++ x :: y :: l2)) := by
      rw [List.append_cons, List.append_cons l1 x (y :: l2)]
      exact List.perm_middle
    exact hperm.nodup_iff.2 (List.nodup_cons.2 ⟨hei, hnd⟩)
  · rcases eq_or_ne a e with rfl | hae
    · exact .inr he
    · left
      rw [hl]
      simp only [List.mem_append, List.mem_cons] at ha ⊢
      tauto
  · exact ((h.row j hj).link_of_not_mem (h.not_mem hi hx hj hji) (he j hj)).link_of_not_mem
      (he j hj) (h.not_mem hi hy hj hji)

/-- **A node taken out of one of the rows.** -/
theorem Rows.remove (h : m.Rows I rows) (hi : i ∈ I) (hl : rows i = l1 ++ x :: y :: z :: l2) :
    (m.link x z).Rows I (Function.update rows i (l1 ++ x :: z :: l2)) := by
  have hrow := h.row i hi
  have hnd := h.nodup i hi
  have hx : x ∈ rows i := by simp [hl]
  have hz : z ∈ rows i := by simp [hl]
  rw [hl] at hrow hnd
  have hsub : (l1 ++ x :: z :: l2).Sublist (l1 ++ x :: y :: z :: l2) :=
    ((List.sublist_cons_self y _).cons_cons x).append_left l1
  refine h.update hi (hrow.remove hnd) (hnd.sublist hsub) (fun a ha => .inl ?_) fun j hj hji =>
    (h.row j hj).link_of_not_mem (h.not_mem hi hx hj hji) (h.not_mem hi hz hj hji)
  rw [hl]
  exact hsub.subset ha

end

end Links

end X86Os
