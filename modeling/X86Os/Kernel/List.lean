import Mathlib.Data.List.Nodup
import Mathlib.Data.List.Perm.Subperm
import X86Os.Kernel.Debug
import X86Os.Lib.Bytes
import X86Os.Lib.Linked

/-!
# Lists in memory

`lib/kernel/list.c`. An element is a pair of links inside some other object, a list is two elements
of its own, `head` and `tail`, that stay where they are, and what is in the list is in the row of
links from the one to the other. Threads, semaphores, free blocks of the heap and open inodes are
kept so, all in one memory, and an element moves from list to list without being copied.

Everywhere else in this development a list of the kernel is a list. That this is right is proved
here: `Lists` says that the memory holds certain lists, and no element twice, and each routine does
to one of them what its name says and leaves the others as they are.

## Main results

* `listInsertBefore_eq`, `listRemove_eq` — the two edits are links
* `Lists.init` — a new list
* `lists_refine_sequences` — **every routine, on the sequences**
-/

namespace X86Os.Intrusive

open X86Os.Comp

/-! ### The code -/

/-- The elements, by address, and whether interrupts are on. -/
structure ListState where
  elems : Links Word
  intr : Bool

/-- `&plist->head`. -/
def head (plist : Word) : Word := plist

/-- `&plist->tail`. -/
def tail (plist : Word) : Word := plist + 8

def setPrev (elem prev : Word) : Kern ListState Unit :=
  modify fun s => { s with elems := s.elems.setPrev elem prev }

def setNext (elem next : Word) : Kern ListState Unit :=
  modify fun s => { s with elems := s.elems.setNext elem next }

/-- `intr_disable`: what the status was. -/
def intrDisable : Kern ListState Bool := do
  let s ← get
  modify fun s => { s with intr := false }
  pure s.intr

/-- `intr_set_status`. -/
def intrSetStatus (status : Bool) : Kern ListState Unit :=
  modify fun s => { s with intr := status }

/-- `list_init`. -/
def listInit (list : Word) : Kern ListState Unit := do
  setPrev (head list) 0
  setNext (head list) (tail list)
  setPrev (tail list) (head list)
  setNext (tail list) 0

/-- `list_insert_before`. -/
def listInsertBefore (before elem : Word) : Kern ListState Unit := do
  let oldStatus ← intrDisable
  let s ← get
  setNext (s.elems.prev before) elem
  let s ← get
  setPrev elem (s.elems.prev before)
  setNext elem before
  setPrev before elem
  intrSetStatus oldStatus

/-- `list_push`. -/
def listPush (plist elem : Word) : Kern ListState Unit := do
  let s ← get
  listInsertBefore (s.elems.next (head plist)) elem

/-- `list_append`. -/
def listAppend (plist elem : Word) : Kern ListState Unit := listInsertBefore (tail plist) elem

/-- `list_remove`. -/
def listRemove (pelem : Word) : Kern ListState Unit := do
  let oldStatus ← intrDisable
  let s ← get
  setNext (s.elems.prev pelem) (s.elems.next pelem)
  let s ← get
  setPrev (s.elems.next pelem) (s.elems.prev pelem)
  intrSetStatus oldStatus

/-- `list_pop`. -/
def listPop (plist : Word) : Kern ListState Word := do
  let s ← get
  let elem := s.elems.next (head plist)
  listRemove elem
  pure elem

/-- The loop `while (elem != &plist->tail)` of the three routines below. At an element, `body` says
what is returned or with what the loop goes on; `done` is what is returned at the end. -/
def walk {α β : Type} (plist : Word) (body : β → Word → α ⊕ β) (done : β → α) :
    (fuel : ℕ) → (acc : β) → (elem : Word) → Kern ListState α
  | 0, _, _ => stop .hang
  | fuel + 1, acc, elem =>
    if elem = tail plist then pure (done acc)
    else match body acc elem with
      | .inl r => pure r
      | .inr acc => do
        let s ← get
        walk plist body done fuel acc (s.elems.next elem)

/-- `elem_find`. -/
def elemFind (fuel : ℕ) (plist objElem : Word) : Kern ListState Bool := do
  let s ← get
  walk plist (fun _ elem => if elem = objElem then .inl true else .inr ()) (fun _ => false) fuel ()
    (s.elems.next (head plist))

/-- `list_empty`. -/
def listEmpty (plist : Word) : Kern ListState Bool := do
  let s ← get
  pure (if s.elems.next (head plist) = tail plist then true else false)

/-- `list_traversal`; `none` is `NULL`. -/
def listTraversal (fuel : ℕ) (plist : Word) (func : Word → ℤ → Bool) (arg : ℤ) :
    Kern ListState (Option Word) := do
  let s ← get
  let elem := s.elems.next (head plist)
  if ← listEmpty plist then pure none
  else
    walk plist (fun _ elem => if func elem arg then .inl (some elem) else .inr ()) (fun _ => none)
      fuel () elem

/-- `list_len`. -/
def listLen (fuel : ℕ) (plist : Word) : Kern ListState Word := do
  let s ← get
  walk plist (fun length _ => .inr (length + 1)) id fuel (0 : Word) (s.elems.next (head plist))

/-! ### The edits are links -/

theorem listInsertBefore_eq (before elem : Word) (s : ListState) :
    listInsertBefore before elem s = .ok ((),
      { s with elems := (s.elems.link (s.elems.prev before) elem).link elem before }) := rfl

theorem listRemove_eq (pelem : Word) (s : ListState) : listRemove pelem s = .ok ((),
    { s with elems := s.elems.link (s.elems.prev pelem) (s.elems.next pelem) }) := by
  -- the second statement reads `pelem->next` again, and finds what the first one wrote or left
  have hnext : (s.elems.setNext (s.elems.prev pelem) (s.elems.next pelem)).next pelem =
      s.elems.next pelem := by
    simp only [Links.setNext, Function.update_apply]
    split_ifs <;> rfl
  simp only [listRemove, intrDisable, intrSetStatus, setNext, setPrev, bind_apply, get_apply,
    modify_apply, pure_apply, hnext]
  rfl

/-! ### Lists of a memory -/

/-- The list with its two ends. -/
def nodes (seq : Word → List Word) (plist : Word) : List Word :=
  head plist :: (seq plist ++ [tail plist])

/-- The memory holds the lists at the addresses `L`, with the elements `seq`. -/
def Lists (elems : Links Word) (L : Set Word) (seq : Word → List Word) : Prop :=
  elems.Rows L (nodes seq)

/-- An element of no list. -/
def InNoList (L : Set Word) (seq : Word → List Word) (elem : Word) : Prop :=
  ∀ plist ∈ L, elem ∉ nodes seq plist

/-- **What a routine does to one list.** It returns `r`, the list is `l` afterwards, and everything
else is as it was. -/
def Does {α : Type} (x : Kern ListState α) (s : ListState) (r : α) (L : Set Word)
    (seq : Word → List Word) (plist : Word) (l : List Word) : Prop :=
  ∃ s', x s = .ok (r, s') ∧ Lists s'.elems L (Function.update seq plist l) ∧ s'.intr = s.intr ∧
    ∀ q ∈ L, q ≠ plist → ∀ a ∈ nodes seq q,
      s'.elems.prev a = s.elems.prev a ∧ s'.elems.next a = s.elems.next a

section

variable {m : Links Word} {L : Set Word} {seq : Word → List Word} {plist elem : Word}
  {l l1 l2 : List Word}

theorem nodes_update (seq : Word → List Word) (plist : Word) (l : List Word) :
    nodes (Function.update seq plist l) =
      Function.update (nodes seq) plist (head plist :: (l ++ [tail plist])) := by
  funext q
  rcases eq_or_ne q plist with rfl | hq
  · simp only [nodes, Function.update_self]
  · simp only [nodes, Function.update_of_ne hq]

/-- What comes before a place in a list ends somewhere. -/
theorem exists_last (plist : Word) (l : List Word) : ∃ l' x, head plist :: l = l' ++ [x] :=
  ⟨_, _, (List.dropLast_append_getLast (List.cons_ne_nil _ l)).symm⟩

/-- What comes after it starts somewhere. -/
theorem exists_first (plist : Word) (l : List Word) :
    ∃ l', l ++ [tail plist] = l.headD (tail plist) :: l' := by
  cases l with
  | nil => exact ⟨[], rfl⟩
  | cons y l => exact ⟨l ++ [tail plist], rfl⟩

/-- **Insert an element** before the first element of `l2`, or before the tail. -/
theorem Lists.insertBefore (h : Lists m L seq) (hp : plist ∈ L) (hl : seq plist = l1 ++ l2)
    (he : InNoList L seq elem) {before : Word} (hb : l2.headD (tail plist) = before) :
    Lists ((m.link (m.prev before) elem).link elem before) L
      (Function.update seq plist (l1 ++ elem :: l2)) ∧ before ∈ nodes seq plist ∧
      m.prev before ∈ nodes seq plist := by
  obtain ⟨l', x, hx⟩ := exists_last plist l1
  obtain ⟨r, hr⟩ := exists_first plist l2
  rw [hb] at hr
  have hnodes : nodes seq plist = l' ++ x :: before :: r := by
    rw [nodes, hl, List.append_assoc, hr, ← List.cons_append, hx, List.append_assoc,
      List.singleton_append]
  have hadj := (Links.row_append_cons_cons.1 (hnodes ▸ h.row plist hp)).2.1
  have hins := Links.Rows.insert h hp hnodes he
  rw [hadj.2]
  refine ⟨?_, by simp [hnodes], by simp [hnodes]⟩
  rw [Lists, nodes_update, List.append_assoc, List.cons_append, hr, ← List.cons_append, hx,
    List.append_assoc, List.singleton_append]
  exact hins

/-- **Take an element out.** -/
theorem Lists.remove (h : Lists m L seq) (hp : plist ∈ L) (hl : seq plist = l1 ++ elem :: l2) :
    Lists (m.link (m.prev elem) (m.next elem)) L (Function.update seq plist (l1 ++ l2)) ∧
      m.prev elem ∈ nodes seq plist ∧ m.next elem ∈ nodes seq plist := by
  obtain ⟨l', x, hx⟩ := exists_last plist l1
  obtain ⟨r, hr⟩ := exists_first plist l2
  have hnodes : nodes seq plist = l' ++ x :: elem :: l2.headD (tail plist) :: r := by
    rw [nodes, hl, List.append_assoc, List.cons_append, hr, ← List.cons_append, hx,
      List.append_assoc, List.singleton_append]
  obtain ⟨-, hprev, hrest⟩ := Links.row_append_cons_cons.1 (hnodes ▸ h.row plist hp)
  have hrem := Links.Rows.remove h hp hnodes
  rw [hprev.2, hrest.next_eq]
  refine ⟨?_, by simp [hnodes], by simp [hnodes]⟩
  rw [Lists, nodes_update, List.append_assoc, hr, ← List.cons_append, hx, List.append_assoc,
    List.singleton_append]
  exact hrem

theorem head_ne_tail (plist : Word) : head plist ≠ tail plist := by
  rw [head, tail]
  bv_omega

/-- **A new list**, of two elements that are in none. -/
theorem Lists.init {s : ListState} (h : Lists s.elems L seq)
    (hhead : InNoList L seq (head plist)) (htail : InNoList L seq (tail plist)) :
    ∃ s', listInit plist s = .ok ((), s') ∧ s'.intr = s.intr ∧
      Lists s'.elems (insert plist L) (Function.update seq plist []) := by
  refine ⟨_, rfl, rfl, ?_⟩
  have hne := head_ne_tail plist
  rw [Lists, nodes_update]
  refine Links.Rows.add ⟨fun q hq => (h.row q hq).congr fun a ha => ?_, h.nodup, h.disjoint⟩
    (fun hp => hhead plist hp List.mem_cons_self) (List.isChain_pair.2 ⟨?_, ?_⟩) ?_
    fun q hq a ha haq => ?_
  · have hah : a ≠ head plist := fun hah => hhead q hq (hah ▸ ha)
    have hat : a ≠ tail plist := fun hat => htail q hq (hat ▸ ha)
    simp [Links.setPrev, Links.setNext, hah, hat]
  · simp [Links.setPrev, Links.setNext, hne]
  · simp [Links.setPrev, Links.setNext]
  · simp [hne]
  · rcases List.mem_pair.1 ha with rfl | rfl
    · exact hhead q hq haq
    · exact htail q hq haq

/-! ### The loops -/

/-- The loop on the sequence. -/
def visit {α β : Type} (body : β → Word → α ⊕ β) (done : β → α) : (acc : β) → List Word → α
  | acc, [] => done acc
  | acc, elem :: l =>
    match body acc elem with
    | .inl r => r
    | .inr acc => visit body done acc l

theorem next_headD {y : Word} (h : m.Row (y :: (l ++ [tail plist]))) :
    m.next y = l.headD (tail plist) := by
  cases l with
  | nil => exact h.next_eq
  | cons x l => exact h.next_eq

/-- **The loop ends**, and is the loop on the sequence. -/
theorem walk_eq {α β : Type} {body : β → Word → α ⊕ β} {done : β → α} {acc : β} {s : ListState}
    {fuel : ℕ} (h : s.elems.Row (l ++ [tail plist])) (ht : tail plist ∉ l)
    (hfuel : l.length < fuel) :
    walk plist body done fuel acc (l.headD (tail plist)) s = .ok (visit body done acc l, s) := by
  induction l generalizing fuel acc with
  | nil =>
    obtain ⟨k, rfl⟩ := Nat.exists_eq_add_of_lt hfuel
    rw [walk, List.headD_nil, if_pos rfl]
    rfl
  | cons y l ih =>
    obtain ⟨k, rfl⟩ := Nat.exists_eq_add_of_lt hfuel
    rw [List.mem_cons, not_or] at ht
    rw [walk, List.headD_cons, if_neg (Ne.symm ht.1), visit]
    cases body acc y with
    | inl r => rfl
    | inr acc =>
      simp only [bind_apply, get_apply, next_headD h]
      exact ih h.tail ht.2 (by rw [List.length_cons]; omega)

theorem visit_find (objElem : Word) (l : List Word) :
    visit (fun _ elem => if elem = objElem then .inl true else .inr ()) (fun _ => false) () l =
      decide (objElem ∈ l) := by
  induction l with
  | nil => rfl
  | cons y l ih =>
    rw [visit]
    by_cases hy : y = objElem
    · simp [hy]
    · simp [hy, Ne.symm hy, ih]

theorem visit_traversal (func : Word → ℤ → Bool) (arg : ℤ) (l : List Word) :
    visit (fun _ elem => if func elem arg then .inl (some elem) else .inr ()) (fun _ => none) () l =
      l.find? (func · arg) := by
  induction l with
  | nil => rfl
  | cons y l ih =>
    rw [visit]
    by_cases hy : func y arg = true
    · simp [hy]
    · simp [hy, ih]

theorem visit_len (n : Word) (l : List Word) :
    visit (fun length _ => .inr (length + 1)) id n l = n + BitVec.ofNat 32 l.length := by
  induction l generalizing n with
  | nil => simp [visit]
  | cons y l ih =>
    rw [visit]
    dsimp only
    rw [ih, List.length_cons, BitVec.ofNat_add, BitVec.add_assoc, BitVec.add_comm 1]
    rfl

/-- There are not more addresses than a `uint32_t` can count. -/
theorem Lists.length_lt (h : Lists m L seq) (hp : plist ∈ L) : (seq plist).length < 2 ^ 32 := by
  have hnd : ((nodes seq plist).map BitVec.toNat).Nodup :=
    List.Nodup.map (fun _ _ => BitVec.eq_of_toNat_eq) (h.nodup plist hp)
  have hsub : (nodes seq plist).map BitVec.toNat ⊆ List.range (2 ^ 32) := fun n hn => by
    obtain ⟨a, -, rfl⟩ := List.mem_map.1 hn
    exact List.mem_range.2 a.isLt
  have hlen := (hnd.subperm hsub).length_le
  rw [List.length_map, List.length_range, nodes, List.length_cons, List.length_append] at hlen
  omega

theorem Lists.nodup_seq (h : Lists m L seq) (hp : plist ∈ L) : (seq plist).Nodup :=
  (List.nodup_append.1 (List.nodup_cons.1 (h.nodup plist hp)).2).1

theorem Lists.start (h : Lists m L seq) (hp : plist ∈ L) :
    m.next (head plist) = (seq plist).headD (tail plist) ∧ m.Row (seq plist ++ [tail plist]) ∧
      tail plist ∉ seq plist := by
  have hrow : m.Row (nodes seq plist) := h.row plist hp
  have hnd : (nodes seq plist).Nodup := h.nodup plist hp
  refine ⟨next_headD hrow, hrow.tail, fun ht => ?_⟩
  exact (List.nodup_append.1 (List.nodup_cons.1 hnd).2).2.2 _ ht _ List.mem_cons_self rfl

/-! ### The routines -/

variable {s : ListState}

theorem listInsertBefore_does (h : Lists s.elems L seq) (hp : plist ∈ L)
    (hl : seq plist = l1 ++ l2) (he : InNoList L seq elem) {before : Word}
    (hb : l2.headD (tail plist) = before) :
    Does (listInsertBefore before elem) s () L seq plist (l1 ++ elem :: l2) := by
  obtain ⟨hlists, hbefore, hprev⟩ := h.insertBefore hp hl he hb
  refine ⟨_, listInsertBefore_eq before elem s, hlists, rfl, fun q hq hqp a ha => ?_⟩
  have hae : a ≠ elem := fun hae => he q hq (hae ▸ ha)
  have hab : a ≠ before := fun hab => h.not_mem hp hbefore hq hqp (hab ▸ ha)
  have hap : a ≠ s.elems.prev before := fun hap => h.not_mem hp hprev hq hqp (hap ▸ ha)
  exact ⟨by simp [hae, hab], by simp [hae, hap]⟩

theorem listRemove_does (h : Lists s.elems L seq) (hp : plist ∈ L)
    (hl : seq plist = l1 ++ elem :: l2) :
    Does (listRemove elem) s () L seq plist (l1 ++ l2) := by
  obtain ⟨hlists, hprev, hnext⟩ := h.remove hp hl
  refine ⟨_, listRemove_eq elem s, hlists, rfl, fun q hq hqp a ha => ⟨?_, ?_⟩⟩
  · exact Links.prev_link _ fun han => h.not_mem hp hnext hq hqp (han ▸ ha)
  · exact Links.next_link _ fun hap => h.not_mem hp hprev hq hqp (hap ▸ ha)

end

/-- **Every routine, on the sequences.** -/
theorem lists_refine_sequences {s : ListState} {L : Set Word} {seq : Word → List Word}
    (h : Lists s.elems L seq) {plist : Word} (hp : plist ∈ L) :
    (∀ elem, InNoList L seq elem →
      Does (listPush plist elem) s () L seq plist (elem :: seq plist) ∧
      Does (listAppend plist elem) s () L seq plist (seq plist ++ [elem]) ∧
      ∀ l1 before l2, seq plist = l1 ++ before :: l2 →
        Does (listInsertBefore before elem) s () L seq plist (l1 ++ elem :: before :: l2)) ∧
    (∀ elem ∈ seq plist,
      Does (listRemove elem) s () L seq plist ((seq plist).erase elem)) ∧
    (∀ elem l, seq plist = elem :: l → Does (listPop plist) s elem L seq plist l) ∧
    listEmpty plist s = .ok ((seq plist).isEmpty, s) ∧
    ∀ fuel, (seq plist).length < fuel →
      (∀ objElem, elemFind fuel plist objElem s = .ok (decide (objElem ∈ seq plist), s)) ∧
      (∃ n, listLen fuel plist s = .ok (n, s) ∧ n.toNat = (seq plist).length) ∧
      ∀ func arg,
        listTraversal fuel plist func arg s = .ok ((seq plist).find? (func · arg), s) := by
  obtain ⟨hnext, hrow, htail⟩ := h.start hp
  have hempty : listEmpty plist s = .ok ((seq plist).isEmpty, s) := by
    simp only [listEmpty, bind_apply, get_apply, pure_apply, hnext]
    cases hseq : seq plist with
    | nil =>
      rw [List.headD_nil, if_pos rfl]
      rfl
    | cons y l =>
      have hy : tail plist ≠ y := fun hy => htail (hy ▸ hseq ▸ List.mem_cons_self)
      rw [List.headD_cons, if_neg hy.symm]
      rfl
  refine ⟨fun elem he => ⟨?_, ?_, fun l1 before l2 hl => ?_⟩, fun elem he => ?_,
    fun elem l hl => ?_, hempty, fun fuel hfuel => ⟨fun objElem => ?_,
      ⟨BitVec.ofNat 32 (seq plist).length, ?_, ?_⟩, fun func arg => ?_⟩⟩
  · have hpush : listPush plist elem s = listInsertBefore (s.elems.next (head plist)) elem s := rfl
    obtain ⟨s', hrun, hrest⟩ := listInsertBefore_does h hp (List.nil_append _).symm he hnext.symm
    exact ⟨s', hpush.trans hrun, hrest⟩
  · exact listInsertBefore_does h hp (List.append_nil _).symm he rfl
  · exact listInsertBefore_does h hp hl he rfl
  · obtain ⟨l1, l2, hl⟩ := List.append_of_mem he
    have hnot : elem ∉ l1 := fun hm => (List.nodup_append.1 (hl ▸ h.nodup_seq hp)).2.2 elem hm elem
      List.mem_cons_self rfl
    rw [hl, List.erase_append_right _ hnot, List.erase_cons_head]
    exact listRemove_does h hp hl
  · obtain ⟨s', hrun, hrest⟩ := listRemove_does h hp (hl.trans (List.nil_append _).symm)
    rw [hl, List.headD_cons] at hnext
    refine ⟨s', ?_, hrest⟩
    simp only [listPop, bind_apply, get_apply, hnext, hrun, pure_apply]
  · rw [elemFind, bind_apply, get_apply]
    dsimp only
    rw [hnext, walk_eq hrow htail hfuel, visit_find]
  · rw [listLen, bind_apply, get_apply]
    dsimp only
    rw [hnext, walk_eq hrow htail hfuel, visit_len, show (0 : Word) = 0#32 from rfl,
      BitVec.zero_add]
  · rw [BitVec.toNat_ofNat, Nat.mod_eq_of_lt (h.length_lt hp)]
  · rw [listTraversal, bind_apply, get_apply]
    dsimp only
    rw [bind_of_ok hempty]
    by_cases hnil : seq plist = []
    · rw [hnil]
      rfl
    · rw [if_neg (by simpa using hnil), hnext, walk_eq hrow htail hfuel, visit_traversal]

/-- A list with one element and an empty one. -/
def twoLists : ListState where
  elems := ((Links.mk (fun _ => 0) fun _ => 0).link 0x1000 0x3000).link 0x3000 0x1008 |>.link
    0x2000 0x2008
  intr := true

/-- The elements of the two. -/
def twoSeqs (plist : Word) : List Word := if plist = 0x1000 then [0x3000] else []

theorem lists_twoLists : Lists twoLists.elems {0x1000, 0x2000} twoSeqs := by
  refine ⟨?_, ?_, ?_⟩
  · rintro q (rfl | rfl)
    · exact List.isChain_cons_cons.2 ⟨⟨by decide, by decide⟩, List.isChain_pair.2
        ⟨by decide, by decide⟩⟩
    · exact List.isChain_pair.2 ⟨by decide, by decide⟩
  · rintro q (rfl | rfl)
    · decide
    · decide
  · have hdisj : ∀ a ∈ nodes twoSeqs 0x1000, a ∉ nodes twoSeqs 0x2000 := by
      simp [nodes, twoSeqs, head, tail]
    have hne : (0x1000 : Word) ∉ ({0x2000} : Set Word) := (by decide : (0x1000 : Word) ≠ 0x2000)
    refine (Set.pairwise_insert_of_notMem hne).2 ⟨Set.pairwise_singleton _ _, ?_⟩
    rintro q rfl
    exact ⟨hdisj, fun a ha hb => hdisj a hb ha⟩

theorem lists_refine_twoLists :
    Does (listAppend 0x1000 0x4000) twoLists () {0x1000, 0x2000} twoSeqs 0x1000 [0x3000, 0x4000] ∧
      elemFind 2 0x1000 0x3000 twoLists = .ok (true, twoLists) := by
  have hnew : InNoList {0x1000, 0x2000} twoSeqs 0x4000 := by
    rintro q (rfl | rfl)
    · decide
    · decide
  obtain ⟨hinsert, -, -, -, hread⟩ :=
    lists_refine_sequences lists_twoLists (Set.mem_insert 0x1000 {0x2000})
  exact ⟨(hinsert 0x4000 hnew).2.1, (hread 2 (by decide)).1 0x3000⟩

end X86Os.Intrusive
