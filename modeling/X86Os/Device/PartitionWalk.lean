import X86Os.Device.Partitions

/-!
# The partitions of one disk

What `partition_scan` finds on a disk, compared with what is there. The boot record and the extended
boot records are a tree: a record has four entries, and each of them that is an extended partition
leads to another record. The **walk** of a disk is everything there is in this tree, in the order of
the entries, and each thing in it has the path of the record that it is in.

The scan goes along the walk, with one exception. When it has found the eighth logical partition it
leaves the record that this one is in, and with it all that is below the record; but it does not
leave the records above. What it reaches is the walk without what it leaves out, and the scan is
that sequence of small steps (`partitionScan_eq`). The results about what is found are then about a
list.

A scan ends badly in three ways. The fourth primary partition makes the counter 4, and there is an
assertion that it is smaller. A logical partition that is reached after the eighth is written behind
the array. And a record may be on a sector that the driver does not read.

## Main results

* `partitionScan_eq` — the scan as a sequence of steps
* `partitionScan_iff` — when all primary partitions and the first eight logical ones are found
* `partitionScan_overruns` — what else can happen
-/

namespace X86Os

open X86Os.Comp

/-! ### What is on a disk -/

/-- What there is to do at a place of the walk. -/
inductive ScanItem
  /-- There is a record to read. -/
  | record (lba : Word)
  /-- The extended partition of the disk starts here. -/
  | extended (lba : Word)
  | primary (r : PartitionRec)
  | logical (r : PartitionRec)

/-- An item with the way to the record that it is in: which entries lead there. -/
structure Visit where
  path : List ℕ
  item : ScanItem

namespace Visit

def isPrimary (v : Visit) : Bool :=
  match v.item with
  | .primary _ => true
  | _ => false

def isLogical (v : Visit) : Bool :=
  match v.item with
  | .logical _ => true
  | _ => false

/-- If it is a record, the driver can read its sector. -/
def onDisk (v : Visit) : Bool :=
  match v.item with
  | .record lba => lba.toNat ≤ maxLba
  | _ => true

end Visit

/-- Entry `i` of the extended boot record `bs`, which is at `lba`. -/
def ebrEntry (walk : List ℕ → Word → List Visit) (base lba : Word) (bs : Buf) (path : List ℕ)
    (i : ℕ) : List Visit :=
  let p := partitionTable bs i
  if p.fsType = 5 then walk (path ++ [i]) (p.startLba + base)
  else if p.fsType ≠ 0 then [⟨path, .logical ⟨lba + p.startLba, p.secCnt⟩⟩]
  else []

/-- The extended boot record at `lba` and what is below it, to the depth `n`. -/
def ebrWalk (d : Disk) (base : Word) : (n : ℕ) → (path : List ℕ) → (lba : Word) → List Visit
  | 0, _, _ => []
  | n + 1, path, lba => ⟨path, .record lba⟩ ::
    (List.range' 0 4).flatMap (ebrEntry (ebrWalk d base n) base lba (d.sector lba.toNat) path)

/-- Entry `i` of the boot record. -/
def bootEntry (d : Disk) (n i : ℕ) : List Visit :=
  let p := partitionTable (d.sector 0) i
  if p.fsType = 5 then ⟨[], .extended p.startLba⟩ :: ebrWalk d p.startLba n [i] p.startLba
  else if p.fsType ≠ 0 then [⟨[], .primary ⟨p.startLba, p.secCnt⟩⟩]
  else []

/-- **The walk of a disk** with extended boot records to the depth `n`. -/
def bootWalk (d : Disk) (n : ℕ) : List Visit :=
  ⟨[], .record 0⟩ :: (List.range' 0 4).flatMap (bootEntry d n)

/-- From the extended boot record at `lba`, the records go `n` deep at most. In particular they do
not go in a circle, and not back to the boot record. -/
def ChainEnds (d : Disk) (base : Word) : (n : ℕ) → (lba : Word) → Prop
  | 0, _ => False
  | n + 1, lba => lba ≠ 0 ∧ ∀ i < 4, (partitionTable (d.sector lba.toNat) i).fsType = 5 →
      ChainEnds d base n ((partitionTable (d.sector lba.toNat) i).startLba + base)

instance decidableChainEnds (d : Disk) (base : Word) :
    (n : ℕ) → (lba : Word) → Decidable (ChainEnds d base n lba)
  | 0, _ => inferInstanceAs (Decidable False)
  | n + 1, lba =>
    have := decidableChainEnds d base n
    inferInstanceAs (Decidable (lba ≠ 0 ∧ ∀ i < 4,
      (partitionTable (d.sector lba.toNat) i).fsType = 5 →
        ChainEnds d base n ((partitionTable (d.sector lba.toNat) i).startLba + base)))

/-- The boot record has one extended partition at most, and its records end. -/
structure OneChain (d : Disk) (n : ℕ) : Prop where
  one : ∀ i < 4, ∀ j < 4, (partitionTable (d.sector 0) i).fsType = 5 →
    (partitionTable (d.sector 0) j).fsType = 5 → i = j
  ends : ∀ i < 4, (partitionTable (d.sector 0) i).fsType = 5 →
    ChainEnds d (partitionTable (d.sector 0) i).startLba n (partitionTable (d.sector 0) i).startLba

/-- All primary partitions and the first eight logical ones, with their numbers, after `p` and `l`
others. -/
def numbered : (p l : ℕ) → List Visit → List (PartKind × ℕ × PartitionRec)
  | _, _, [] => []
  | p, l, v :: vs =>
    match v.item with
    | .primary r => (.primary, p, r) :: numbered (p + 1) l vs
    | .logical r => if l < 8 then (.logical, l, r) :: numbered p (l + 1) vs else numbered p l vs
    | _ => numbered p l vs

/-- What a scan reaches: once it has found the eighth logical partition it leaves out the rest of
the record that this one is in and what is below. -/
def reached : (found : ℕ) → List Visit → List Visit
  | _, [] => []
  | found, v :: vs =>
    if v.isLogical then
      v :: if found + 1 = 8 then vs.filter fun w => ¬ v.path <+: w.path
        else reached (found + 1) vs
    else v :: reached found vs

/-! ### The walk -/

section

variable {d : Disk} {base lba : Word} {bs : Buf} {n i : ℕ} {path : List ℕ} {v : Visit}

/-- The walk of an extended boot record is in this record or below, and has records and logical
partitions. -/
theorem mem_ebrWalk (n : ℕ) : ∀ {path : List ℕ} {lba : Word}, ∀ v ∈ ebrWalk d base n path lba,
    path <+: v.path ∧ ((∃ l, v.item = .record l) ∨ ∃ r, v.item = .logical r) := by
  induction n with
  | zero => exact fun v hv => absurd hv (List.not_mem_nil)
  | succ n ih =>
    intro path lba v hv
    rcases List.mem_cons.1 hv with rfl | hv
    · exact ⟨List.prefix_rfl, .inl ⟨lba, rfl⟩⟩
    obtain ⟨i, -, hv⟩ := List.mem_flatMap.1 hv
    unfold ebrEntry at hv
    dsimp only at hv
    split at hv
    · obtain ⟨hpath, hitem⟩ := ih v hv
      exact ⟨(List.prefix_append path [i]).trans hpath, hitem⟩
    · split at hv
      · obtain rfl := List.mem_singleton.1 hv
        exact ⟨List.prefix_rfl, .inr ⟨_, rfl⟩⟩
      · cases hv

/-- An entry of the record is in it, or below in its own branch. -/
theorem mem_ebrEntry (hv : v ∈ ebrEntry (ebrWalk d base n) base lba bs path i) :
    v.path = path ∨ path ++ [i] <+: v.path := by
  unfold ebrEntry at hv
  dsimp only at hv
  split at hv
  · exact .inr (mem_ebrWalk n v hv).1
  · split at hv
    · obtain rfl := List.mem_singleton.1 hv
      exact .inl rfl
    · cases hv

/-- Two branches of a record have nothing to do with each other. -/
theorem not_prefix_of_ne {a b : List ℕ} {j : ℕ} (ha : path ++ [i] <+: a)
    (hb : b = path ∨ path ++ [j] <+: b) (hij : i ≠ j) : ¬ a <+: b := by
  intro hab
  have hi : path ++ [i] <+: b := ha.trans hab
  rcases hb with rfl | hj
  · have hlen := hi.length_le
    rw [List.length_append, List.length_singleton] at hlen
    omega
  · have hpre := List.prefix_of_prefix_length_le hi hj (by simp)
    have heq := hpre.eq_of_length (by simp)
    exact hij (List.singleton_inj.1 (List.append_cancel_left heq))

theorem reached_logical (found : ℕ) (path : List ℕ) (r : PartitionRec) (vs : List Visit) :
    reached found (⟨path, .logical r⟩ :: vs) = ⟨path, .logical r⟩ ::
      if found + 1 = 8 then vs.filter fun w => ¬ path <+: w.path else reached (found + 1) vs :=
  rfl

theorem reached_primary (found : ℕ) (path : List ℕ) (r : PartitionRec) (vs : List Visit) :
    reached found (⟨path, .primary r⟩ :: vs) = ⟨path, .primary r⟩ :: reached found vs := rfl

/-- After the eighth nothing more is left out. -/
theorem reached_of_le (vs : List Visit) : ∀ {found : ℕ}, 8 ≤ found → reached found vs = vs := by
  induction vs with
  | nil => exact fun _ => rfl
  | cons v vs ih =>
    intro found hk
    rw [reached]
    split
    · rw [if_neg (by omega), ih (by omega)]
    · rw [ih hk]

/-- **One branch after another.** What is reached of two parts of a walk, if the second is not below
a logical partition of the first. -/
theorem reached_append {vs ws : List Visit} (found : ℕ)
    (hws : ∀ v ∈ vs, v.isLogical → ∀ w ∈ ws, ¬ v.path <+: w.path) :
    reached found (vs ++ ws) =
      reached found vs ++ reached (found + (reached found vs).countP Visit.isLogical) ws := by
  induction vs generalizing found with
  | nil => simp [reached]
  | cons v vs ih =>
    have ih := fun found => ih found fun v hv => hws v (List.mem_cons_of_mem _ hv)
    rw [List.cons_append, reached, reached]
    split
    · rename_i hv
      rw [List.cons_append, List.countP_cons_of_pos hv]
      split
      · -- the eighth is here, and nothing of the second part is left out
        have hkeep : ws.filter (fun w => ¬ v.path <+: w.path) = ws :=
          List.filter_eq_self.2 fun w hw => decide_eq_true (hws v List.mem_cons_self hv w hw)
        rw [List.filter_append, hkeep, reached_of_le ws (by omega)]
      · rw [ih (found + 1), Nat.add_right_comm, Nat.add_assoc]
    · rename_i hv
      rw [List.cons_append, List.countP_cons_of_neg hv, ih found]

/-- After the eighth logical partition the rest of its record is left out. -/
theorem filter_record {vs : List Visit} (hvs : ∀ w ∈ vs, path <+: w.path) :
    vs.filter (fun w => ¬ path <+: w.path) = [] := by
  refine List.filter_eq_nil_iff.2 fun w hw hnot => ?_
  exact of_decide_eq_true hnot (hvs w hw)

end

/-! ### The scan as a sequence of steps -/

/-- What the scan does with an item. -/
def visit (hd : ℕ) : ScanItem → Kern ScanState Unit
  | .record lba => ASSERT .ideRead (lba.toNat ≤ maxLba)
  | .extended lba => modify fun s => { s with extLbaBase := lba }
  | .primary r => do
    let s ← get
    modify (·.record hd .primary s.pNo.toNat r)
    modify fun s => { s with pNo := s.pNo + 1 }
    ASSERT .partitionScan (s.pNo + 1 < 4)
  | .logical r => do
    let s ← get
    check (s.lNo < 8) .wild
    modify (·.record hd .logical s.lNo.toNat r)
    modify fun s => { s with lNo := s.lNo + 1 }

/-- And with a list of them. -/
def visits (hd : ℕ) : List Visit → Kern ScanState Unit
  | [] => pure ()
  | v :: vs => do
    visit hd v.item
    visits hd vs

section

variable {d : Disk} {hd n depth : ℕ} {base lba : Word} {path : List ℕ} {s t : ScanState} {u : Unit}

theorem visits_append (vs ws : List Visit) (s : ScanState) :
    visits hd (vs ++ ws) s = (visits hd vs >>= fun _ => visits hd ws) s := by
  induction vs generalizing s with
  | nil => rfl
  | cons v vs ih =>
    rw [List.cons_append, visits, visits, bind_bind]
    exact bind_congr_run rfl fun _ s' _ => ih s'

/-- The byte that counts up to 8 does not wrap around. -/
theorem toNat_succ_of_lt {b : Byte} (h : b < 8) : b.toNat < 8 ∧ (b + 1).toNat = b.toNat + 1 := by
  rw [BitVec.lt_def, show (8 : Byte).toNat = 8 from rfl] at h
  refine ⟨h, ?_⟩
  rw [BitVec.toNat_add, show (1 : Byte).toNat = 1 from rfl]
  omega

theorem visit_logical (r : PartitionRec) (s : ScanState) :
    post (visit hd (.logical r)) (fun _ t => s.lNo < 8 ∧
      t.lNo.toNat = s.lNo.toNat + 1 ∧ t.extLbaBase = s.extLbaBase) s := by
  simp only [visit, post, wp_bind, wp_get, wp_check, wp_modify]
  refine ⟨fun hlt => ?_, fun _ => trivial⟩
  have hlt := of_decide_eq_true hlt
  exact ⟨hlt, (toNat_succ_of_lt hlt).2, rfl⟩

theorem visit_primary (r : PartitionRec) (s : ScanState) :
    post (visit hd (.primary r)) (fun _ t => t.lNo = s.lNo ∧ t.extLbaBase = s.extLbaBase) s := by
  simp only [visit, post, wp_bind, wp_get, wp_ASSERT, wp_modify]
  exact ⟨fun _ => ⟨rfl, rfl⟩, fun _ => trivial⟩

/-- The counter of the logical partitions counts them. -/
theorem visit_lNo (v : Visit) (s : ScanState) :
    post (visit hd v.item)
      (fun _ t => t.lNo.toNat = s.lNo.toNat + if v.isLogical then 1 else 0) s := by
  obtain ⟨path, item⟩ := v
  cases item with
  | logical r => exact (visit_logical r s).mono (fun _ t ht => ht.2.1) fun _ h => h
  | primary r => exact (visit_primary r s).mono (fun _ t ht => congrArg _ ht.1) fun _ h => h
  | record lba =>
    simp only [visit, post, wp_ASSERT]
    exact ⟨fun _ => rfl, fun _ => trivial⟩
  | extended lba => exact rfl

theorem visits_lNo (vs : List Visit) (s : ScanState) :
    post (visits hd vs) (fun _ t => t.lNo.toNat = s.lNo.toNat + vs.countP Visit.isLogical) s := by
  induction vs generalizing s with
  | nil => exact rfl
  | cons v vs ih =>
    rw [visits, post, wp_bind]
    refine (visit_lNo v s).mono (fun _ s1 h1 => ?_) fun _ h => h
    refine (ih s1).mono (fun _ t ht => ?_) fun _ h => h
    rw [ht, h1, List.countP_cons]
    omega

/-- The base is set where the extended partition is met, and nowhere else. -/
theorem visits_base (vs : List Visit) (hvs : ∀ v ∈ vs, ∀ lba, v.item ≠ .extended lba) :
    Keeps (fun s => s.extLbaBase) (visits hd vs) := by
  induction vs with
  | nil => exact .pure _
  | cons v vs ih =>
    refine Keeps.bind ?_ fun _ => ih fun w hw => hvs w (List.mem_cons_of_mem _ hw)
    obtain ⟨path, item⟩ := v
    cases item with
    | record lba => exact .check _ _
    | extended lba => exact absurd rfl (hvs _ List.mem_cons_self lba)
    | primary r =>
      refine Keeps.get.bind fun s => Keeps.bind (.modify fun _ => rfl) fun _ => ?_
      exact Keeps.bind (.modify fun _ => rfl) fun _ => .check _ _
    | logical r =>
      refine Keeps.get.bind fun s => (Keeps.check _ _).bind fun _ => ?_
      exact Keeps.bind (.modify fun _ => rfl) fun _ => .modify fun _ => rfl

theorem mem_of_mem_reached {v : Visit} {vs : List Visit} {found : ℕ} (h : v ∈ reached found vs) :
    v ∈ vs := by
  induction vs generalizing found with
  | nil => exact h
  | cons w vs ih =>
    rw [reached] at h
    split at h
    · rcases List.mem_cons.1 h with rfl | h
      · exact List.mem_cons_self
      · refine List.mem_cons_of_mem _ ?_
        split at h
        · exact (List.mem_filter.1 h).1
        · exact ih h
    · rcases List.mem_cons.1 h with rfl | h
      · exact List.mem_cons_self
      · exact List.mem_cons_of_mem _ (ih h)

/-- A sequence of visits that begins with a part: the rest starts with the count and the base that
the part leaves. -/
theorem visits_reached_append {vs ws : List Visit} {x : Kern ScanState Unit}
    {k : Unit → Kern ScanState Unit}
    (hws : ∀ v ∈ vs, v.isLogical → ∀ w ∈ ws, ¬ v.path <+: w.path)
    (hx : x s = visits hd (reached s.lNo.toNat vs) s)
    (hk : ∀ t, x s = .ok ((), t) → k () t = visits hd (reached t.lNo.toNat ws) t) :
    (x >>= k) s = visits hd (reached s.lNo.toNat (vs ++ ws)) s := by
  rw [reached_append _ hws, visits_append]
  refine bind_congr_run hx fun _ t ht => ?_
  rw [hk t ht, (visits_lNo _ s).ok (hx.symm.trans ht)]

theorem scanPartition_primary (p : PartitionTableEntry) (s : ScanState) :
    scanPartition hd 0 p s =
      (visit hd (.primary ⟨p.startLba, p.secCnt⟩) >>= fun _ => pure true) s := by
  simp only [scanPartition, visit, bind_apply, get_apply, modify_apply, if_true, ASSERT, check,
    BitVec.ofNat_eq_ofNat, BitVec.zero_add]

theorem scanPartition_logical (h0 : lba ≠ 0) (p : PartitionTableEntry) (s : ScanState) :
    scanPartition hd lba p s = (visit hd (.logical ⟨lba + p.startLba, p.secCnt⟩) >>= fun _ =>
      pure (decide (s.lNo + 1 < 8))) s := by
  simp only [scanPartition, visit, bind_apply, get_apply, modify_apply, if_neg h0, check]
  split <;> rfl

/-- The loop over the entries of an extended boot record. -/
theorem scanEntries_eq {bs : Buf} (h0 : lba ≠ 0) (hbase : base ≠ 0)
    {scan : Word → Kern ScanState Unit}
    (hscan : ∀ i < 4, (partitionTable bs i).fsType = 5 → ∀ s : ScanState, s.extLbaBase = base →
      scan ((partitionTable bs i).startLba + base) s = visits hd (reached s.lNo.toNat
        (ebrWalk d base n (path ++ [i]) ((partitionTable bs i).startLba + base))) s)
    (left : ℕ) : ∀ {partIdx : ℕ} {s : ScanState}, partIdx + left ≤ 4 → s.extLbaBase = base →
      scanEntries scan hd lba bs left partIdx s = visits hd (reached s.lNo.toNat
        ((List.range' partIdx left).flatMap (ebrEntry (ebrWalk d base n) base lba bs path))) s := by
  induction left with
  | zero => exact fun _ _ => rfl
  | succ left ih =>
    intro partIdx s hle hs
    have hrest : ∀ w ∈ (List.range' (partIdx + 1) left).flatMap
        (ebrEntry (ebrWalk d base n) base lba bs path),
        ∃ j, partIdx < j ∧ (w.path = path ∨ path ++ [j] <+: w.path) := by
      intro w hw
      obtain ⟨j, hj, hw⟩ := List.mem_flatMap.1 hw
      exact ⟨j, (List.mem_range'_1.1 hj).1, mem_ebrEntry hw⟩
    rw [List.range'_succ, List.flatMap_cons, scanEntries]
    dsimp only
    by_cases h5 : (partitionTable bs partIdx).fsType = 5
    · -- another record
      rw [if_pos h5, bind_of_ok (get_apply s), hs, if_pos hbase, ebrEntry, if_pos h5]
      refine visits_reached_append (fun v hv _ w hw => ?_) (hscan _ (by omega) h5 s hs)
        fun t ht => ih (by omega) ?_
      · obtain ⟨j, hj, hpath⟩ := hrest w hw
        exact not_prefix_of_ne (mem_ebrWalk n v hv).1 hpath (by omega)
      · rw [hscan _ (by omega) h5 s hs] at ht
        refine ((visits_base _ fun v hv l hl => ?_) s).ok ht |>.trans hs
        rcases (mem_ebrWalk n v (mem_of_mem_reached hv)).2 with ⟨_, hi⟩ | ⟨_, hi⟩ <;>
          rw [hi] at hl <;> cases hl
    · rw [if_neg h5]
      by_cases hne : (partitionTable bs partIdx).fsType ≠ 0
      · -- a logical partition; the eighth ends the loop
        rw [if_pos hne, ebrEntry, if_neg h5, if_pos hne, List.singleton_append, reached_logical,
          visits, bind_congr_run (scanPartition_logical h0 _ s) fun _ _ _ => rfl, bind_bind]
        refine bind_congr_run rfl fun _ t ht => ?_
        obtain ⟨hlt, hcount, hkeep⟩ := (visit_logical _ s).ok ht
        obtain ⟨hlt8, hsucc⟩ := toNat_succ_of_lt hlt
        have hmore : s.lNo + 1 < 8 ↔ s.lNo.toNat + 1 < 8 := by
          rw [BitVec.lt_def, hsucc]
          rfl
        rw [bind_of_ok (pure_apply _ t)]
        simp only [hmore]
        by_cases hlast : s.lNo.toNat + 1 = 8
        · rw [if_pos hlast, filter_record, if_neg (by simp; omega)]
          · rfl
          · intro w hw
            obtain ⟨j, -, hpath | hpath⟩ := hrest w hw
            · exact hpath.symm ▸ List.prefix_rfl
            · exact (List.prefix_append path [j]).trans hpath
        · rw [if_neg hlast, if_pos (by simp; omega), ← hcount]
          exact ih (by omega) (hkeep.trans hs)
      · rw [if_neg hne, ebrEntry, if_neg h5, if_neg hne, List.nil_append]
        exact ih (by omega) hs

theorem partitionScan_ebr (hbase : base ≠ 0) (n : ℕ) : ∀ {depth : ℕ} {path : List ℕ} {lba : Word}
    {s : ScanState}, ChainEnds d base n lba → n ≤ depth → s.extLbaBase = base →
      partitionScan d hd depth lba s =
        visits hd (reached s.lNo.toNat (ebrWalk d base n path lba)) s := by
  induction n with
  | zero => exact fun h => h.elim
  | succ n ih =>
    intro depth path lba s ⟨h0, hends⟩ hdepth hs
    obtain ⟨depth, rfl⟩ := Nat.exists_eq_add_of_le' (Nat.le_trans (Nat.le_add_left 1 n) hdepth)
    have hrecord : reached s.lNo.toNat (ebrWalk d base (n + 1) path lba) =
        ⟨path, .record lba⟩ :: reached s.lNo.toNat ((List.range' 0 4).flatMap
          (ebrEntry (ebrWalk d base n) base lba (d.sector lba.toNat) path)) := rfl
    rw [partitionScan, hrecord, visits]
    refine bind_congr_run rfl fun _ t ht => ?_
    obtain ⟨-, rfl⟩ := ASSERT_eq_ok.1 ht
    refine scanEntries_eq h0 hbase (fun i hi h5 t ht => ?_) 4 (by omega) hs
    exact ih (hends i hi h5) (by omega) ht

theorem mem_bootEntry {i : ℕ} {v : Visit} (hv : v ∈ bootEntry d n i) :
    ((∃ lba, v.item = .extended lba) ∨ ∃ r, v.item = .primary r) ∧ v.path = [] ∨
      [i] <+: v.path ∧ ((∃ l, v.item = .record l) ∨ ∃ r, v.item = .logical r) := by
  unfold bootEntry at hv
  dsimp only at hv
  split at hv
  · rcases List.mem_cons.1 hv with rfl | hv
    · exact .inl ⟨.inl ⟨_, rfl⟩, rfl⟩
    · exact .inr (mem_ebrWalk n v hv)
  · split at hv
    · obtain rfl := List.mem_singleton.1 hv
      exact .inl ⟨.inr ⟨_, rfl⟩, rfl⟩
    · cases hv

/-- The loop over the entries of the boot record. The base is 0 until the extended partition has
been met, and there is only one. -/
theorem scanBoot_eq (hd depth : ℕ) (hchain : OneChain d n) (hdepth : n ≤ depth) (left : ℕ) :
    ∀ {partIdx : ℕ} {s : ScanState}, partIdx + left ≤ 4 →
      (s.extLbaBase = 0 ∨ ∀ i, partIdx ≤ i → i < 4 → (partitionTable (d.sector 0) i).fsType ≠ 5) →
      scanEntries (partitionScan d hd depth) hd 0 (d.sector 0) left partIdx s =
        visits hd (reached s.lNo.toNat ((List.range' partIdx left).flatMap (bootEntry d n))) s := by
  induction left with
  | zero => exact fun _ _ => rfl
  | succ left ih =>
    intro partIdx s hle hs
    rw [List.range'_succ, List.flatMap_cons, scanEntries]
    dsimp only
    by_cases h5 : (partitionTable (d.sector 0) partIdx).fsType = 5
    · have hbase := hs.resolve_right fun hno => hno partIdx (by omega) (by omega) h5
      have hends := hchain.ends partIdx (by omega) h5
      have hne : (partitionTable (d.sector 0) partIdx).startLba ≠ 0 := by
        cases n with
        | zero => exact hends.elim
        | succ n => exact hends.1
      rw [if_pos h5, bind_of_ok (get_apply s), hbase, if_neg (by simp), ← bind_bind]
      refine visits_reached_append (fun v hv hlog w hw => ?_) ?_ fun t _ => ih (by omega) (.inr ?_)
      · obtain ⟨j, hj, hw⟩ := List.mem_flatMap.1 hw
        have hj : partIdx < j := (List.mem_range'_1.1 hj).1
        have hv : [partIdx] <+: v.path := by
          rcases mem_bootEntry hv with ⟨⟨_, hi⟩ | ⟨_, hi⟩, -⟩ | ⟨hv, -⟩
          · simp [Visit.isLogical, hi] at hlog
          · simp [Visit.isLogical, hi] at hlog
          · exact hv
        have hw : w.path = [] ∨ [] ++ [j] <+: w.path := (mem_bootEntry hw).imp And.right And.left
        exact not_prefix_of_ne (show [] ++ [partIdx] <+: v.path from hv) hw (by omega)
      · have hentry : bootEntry d n partIdx =
            ⟨[], .extended (partitionTable (d.sector 0) partIdx).startLba⟩ ::
              ebrWalk d (partitionTable (d.sector 0) partIdx).startLba n [partIdx]
                (partitionTable (d.sector 0) partIdx).startLba := by
          rw [bootEntry, if_pos h5]
        rw [hentry]
        refine bind_congr_run rfl fun _ t ht => ?_
        obtain rfl := modify_eq_ok.1 ht
        exact partitionScan_ebr hne n hends hdepth rfl
      · intro i hi hi4 hext
        have := hchain.one partIdx (by omega) i hi4 h5 hext
        omega
    · have hnext : s.extLbaBase = 0 ∨
          ∀ i, partIdx + 1 ≤ i → i < 4 → (partitionTable (d.sector 0) i).fsType ≠ 5 :=
        hs.imp_right fun hno i hi => hno i (by omega)
      rw [if_neg h5]
      by_cases hne : (partitionTable (d.sector 0) partIdx).fsType ≠ 0
      · rw [if_pos hne, bootEntry, if_neg h5, if_pos hne, List.singleton_append, reached_primary,
          visits, bind_congr_run (scanPartition_primary _ s) fun _ _ _ => rfl, bind_bind]
        refine bind_congr_run rfl fun _ t ht => ?_
        obtain ⟨hcount, hkeep⟩ := (visit_primary _ s).ok ht
        rw [bind_of_ok (pure_apply _ t), if_pos rfl, ← hcount]
        exact ih (by omega) (hkeep.symm ▸ hnext)
      · rw [if_neg hne, bootEntry, if_neg h5, if_neg hne, List.nil_append]
        exact ih (by omega) hnext

/-- **The scan of a disk** is the walk of the disk, as far as it is reached. -/
theorem partitionScan_eq (hchain : OneChain d n) (hdepth : n < depth) (hs : s.extLbaBase = 0) :
    partitionScan d hd depth 0 s = visits hd (reached s.lNo.toNat (bootWalk d n)) s := by
  obtain ⟨depth, rfl⟩ := Nat.exists_eq_add_of_le' (Nat.lt_of_le_of_lt (Nat.zero_le n) hdepth)
  have hrecord : reached s.lNo.toNat (bootWalk d n) = ⟨[], .record 0⟩ ::
      reached s.lNo.toNat ((List.range' 0 4).flatMap (bootEntry d n)) := rfl
  rw [partitionScan, hrecord, visits]
  refine bind_congr_run rfl fun _ t ht => ?_
  obtain ⟨-, rfl⟩ := ASSERT_eq_ok.1 ht
  exact scanBoot_eq hd depth hchain (by omega) 4 (by omega) (.inl hs)

end

/-! ### What a sequence of steps leaves -/

/-- From `s` to `t`, the partitions `found` of the disk `hd` have been set and appended to the list,
and no others. -/
structure AddsParts (hd : ℕ) (found : List (PartKind × ℕ × PartitionRec)) (s t : ScanState) :
    Prop where
  list : t.partitionList = s.partitionList ++ found.map fun x => (hd, x.1, x.2.1)
  set : ∀ x ∈ found, t.parts hd x.1 x.2.1 = x.2.2
  frame : ∀ h kind no, (h = hd → ∀ r, (kind, no, r) ∉ found) → t.parts h kind no = s.parts h kind no

/-- The steps can be taken, after `p` primary and `l` logical partitions. -/
structure FitsFrom (p l : ℕ) (vs : List Visit) : Prop where
  primaries : p + vs.countP Visit.isPrimary ≤ 3
  logicals : l + vs.countP Visit.isLogical ≤ 8
  records : ∀ v ∈ vs, v.onDisk

section

variable {hd p l : ℕ} {s t : ScanState} {v : Visit} {vs : List Visit}
  {found : List (PartKind × ℕ × PartitionRec)} {kind : PartKind} {no : ℕ} {r : PartitionRec}

theorem AddsParts.nil : AddsParts hd [] s s := ⟨by simp, nofun, fun _ _ _ _ => rfl⟩

/-- One more in front, with a number that the others do not have. -/
theorem AddsParts.cons (h : AddsParts hd found (s.record hd kind no r) t)
    (hnew : ∀ r', (kind, no, r') ∉ found) : AddsParts hd ((kind, no, r) :: found) s t := by
  refine ⟨?_, fun x hx => ?_, fun h' kind' no' hout => ?_⟩
  · rw [h.list, ScanState.record, List.append_assoc]
    rfl
  · rcases List.mem_cons.1 hx with rfl | hx
    · rw [h.frame hd kind no fun _ => hnew]
      exact if_pos ⟨rfl, rfl, rfl⟩
    · exact h.set x hx
  · rw [h.frame h' kind' no' fun hh r' hr' => hout hh r' (List.mem_cons_of_mem _ hr')]
    refine if_neg ?_
    rintro ⟨rfl, rfl, rfl⟩
    exact hout rfl r List.mem_cons_self

/-- The numbers count on from where they start, and the logical ones end at 7. -/
theorem number_of_mem (vs : List Visit) : ∀ {p l : ℕ} {x : PartKind × ℕ × PartitionRec},
    x ∈ numbered p l vs →
      (x.1 = .primary → p ≤ x.2.1) ∧ (x.1 = .logical → l ≤ x.2.1 ∧ x.2.1 < 8) := by
  induction vs with
  | nil => exact fun hx => absurd hx List.not_mem_nil
  | cons v vs ih =>
    intro p l x hx
    rw [numbered] at hx
    split at hx
    · rcases List.mem_cons.1 hx with rfl | hx
      · exact ⟨fun _ => Nat.le_refl p, nofun⟩
      · have := ih hx
        exact ⟨fun hk => Nat.le_of_succ_le (this.1 hk), this.2⟩
    · split at hx
      · rename_i hl
        rcases List.mem_cons.1 hx with rfl | hx
        · exact ⟨nofun, fun _ => ⟨Nat.le_refl l, hl⟩⟩
        · have := ih hx
          exact ⟨this.1, fun hk => ⟨Nat.le_of_succ_le (this.2 hk).1, (this.2 hk).2⟩⟩
      · exact ih hx
    · exact ih hx

/-- And the primary ones below the number of primary partitions. -/
theorem primary_lt_of_mem (vs : List Visit) : ∀ {p l : ℕ} {x : PartKind × ℕ × PartitionRec},
    x ∈ numbered p l vs → x.1 = .primary → x.2.1 < p + vs.countP Visit.isPrimary := by
  induction vs with
  | nil => exact fun hx => absurd hx List.not_mem_nil
  | cons v vs ih =>
    intro p l x hx hk
    rw [List.countP_cons]
    rw [numbered] at hx
    split at hx
    · rename_i hitem
      rw [if_pos (show v.isPrimary = true by rw [Visit.isPrimary, hitem])]
      rcases List.mem_cons.1 hx with rfl | hx
      · dsimp only
        omega
      · have := ih hx hk
        omega
    · split at hx
      · rcases List.mem_cons.1 hx with rfl | hx
        · cases hk
        · have := ih hx hk
          omega
      · have := ih hx hk
        omega
    · have := ih hx hk
      omega

theorem fitsFrom_cons {path : List ℕ} {item : ScanItem} :
    FitsFrom p l (⟨path, item⟩ :: vs) ↔
      match item with
      | .record lba => lba.toNat ≤ maxLba ∧ FitsFrom p l vs
      | .extended _ => FitsFrom p l vs
      | .primary _ => FitsFrom (p + 1) l vs
      | .logical _ => FitsFrom p (l + 1) vs := by
  have hfits : ∀ p l vs, FitsFrom p l vs ↔ p + vs.countP Visit.isPrimary ≤ 3 ∧
      l + vs.countP Visit.isLogical ≤ 8 ∧ ∀ v ∈ vs, v.onDisk :=
    fun p l vs => ⟨fun h => ⟨h.primaries, h.logicals, h.records⟩, fun ⟨h1, h2, h3⟩ => ⟨h1, h2, h3⟩⟩
  rw [hfits, List.countP_cons, List.countP_cons, List.forall_mem_cons]
  cases item with
  | record lba =>
    simp only [hfits, Visit.isPrimary, Visit.isLogical, Visit.onDisk, decide_eq_true_iff]
    grind
  | extended lba => simp [hfits, Visit.isPrimary, Visit.isLogical, Visit.onDisk]
  | primary r =>
    simp [hfits, Visit.isPrimary, Visit.isLogical, Visit.onDisk, Nat.add_assoc, Nat.add_comm 1]
  | logical r =>
    simp [hfits, Visit.isPrimary, Visit.isLogical, Visit.onDisk, Nat.add_assoc, Nat.add_comm 1]

namespace ScanItem

/-- The step does not stop. -/
def Allowed (s : ScanState) : ScanItem → Prop
  | .record lba => lba.toNat ≤ maxLba
  | .extended _ => True
  | .primary _ => s.pNo + 1 < 4
  | .logical _ => s.lNo < 8

/-- And where it leads. -/
def next (hd : ℕ) (s : ScanState) : ScanItem → ScanState
  | .record _ => s
  | .extended lba => { s with extLbaBase := lba }
  | .primary r => { s.record hd .primary s.pNo.toNat r with pNo := s.pNo + 1 }
  | .logical r => { s.record hd .logical s.lNo.toNat r with lNo := s.lNo + 1 }

end ScanItem

theorem visit_eq_ok {item : ScanItem} {u : Unit} :
    visit hd item s = .ok (u, t) ↔ item.Allowed s ∧ item.next hd s = t := by
  cases item with
  | record lba =>
    rw [visit, ASSERT_eq_ok, decide_eq_true_iff]
    exact Iff.rfl
  | extended lba =>
    rw [visit, modify_eq_ok]
    exact (and_iff_right trivial).symm
  | primary r =>
    rw [visit, bind_of_ok (get_apply s), bind_of_ok (modify_apply _ s),
      bind_of_ok (modify_apply _ _), ASSERT_eq_ok, decide_eq_true_iff]
    exact Iff.rfl
  | logical r =>
    rw [visit, bind_of_ok (get_apply s), bind_eq_ok]
    refine ⟨fun ⟨_, s1, hcheck, hrest⟩ => ?_, fun ⟨hallowed, hnext⟩ => ?_⟩
    · obtain ⟨hlt, rfl⟩ := check_eq_ok.1 hcheck
      rw [bind_of_ok (modify_apply _ s)] at hrest
      have hlt : s.lNo < 8 := of_decide_eq_true hlt
      exact ⟨hlt, modify_eq_ok.1 hrest⟩
    · have hlt : s.lNo < 8 := hallowed
      refine ⟨(), s, check_of_true _ s (decide_eq_true hlt), ?_⟩
      rw [bind_of_ok (modify_apply _ s)]
      exact modify_eq_ok.2 hnext

theorem visits_cons_ok {u : Unit} : visits hd (v :: vs) s = .ok (u, t) ↔
    v.item.Allowed s ∧ visits hd vs (v.item.next hd s) = .ok (u, t) := by
  rw [visits, bind_eq_ok]
  constructor
  · rintro ⟨_, s1, h1, h2⟩
    obtain ⟨hallowed, rfl⟩ := visit_eq_ok.1 h1
    exact ⟨hallowed, h2⟩
  · rintro ⟨hallowed, h2⟩
    exact ⟨(), _, visit_eq_ok.2 ⟨hallowed, rfl⟩, h2⟩

/-- The byte that counts up to 4, likewise. -/
theorem toNat_succ_of_le {b : Byte} (h : b.toNat ≤ 3) :
    (b + 1).toNat = b.toNat + 1 ∧ (b + 1 < 4 ↔ b.toNat + 1 ≤ 3) := by
  have hsucc : (b + 1).toNat = b.toNat + 1 := by
    rw [BitVec.toNat_add, show (1 : Byte).toNat = 1 from rfl]
    omega
  refine ⟨hsucc, ?_⟩
  rw [BitVec.lt_def, hsucc, show (4 : Byte).toNat = 4 from rfl]
  omega

/-- **The steps can be taken exactly if they fit.** -/
theorem visits_iff (vs : List Visit) : ∀ {s : ScanState}, s.pNo.toNat ≤ 3 → s.lNo.toNat ≤ 8 →
    ((∃ t, visits hd vs s = .ok ((), t)) ↔ FitsFrom s.pNo.toNat s.lNo.toNat vs) := by
  induction vs with
  | nil => exact fun hp hl => ⟨fun _ => ⟨hp, hl, nofun⟩, fun _ => ⟨_, rfl⟩⟩
  | cons v vs ih =>
    intro s hp hl
    obtain ⟨path, item⟩ := v
    simp only [visits_cons_ok, exists_and_left, fitsFrom_cons]
    cases item with
    | record lba => exact and_congr_right fun _ => ih hp hl
    | extended lba => exact (and_iff_right trivial).trans (ih hp hl)
    | primary r =>
      obtain ⟨hsucc, hlt⟩ := toNat_succ_of_le hp
      have ih := fun hp => ih (s := (ScanItem.primary r).next hd s) hp hl
      rw [show ((ScanItem.primary r).next hd s).pNo.toNat = s.pNo.toNat + 1 from hsucc] at ih
      refine ⟨fun ⟨hallowed, hrest⟩ => (ih (hlt.1 hallowed)).1 hrest, fun h => ?_⟩
      have hle : s.pNo.toNat + 1 ≤ 3 := Nat.le_trans (Nat.le_add_right _ _) h.primaries
      exact ⟨hlt.2 hle, (ih hle).2 h⟩
    | logical r =>
      have ih := ih (s := (ScanItem.logical r).next hd s) hp
      refine ⟨fun ⟨hallowed, hrest⟩ => ?_, fun h => ?_⟩
      · obtain ⟨hlt, hsucc⟩ := toNat_succ_of_lt hallowed
        rw [show ((ScanItem.logical r).next hd s).lNo.toNat = s.lNo.toNat + 1 from hsucc] at ih
        exact (ih hlt).1 hrest
      · have hle : s.lNo.toNat + 1 ≤ 8 := Nat.le_trans (Nat.le_add_right _ _) h.logicals
        have hlt : s.lNo < 8 := by
          rw [BitVec.lt_def]
          exact hle
        rw [show ((ScanItem.logical r).next hd s).lNo.toNat = s.lNo.toNat + 1 from
          (toNat_succ_of_lt hlt).2] at ih
        exact ⟨hlt, (ih hle).2 h⟩

/-- **What the steps leave.** -/
theorem visits_adds (vs : List Visit) : ∀ {s t : ScanState}, s.pNo.toNat ≤ 3 →
    visits hd vs s = .ok ((), t) →
      AddsParts hd (numbered s.pNo.toNat s.lNo.toNat vs) s t := by
  induction vs with
  | nil =>
    intro s t _ h
    obtain ⟨-, rfl⟩ := pure_eq_ok.1 h
    exact .nil
  | cons v vs ih =>
    intro s t hp h
    obtain ⟨path, item⟩ := v
    obtain ⟨hallowed, hrest⟩ := visits_cons_ok.1 h
    cases item with
    | record lba => exact ih hp hrest
    | extended lba =>
      have := ih (s := (ScanItem.extended lba).next hd s) hp hrest
      exact ⟨this.list, this.set, this.frame⟩
    | primary r =>
      obtain ⟨hsucc, hlt⟩ := toNat_succ_of_le hp
      have hadds := ih (s := (ScanItem.primary r).next hd s) (hsucc.symm ▸ hlt.1 hallowed) hrest
      rw [show ((ScanItem.primary r).next hd s).pNo.toNat = s.pNo.toNat + 1 from hsucc] at hadds
      refine AddsParts.cons ⟨hadds.list, hadds.set, hadds.frame⟩ fun r' hr' => ?_
      exact absurd ((number_of_mem vs hr').1 rfl) (Nat.not_succ_le_self _)
    | logical r =>
      obtain ⟨hlt, hsucc⟩ := toNat_succ_of_lt hallowed
      have hadds := ih (s := (ScanItem.logical r).next hd s) hp hrest
      rw [show ((ScanItem.logical r).next hd s).lNo.toNat = s.lNo.toNat + 1 from hsucc] at hadds
      have hnum : numbered s.pNo.toNat s.lNo.toNat (⟨path, .logical r⟩ :: vs) =
          (.logical, s.lNo.toNat, r) :: numbered s.pNo.toNat (s.lNo.toNat + 1) vs := if_pos hlt
      rw [hnum]
      refine AddsParts.cons ⟨hadds.list, hadds.set, hadds.frame⟩ fun r' hr' => ?_
      exact absurd ((number_of_mem vs hr').2 rfl).1 (Nat.not_succ_le_self _)

/-- With eight logical partitions found, only the primary ones matter. -/
theorem numbered_filter (keep : Visit → Bool) (vs : List Visit)
    (hvs : ∀ v ∈ vs, v.isPrimary → keep v) (p : ℕ) : ∀ {l : ℕ}, 8 ≤ l →
      numbered p l (vs.filter keep) = numbered p l vs := by
  induction vs generalizing p with
  | nil => exact fun _ => rfl
  | cons v vs ih =>
    intro l hl
    have ih := fun p => ih (fun w hw => hvs w (List.mem_cons_of_mem _ hw)) p hl
    have hskip : ∀ ws, ¬ v.isPrimary → numbered p l (v :: ws) = numbered p l ws := by
      intro ws hv
      obtain ⟨path, item⟩ := v
      cases item with
      | primary r => exact absurd rfl hv
      | logical r => exact if_neg (by omega)
      | record lba => rfl
      | extended lba => rfl
    by_cases hprimary : v.isPrimary
    · obtain ⟨path, item⟩ := v
      rw [List.filter_cons_of_pos (hvs _ List.mem_cons_self hprimary)]
      cases item with
      | primary r => exact congrArg ((PartKind.primary, p, r) :: ·) (ih (p + 1))
      | _ => cases hprimary
    · rw [hskip vs hprimary, List.filter_cons]
      split
      · rw [hskip _ hprimary, ih p]
      · exact ih p

/-- **What is left out does not count**: of the primary partitions nothing is, and the first eight
logical ones are reached. -/
theorem numbered_reached (vs : List Visit) (hprimary : ∀ v ∈ vs, v.isPrimary → v.path = [])
    (hlogical : ∀ v ∈ vs, v.isLogical → v.path ≠ []) : ∀ p l, numbered p l (reached l vs) =
      numbered p l vs := by
  induction vs with
  | nil => exact fun _ _ => rfl
  | cons v vs ih =>
    intro p l
    have ih := ih (fun w hw => hprimary w (List.mem_cons_of_mem _ hw))
      fun w hw => hlogical w (List.mem_cons_of_mem _ hw)
    obtain ⟨path, item⟩ := v
    cases item with
    | record lba => exact ih p l
    | extended lba => exact ih p l
    | primary r => exact congrArg ((PartKind.primary, p, r) :: ·) (ih (p + 1) l)
    | logical r =>
      rw [reached_logical]
      by_cases hl : l < 8
      · rw [show ∀ ws, numbered p l (⟨path, .logical r⟩ :: ws) =
          (.logical, l, r) :: numbered p (l + 1) ws from fun ws => if_pos hl]
        refine (congrArg _ ?_).trans (if_pos hl).symm
        split
        · refine numbered_filter _ vs (fun w hw hp => decide_eq_true ?_) p (by omega)
          rw [hprimary w (List.mem_cons_of_mem _ hw) hp, List.prefix_nil]
          exact hlogical _ List.mem_cons_self rfl
        · exact ih p (l + 1)
      · rw [if_neg (by omega), reached_of_le vs (by omega)]

end

/-! ### One disk -/

/-- What the scan of the disk reaches. -/
def scanned (d : Disk) (n : ℕ) : List Visit := reached 0 (bootWalk d n)

section

variable {d : Disk} {hd n depth : ℕ} {s : ScanState}

theorem path_of_mem_bootWalk {v : Visit} (hv : v ∈ bootWalk d n) :
    (v.isPrimary → v.path = []) ∧ (v.isLogical → v.path ≠ []) := by
  rcases List.mem_cons.1 hv with rfl | hv
  · exact ⟨nofun, nofun⟩
  · obtain ⟨i, -, hv⟩ := List.mem_flatMap.1 hv
    rcases mem_bootEntry hv with ⟨hitem, hpath⟩ | ⟨hpath, hitem⟩
    · refine ⟨fun _ => hpath, fun hlog => ?_⟩
      rcases hitem with ⟨_, hi⟩ | ⟨_, hi⟩ <;> simp [Visit.isLogical, hi] at hlog
    · refine ⟨fun hprim => ?_, fun _ hnil => ?_⟩
      · rcases hitem with ⟨_, hi⟩ | ⟨_, hi⟩ <;> simp [Visit.isPrimary, hi] at hprim
      · rw [hnil, List.prefix_nil] at hpath
        cases hpath

/-- **The partitions of one disk.** From cleared counters, the scan returns having recorded all
primary partitions and the first eight logical ones, each in its place, exactly if there are three
primary partitions at most, every record that it reaches is on a sector the driver can read, and it
reaches no more than eight logical partitions. -/
theorem partitionScan_iff (hchain : OneChain d n) (hdepth : n < depth)
    (hs : s.extLbaBase = 0 ∧ s.pNo = 0 ∧ s.lNo = 0) :
    (∃ t, partitionScan d hd depth 0 s = .ok ((), t) ∧
      AddsParts hd (numbered 0 0 (bootWalk d n)) s t ∧
      ∀ x ∈ numbered 0 0 (bootWalk d n), x.2.1 < match x.1 with
        | .primary => 4
        | .logical => 8) ↔
    FitsFrom 0 0 (scanned d n) := by
  obtain ⟨hbase, hp, hl⟩ := hs
  have hp0 : s.pNo.toNat = 0 := by rw [hp]; rfl
  have hl0 : s.lNo.toNat = 0 := by rw [hl]; rfl
  have hiff : (∃ t, visits hd (scanned d n) s = .ok ((), t)) ↔
      FitsFrom s.pNo.toNat s.lNo.toNat (scanned d n) :=
    visits_iff (scanned d n) (by omega) (by omega)
  have hnum : numbered 0 0 (scanned d n) = numbered 0 0 (bootWalk d n) :=
    numbered_reached _ (fun v hv => (path_of_mem_bootWalk hv).1)
      (fun v hv => (path_of_mem_bootWalk hv).2) 0 0
  rw [hp0, hl0] at hiff
  rw [partitionScan_eq hchain hdepth hbase, hl0, ← hnum]
  refine ⟨fun ⟨t, ht, _⟩ => hiff.1 ⟨t, ht⟩, fun hfits => ?_⟩
  obtain ⟨t, ht⟩ := hiff.2 hfits
  have hadds := visits_adds (scanned d n) (by omega) ht
  rw [hp0, hl0] at hadds
  refine ⟨t, ht, hadds, fun x hx => ?_⟩
  split
  · rename_i hkind
    have hlt := primary_lt_of_mem _ hx hkind
    have hle := hfits.primaries
    omega
  · rename_i hkind
    exact ((number_of_mem _ hx).2 hkind).2

end

/-- A table with the given types and first sectors, each partition with one sector. -/
def tableWith (entries : List (Byte × Byte)) : Buf := fun i =>
  match entries[(i - 446) / 16]? with
  | none => 0
  | some (fsType, startLba) =>
    if i < 446 then 0
    else if (i - 446) % 16 = 4 then fsType
    else if (i - 446) % 16 = 8 then startLba
    else if (i - 446) % 16 = 12 then 1
    else 0

/-- A primary partition and a chain of two records with a logical partition each. -/
def chainDisk : Disk := diskOf [(0, tableWith [(131, 2), (5, 20)]),
  (20, tableWith [(131, 1), (5, 10)]), (30, tableWith [(131, 1)])]

/-- They are found. -/
theorem partitionScan_chainDisk : ∃ t, partitionScan chainDisk 1 4 0 .boot = .ok ((), t) ∧
    t.partitionList = [(1, .primary, 0), (1, .logical, 0), (1, .logical, 1)] ∧
    t.parts 1 .logical 1 = ⟨31, 1⟩ := by
  have hchain : OneChain chainDisk 2 := ⟨by decide +kernel, by decide +kernel⟩
  have hfits : FitsFrom 0 0 (scanned chainDisk 2) := by
    exact ⟨by decide +kernel, by decide +kernel, by decide +kernel⟩
  obtain ⟨t, ht, hadds, -⟩ : ∃ t, partitionScan chainDisk 1 4 0 .boot = .ok ((), t) ∧
      AddsParts 1 (numbered 0 0 (bootWalk chainDisk 2)) .boot t ∧ _ :=
    (partitionScan_iff hchain (by omega) ⟨rfl, rfl, rfl⟩).2 hfits
  have hnum : numbered 0 0 (bootWalk chainDisk 2) = [(.primary, 0, ⟨2, 1⟩), (.logical, 0, ⟨21, 1⟩),
    (.logical, 1, ⟨31, 1⟩)] := by decide +kernel
  rw [hnum] at hadds
  exact ⟨t, ht, hadds.list, hadds.set (.logical, 1, ⟨31, 1⟩) (by simp)⟩

/-- Four primary partitions. -/
def fourPrimaries : Disk := diskOf [(0, tableWith [(131, 1), (131, 2), (131, 3), (131, 4)])]

/-- An extended partition with nine logical ones: eight in the records below the first, and one in
the first, behind the entry that leads to the others. -/
def nineLogicals : Disk := diskOf [(0, tableWith [(5, 20)]),
  (20, tableWith [(5, 10), (131, 1)]),
  (30, tableWith [(5, 20), (131, 1), (131, 2), (131, 3)]),
  (40, tableWith [(5, 30), (131, 1), (131, 2), (131, 3)]),
  (50, tableWith [(131, 1), (131, 2)])]

/-- **Four primary partitions fail the assertion, and a ninth logical partition is written behind
the array.** The eighth is the last one of the record at 30, from which the scan returns to the
record at 20. -/
theorem partitionScan_overruns :
    OneChain fourPrimaries 0 ∧
    partitionScan fourPrimaries 1 1 0 .boot = .error (.panic .partitionScan) ∧
    OneChain nineLogicals 4 ∧ partitionScan nineLogicals 1 5 0 .boot = .error .wild := by
  refine ⟨⟨by decide +kernel, by decide +kernel⟩, eq_error_of_fault? (by decide +kernel),
    ⟨by decide +kernel, by decide +kernel⟩, eq_error_of_fault? (by decide +kernel)⟩

end X86Os
