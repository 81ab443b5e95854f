import X86Os.Device.Ide
import X86Os.Lib.Paired

/-!
# Finding the partitions

`partition_scan` and the part of `ide_init` that calls it. The partition table of a disk is in
sector 0; an entry of type 5 is an extended partition, whose first sector has a table of its own,
which may have an extended partition again. The first extended partition that is met is remembered
in `ext_lba_base`, and the addresses of all others are relative to it.

`ext_lba_base` is a global and is 0 only at the start: `ide_init` resets the two counters after each
disk, but not the base. On the second disk with an extended partition, the address of the first one
is taken relative to that of another disk.

The recursion of `partition_scan` ends where the chain of extended partitions does. A chain that
runs in a circle overflows the stack: `depth` is how deep the stack lets it go. The sector buffer of
each call is left out, and so are the names.
-/

namespace X86Os

open X86Os.Comp

/-! ### The code -/

/-- The fields of `struct partition_table_entry` that are used. -/
structure PartitionTableEntry where
  fsType : Byte
  startLba : Word
  secCnt : Word

/-- Entry `i` of the partition table in a `struct boot_sector`. -/
def partitionTable (bs : Buf) (i : ℕ) : PartitionTableEntry :=
  let field := fun off => Buf.word (bs (446 + 16 * i + off)) (bs (446 + 16 * i + off + 1))
    (bs (446 + 16 * i + off + 2)) (bs (446 + 16 * i + off + 3))
  ⟨bs (446 + 16 * i + 4), field 8, field 12⟩

/-- `prim_parts` or `logic_parts`. -/
inductive PartKind
  | primary
  | logical
  deriving DecidableEq

/-- The fields of `struct partition` that the scan sets. -/
structure PartitionRec where
  startLba : Word
  secCnt : Word
  deriving DecidableEq

/-- The arrays of the disks, the list of all partitions, and the globals of the scan. A disk is the
number of its letter: `sda` is 0. -/
structure ScanState where
  parts : ℕ → PartKind → ℕ → PartitionRec
  partitionList : List (ℕ × PartKind × ℕ)
  extLbaBase : Word
  pNo : Byte
  lNo : Byte

namespace ScanState

/-- Set a partition of the disk `hd` and append it to `partition_list`. -/
def record (s : ScanState) (hd : ℕ) (kind : PartKind) (no : ℕ) (r : PartitionRec) : ScanState :=
  { s with
    parts := fun h k i => if h = hd ∧ k = kind ∧ i = no then r else s.parts h k i
    partitionList := s.partitionList ++ [(hd, kind, no)] }

/-- The partitions of a disk in the order of `partition_list`. -/
def recorded (s : ScanState) (hd : ℕ) : List (PartKind × ℕ × PartitionRec) :=
  (s.partitionList.filter fun x => x.1 = hd).map fun x => (x.2.1, x.2.2, s.parts hd x.2.1 x.2.2)

end ScanState

/-- A valid entry of a table that is not an extended partition; false if the scan ends with it. -/
def scanPartition (hd : ℕ) (extLba : Word) (p : PartitionTableEntry) : Kern ScanState Bool := do
  let s ← get
  if extLba = 0 then
    modify (·.record hd .primary s.pNo.toNat ⟨extLba + p.startLba, p.secCnt⟩)
    modify fun s => { s with pNo := s.pNo + 1 }
    ASSERT .partitionScan (s.pNo + 1 < 4)
    pure true
  else
    check (s.lNo < 8) .wild
    modify (·.record hd .logical s.lNo.toNat ⟨extLba + p.startLba, p.secCnt⟩)
    modify fun s => { s with lNo := s.lNo + 1 }
    pure (s.lNo + 1 < 8)

/-- The loop of `partition_scan` over the entries of a table; `scan` is the recursive call. -/
def scanEntries (scan : Word → Kern ScanState Unit) (hd : ℕ) (extLba : Word) (bs : Buf) :
    (left : ℕ) → (partIdx : ℕ) → Kern ScanState Unit
  | 0, _ => pure ()
  | left + 1, partIdx => do
    let p := partitionTable bs partIdx
    if p.fsType = 5 then
      let s ← get
      if s.extLbaBase ≠ 0 then scan (p.startLba + s.extLbaBase)
      else
        modify fun s => { s with extLbaBase := p.startLba }
        scan p.startLba
      scanEntries scan hd extLba bs left (partIdx + 1)
    else if p.fsType ≠ 0 then
      let more ← scanPartition hd extLba p
      if more then scanEntries scan hd extLba bs left (partIdx + 1) else pure ()
    else scanEntries scan hd extLba bs left (partIdx + 1)

/-- `partition_scan` of the disk `hd`, which holds `d`. -/
def partitionScan (d : Disk) (hd : ℕ) : (depth : ℕ) → (extLba : Word) → Kern ScanState Unit
  | 0, _ => stop .wild
  | depth + 1, extLba => do
    ASSERT .ideRead (extLba.toNat ≤ maxLba)
    scanEntries (partitionScan d hd depth) hd extLba (d.sector extLba.toNat) 4 0

/-- The two disks of a channel. The first is the one the system was booted from, or takes its
place. -/
def scanDevices (depth : ℕ) (disks : ℕ → Disk) (channelNo : ℕ) : Kern ScanState Unit := do
  modify fun s => { s with pNo := 0, lNo := 0 }
  partitionScan (disks (channelNo * 2 + 1)) (channelNo * 2 + 1) depth 0
  modify fun s => { s with pNo := 0, lNo := 0 }

/-- The loop of `ide_init` over the channels, of which there are two. -/
def scanChannels (depth : ℕ) (disks : ℕ → Disk) : (left : ℕ) → (channelNo : ℕ) → Kern ScanState Unit
  | 0, _ => pure ()
  | left + 1, channelNo => do
    check (channelNo < 2) .wild
    scanDevices depth disks channelNo
    scanChannels depth disks left (channelNo + 1)

/-- `ide_init`, as far as the partitions go, with `hdCnt` disks. -/
def ideInit (depth : ℕ) (disks : ℕ → Disk) (hdCnt : Byte) : Kern ScanState Unit := do
  ASSERT .ideInit (0 < hdCnt)
  modify fun s => { s with partitionList := [] }
  scanChannels depth disks ((hdCnt.toNat + 1) / 2) 0

/-- The globals and the arrays before `ide_init`. -/
def ScanState.boot : ScanState := ⟨fun _ _ _ => ⟨0, 0⟩, [], 0, 0, 0⟩

/-- An entry of the table in sector 0 is an extended partition. -/
def HasExtended (d : Disk) : Prop := ∃ i < 4, (partitionTable (d.sector 0) i).fsType = 5

/-! ### What is recorded -/

section

variable {s t : ScanState} {hd hd' : ℕ} {kind : PartKind} {no : ℕ} {r : PartitionRec} {b : Prop}

/-- The partitions of the disk after one more has been set. -/
theorem recorded_record (s : ScanState) (hd : ℕ) (kind : PartKind) (no : ℕ) (r : PartitionRec) :
    (s.record hd kind no r).recorded hd =
      (s.recorded hd).map (fun x => if x.1 = kind ∧ x.2.1 = no then (x.1, x.2.1, r) else x) ++
        [(kind, no, r)] := by
  simp only [ScanState.recorded, ScanState.record, List.filter_append,
    List.map_append, List.map_map]
  congr 1
  · refine List.map_congr_left fun x _ => ?_
    simp only [Function.comp, true_and]
    split <;> rfl
  · simp

theorem recorded_record_of_ne (hne : hd' ≠ hd) :
    (s.record hd kind no r).recorded hd' = s.recorded hd' := by
  simp [ScanState.recorded, ScanState.record, List.filter_append, hne, hne.symm]

/-- The states agree on the disk and on the counters, and on the base if `b`. -/
structure Agree (b : Prop) (hd : ℕ) (s t : ScanState) : Prop where
  base : b → s.extLbaBase = t.extLbaBase
  pNo : s.pNo = t.pNo
  lNo : s.lNo = t.lNo
  recorded : s.recorded hd = t.recorded hd

theorem Agree.record (h : Agree b hd s t) :
    Agree b hd (s.record hd kind no r) (t.record hd kind no r) :=
  ⟨h.base, h.pNo, h.lNo, by rw [recorded_record, recorded_record, h.recorded]⟩

theorem scanPartition_paired (h : Agree b hd s t) (extLba : Word) (p : PartitionTableEntry) :
    Paired (Agree b hd) (scanPartition hd extLba p) (scanPartition hd extLba p) s t := by
  refine .get_bind ?_
  rw [h.pNo, h.lNo]
  split
  · refine (Paired.modify h.record).bind fun _ s1 t1 h1 => ?_
    have h2 : Agree b hd { s1 with pNo := s1.pNo + 1 } { t1 with pNo := t1.pNo + 1 } :=
      ⟨h1.base, by rw [h1.pNo], h1.lNo, h1.recorded⟩
    exact (Paired.modify h2).bind fun _ _ _ h3 => (Paired.check h3).bind fun _ _ _ h4 => .pure h4
  · refine (Paired.check h).bind fun _ s1 t1 h1 => ?_
    refine (Paired.modify h1.record).bind fun _ s2 t2 h2 => ?_
    have h3 : Agree b hd { s2 with lNo := s2.lNo + 1 } { t2 with lNo := t2.lNo + 1 } :=
      ⟨h2.base, h2.pNo, by rw [h2.lNo], h2.recorded⟩
    exact (Paired.modify h3).bind fun _ _ _ h4 => .pure h4

/-- The loop over the entries. Where the base is read, the states have to agree on it. -/
theorem scanEntries_paired {scan : Word → Kern ScanState Unit} {extLba : Word} {bs : Buf}
    (hscan : b → ∀ lba s t, Agree b hd s t → Paired (Agree b hd) (scan lba) (scan lba) s t)
    (left : ℕ) : ∀ {partIdx : ℕ} {s t : ScanState}, Agree b hd s t →
      (b ∨ ∀ i, partIdx ≤ i → i < partIdx + left → (partitionTable bs i).fsType ≠ 5) →
      Paired (Agree b hd) (scanEntries scan hd extLba bs left partIdx)
        (scanEntries scan hd extLba bs left partIdx) s t := by
  induction left with
  | zero => exact fun h _ => .pure h
  | succ left ih =>
    intro partIdx s t h hext
    have hnext : b ∨ ∀ i, partIdx + 1 ≤ i → i < partIdx + 1 + left →
        (partitionTable bs i).fsType ≠ 5 :=
      hext.imp_right fun hno i h1 h2 => hno i (by omega) (by omega)
    rw [scanEntries]
    dsimp only
    split
    · rename_i h5
      have hb : b := hext.resolve_right fun hno => hno partIdx (by omega) (by omega) h5
      refine .get_bind ?_
      rw [h.base hb]
      split
      · exact (hscan hb _ s t h).bind fun _ _ _ h' => ih h' hnext
      · refine (Paired.modify ⟨fun _ => rfl, h.pNo, h.lNo, h.recorded⟩).bind fun _ s1 t1 h1 => ?_
        exact (hscan hb _ s1 t1 h1).bind fun _ _ _ h' => ih h' hnext
    · split
      · refine (scanPartition_paired h extLba _).bind fun more _ _ h' => ?_
        split
        · exact ih h' hnext
        · exact .pure h'
      · exact ih h hnext

/-- **What a scan records of a disk depends on the disk and the base**, and not on the base if the
disk has no extended partition. -/
theorem partitionScan_paired (d : Disk) (depth : ℕ) : ∀ {extLba : Word} {s t : ScanState},
    Agree b hd s t → (b ∨ extLba = 0 ∧ ¬ HasExtended d) →
      Paired (Agree b hd) (partitionScan d hd depth extLba)
        (partitionScan d hd depth extLba) s t := by
  induction depth with
  | zero => exact fun _ _ => .stop _
  | succ depth ih =>
    intro extLba s t h hext
    rw [partitionScan]
    refine (Paired.check h).bind fun _ s1 t1 h1 => ?_
    refine scanEntries_paired (fun hb lba s t h => ih h (.inl hb)) 4 h1 ?_
    refine hext.imp_right ?_
    rintro ⟨rfl, hno⟩ i - hi h5
    exact hno ⟨i, by omega, h5⟩

/-! ### What is left alone -/

/-- An entry keeps what setting a partition and counting it keep. -/
theorem scanPartition_keeps {τ : Type} {f : ScanState → τ}
    (hrecord : ∀ s kind no r, f (ScanState.record s hd kind no r) = f s)
    (hp : ∀ s n, f { s with pNo := n } = f s) (hl : ∀ s n, f { s with lNo := n } = f s)
    (extLba : Word) (p : PartitionTableEntry) : Keeps f (scanPartition hd extLba p) := by
  refine Keeps.get.bind fun s => .ite ?_ ?_
  · exact (Keeps.modify fun s => hrecord s _ _ _).bind fun _ =>
      (Keeps.modify fun s => hp s _).bind fun _ => (Keeps.check _ _).bind fun _ => .pure _
  · exact (Keeps.check _ _).bind fun _ => (Keeps.modify fun s => hrecord s _ _ _).bind fun _ =>
      (Keeps.modify fun s => hl s _).bind fun _ => .pure _

/-- The loop over the entries keeps what the recursive call and the entries keep. -/
theorem scanEntries_keeps {τ : Type} {f : ScanState → τ} {scan : Word → Kern ScanState Unit}
    {extLba : Word} {bs : Buf} (hpart : ∀ p, Keeps f (scanPartition hd extLba p))
    (left : ℕ) : ∀ {partIdx : ℕ},
      ((∀ lba, Keeps f (scan lba)) ∧
        (∀ w, Keeps f (modify fun s : ScanState => { s with extLbaBase := w } : Kern _ Unit)) ∨
        ∀ i, partIdx ≤ i → i < partIdx + left → (partitionTable bs i).fsType ≠ 5) →
      Keeps f (scanEntries scan hd extLba bs left partIdx) := by
  induction left with
  | zero => exact fun _ => .pure _
  | succ left ih =>
    intro partIdx hscan
    have hnext : Keeps f (scanEntries scan hd extLba bs left (partIdx + 1)) :=
      ih (hscan.imp_right fun hno i h1 h2 => hno i (by omega) (by omega))
    rw [scanEntries]
    dsimp only
    split
    · rename_i h5
      obtain ⟨hs, hw⟩ := hscan.resolve_right fun hno => hno partIdx (by omega) (by omega) h5
      refine Keeps.get.bind fun s => .ite ((hs _).bind fun _ => hnext) ?_
      exact (hw _).bind fun _ => (hs _).bind fun _ => hnext
    · exact .ite ((hpart _).bind fun _ => .ite hnext (.pure _)) hnext

theorem partitionScan_keeps (d : Disk) (hne : hd' ≠ hd) (depth : ℕ) : ∀ {extLba : Word},
    Keeps (fun s => s.recorded hd') (partitionScan d hd depth extLba) := by
  induction depth with
  | zero => exact .stop _
  | succ depth ih =>
    intro extLba
    refine (Keeps.check _ _).bind fun _ => ?_
    exact scanEntries_keeps (scanPartition_keeps (fun s kind no r => recorded_record_of_ne hne)
      (fun _ _ => rfl) (fun _ _ => rfl) extLba) 4 (.inl ⟨fun _ => ih, fun _ _ => rfl⟩)

/-- And a disk without an extended partition leaves the base alone. -/
theorem partitionScan_keeps_base {d : Disk} (hd : ℕ) (hno : ¬ HasExtended d) (depth : ℕ) :
    Keeps (fun s => s.extLbaBase) (partitionScan d hd depth 0) := by
  cases depth with
  | zero => exact .stop _
  | succ depth =>
    refine (Keeps.check _ _).bind fun _ => scanEntries_keeps (scanPartition_keeps
      (fun _ _ _ _ => rfl) (fun _ _ => rfl) (fun _ _ => rfl) 0) 4 (.inr ?_)
    exact fun i _ hi h5 => hno ⟨i, by omega, h5⟩

/-! ### All disks -/

variable {depth : ℕ} {disks disks' : ℕ → Disk}

/-- The counters are reset around the scan of the second disk. -/
theorem scanDevices_keeps {τ : Type} {f : ScanState → τ} {channelNo : ℕ}
    (hscan : Keeps f (partitionScan (disks (channelNo * 2 + 1)) (channelNo * 2 + 1) depth 0))
    (hreset : ∀ s, f { s with pNo := 0, lNo := 0 } = f s) :
    Keeps f (scanDevices depth disks channelNo) :=
  (Keeps.modify fun s => hreset s).bind fun _ => hscan.bind fun _ => Keeps.modify fun s => hreset s

theorem scanChannels_keeps (left : ℕ) : ∀ {channelNo : ℕ},
    (∀ c, channelNo ≤ c → c < channelNo + left → hd ≠ c * 2 + 1) →
      Keeps (fun s => s.recorded hd) (scanChannels depth disks left channelNo) := by
  induction left with
  | zero => exact fun _ => .pure _
  | succ left ih =>
    intro channelNo hne
    refine (Keeps.check _ _).bind fun _ => ?_
    have hne' : hd ≠ channelNo * 2 + 1 := hne channelNo (by omega) (by omega)
    refine (scanDevices_keeps (partitionScan_keeps _ hne' depth) fun _ => rfl).bind fun _ => ?_
    refine ih fun c h1 h2 => ?_
    exact hne c (by omega) (by omega)

/-- One disk is scanned as it would be alone. -/
theorem scanDevices_alone {channelNo : ℕ} {u : Unit}
    (hrun : scanDevices depth disks channelNo s = .ok (u, t))
    (hnone : s.recorded (channelNo * 2 + 1) = [])
    (hext : s.extLbaBase = 0 ∨ ¬ HasExtended (disks (channelNo * 2 + 1))) :
    ∃ t', partitionScan (disks (channelNo * 2 + 1)) (channelNo * 2 + 1) depth 0 .boot =
        .ok ((), t') ∧ t.recorded (channelNo * 2 + 1) = t'.recorded (channelNo * 2 + 1) := by
  obtain ⟨_, s1, hs1, hrun1⟩ := bind_eq_ok.mp hrun
  obtain ⟨_, s2, hs2, hs3⟩ := bind_eq_ok.mp hrun1
  obtain rfl := modify_eq_ok.mp hs1
  obtain rfl := modify_eq_ok.mp hs3
  have hagree : Agree (s.extLbaBase = 0) (channelNo * 2 + 1) { s with pNo := 0, lNo := 0 } .boot :=
    ⟨fun h => h, rfl, rfl, hnone⟩
  obtain ⟨t', ht', hr⟩ := (partitionScan_paired (disks (channelNo * 2 + 1)) depth hagree
    (hext.imp_right fun hno => ⟨rfl, hno⟩)).ok hs2
  exact ⟨t', ht', hr.recorded⟩

/-- Each disk is scanned as it would be alone. -/
theorem scanChannels_alone (left : ℕ) : ∀ {channelNo c : ℕ} {s t : ScanState} {u : Unit},
    scanChannels depth disks left channelNo s = .ok (u, t) → channelNo ≤ c → c < channelNo + left →
    s.recorded (c * 2 + 1) = [] →
    (s.extLbaBase = 0 ∧ (∀ c', channelNo ≤ c' → c' < c → ¬ HasExtended (disks (c' * 2 + 1))) ∨
      ¬ HasExtended (disks (c * 2 + 1))) →
    ∃ t', partitionScan (disks (c * 2 + 1)) (c * 2 + 1) depth 0 .boot = .ok ((), t') ∧
      t.recorded (c * 2 + 1) = t'.recorded (c * 2 + 1) := by
  induction left with
  | zero => intro channelNo c s t u _ h1 h2; omega
  | succ left ih =>
    intro channelNo c s t u hrun h1 h2 hnone hext
    obtain ⟨_, s1, hs1, hrun⟩ := bind_eq_ok.mp hrun
    obtain ⟨-, rfl⟩ := check_eq_ok.mp hs1
    obtain ⟨_, s2, hs2, hrun⟩ := bind_eq_ok.mp hrun
    by_cases hc : c = channelNo
    · -- this is the channel, and the others leave its disk alone
      subst hc
      obtain ⟨t', ht', hr⟩ := scanDevices_alone hs2 hnone (hext.imp_left And.left)
      have hne : ∀ c', c + 1 ≤ c' → c' < c + 1 + left → c * 2 + 1 ≠ c' * 2 + 1 := by omega
      have hkeep := (scanChannels_keeps left hne s2).ok hrun
      exact ⟨t', ht', hkeep.trans hr⟩
    · have hne : c * 2 + 1 ≠ channelNo * 2 + 1 := by omega
      have hkeep := (scanDevices_keeps (partitionScan_keeps _ hne depth) (fun _ => rfl) s).ok hs2
      refine ih hrun (by omega) (by omega) (hkeep.trans hnone) (hext.imp_left fun ⟨h0, hno⟩ => ?_)
      refine ⟨?_, fun c' h1' h2' => hno c' (by omega) h2'⟩
      have hbase := partitionScan_keeps_base (channelNo * 2 + 1)
        (hno channelNo (by omega) (by omega)) depth
      exact ((scanDevices_keeps hbase (fun _ => rfl) s).ok hs2).trans h0

/-- The disk is scanned by `ide_init`: it is the second one of a channel in use. -/
def Scanned (hdCnt : Byte) (hd : ℕ) : Prop := ∃ c < (hdCnt.toNat + 1) / 2, hd = c * 2 + 1

/-- The disk has no extended partition, or none of the disks scanned before it has. -/
def FirstExtended (disks : ℕ → Disk) (hd : ℕ) : Prop :=
  ¬ HasExtended (disks hd) ∨ ∀ c, c * 2 + 1 < hd → ¬ HasExtended (disks (c * 2 + 1))

/-- A disk that is scanned is scanned as it would be alone. -/
theorem ideInit_alone {hdCnt : Byte} {u : Unit}
    (hrun : ideInit depth disks hdCnt .boot = .ok (u, s))
    (hscan : Scanned hdCnt hd) (hfirst : FirstExtended disks hd) :
    ∃ t, partitionScan (disks hd) hd depth 0 .boot = .ok ((), t) ∧
      s.recorded hd = t.recorded hd := by
  obtain ⟨c, hc, rfl⟩ := hscan
  obtain ⟨_, s1, hs1, hrun1⟩ := bind_eq_ok.mp hrun
  obtain ⟨-, rfl⟩ := ASSERT_eq_ok.mp hs1
  obtain ⟨_, s2, hs2, hrun2⟩ := bind_eq_ok.mp hrun1
  obtain rfl := modify_eq_ok.mp hs2
  refine scanChannels_alone _ hrun2 (by omega) (by omega) rfl ?_
  rcases hfirst with hno | hno
  · exact .inr hno
  · exact .inl ⟨rfl, fun c' _ hc' => hno c' (by omega)⟩

/-- **Disks are scanned independently**, as long as a disk with an extended partition is not scanned
after another one: whatever the other disks hold and however many they are, the same partitions are
recorded for the disk. -/
theorem partitions_own {hdCnt hdCnt' : Byte} {s' : ScanState} {u u' : Unit}
    (hrun : ideInit depth disks hdCnt .boot = .ok (u, s))
    (hrun' : ideInit depth disks' hdCnt' .boot = .ok (u', s'))
    (hscan : Scanned hdCnt hd) (hscan' : Scanned hdCnt' hd) (hsame : disks hd = disks' hd)
    (hfirst : FirstExtended disks hd) (hfirst' : FirstExtended disks' hd) :
    s.recorded hd = s'.recorded hd := by
  obtain ⟨t, ht, hr⟩ := ideInit_alone hrun hscan hfirst
  obtain ⟨t', ht', hr'⟩ := ideInit_alone hrun' hscan' hfirst'
  rw [← hsame, ht] at ht'
  cases ht'
  rw [hr, hr']

end

/-! ### Two disks with extended partitions -/

/-- A table with one entry. -/
def tableOf (fsType : Byte) (startLba : Byte) : Buf := fun i =>
  if i = 450 then fsType else if i = 454 then startLba else if i = 458 then 1 else 0

/-- A disk with the tables at the given sectors and zeros elsewhere. -/
def diskOf (tables : List (ℕ × Buf)) : Disk := fun lba => (tables.lookup lba).getD fun _ => 0

/-- A disk whose extended partition starts at sector 20 and holds one logical partition. -/
def extendedDisk : Disk := diskOf [(0, tableOf 5 20), (20, tableOf 131 3)]

/-- With an extended partition on `sdb`, it does not matter whether `sdd` has one. -/
theorem partitions_own_sdb : ∃ s s',
    ideInit 3 (fun hd => if hd = 1 then extendedDisk else diskOf []) 4 .boot = .ok ((), s) ∧
    ideInit 3 (fun _ => extendedDisk) 4 .boot = .ok ((), s') ∧ s.recorded 1 = s'.recorded 1 := by
  have hs := eq_ok_of_value? (a := ()) (s := .boot) (x := ideInit 3 (fun hd =>
    if hd = 1 then extendedDisk else diskOf []) 4) (by decide +kernel)
  have hs' := eq_ok_of_value? (a := ()) (s := .boot) (x := ideInit 3 (fun _ => extendedDisk) 4)
    (by decide +kernel)
  have hscan : Scanned 4 1 := ⟨0, by decide, rfl⟩
  refine ⟨_, _, hs, hs', partitions_own hs hs' hscan hscan rfl (.inr ?_) (.inr ?_)⟩ <;> omega

/-- What `ide_init` records for the disk `hd`, if it returns. -/
def partitionsOf (depth : ℕ) (disks : ℕ → Disk) (hdCnt : Byte) (hd : ℕ) :
    Option (List (PartKind × ℕ × PartitionRec)) :=
  (state? (ideInit depth disks hdCnt) .boot).map (·.recorded hd)

/-- **A disk is shifted by another one.** The system has four disks, and `sdd` has an extended
partition at sector 20, with a logical partition at 23. It is found there if `sdb` is empty. If
`sdb` has an extended partition at sector 10, though, the table of the extended partition of `sdd`
is read from sector 30, and no partition is found. -/
theorem partitions_shifted :
    partitionsOf 3 (fun hd => if hd = 3 then extendedDisk else diskOf []) 4 3 =
      some [(.logical, 0, ⟨23, 1⟩)] ∧
    partitionsOf 3 (fun hd => if hd = 3 then extendedDisk else diskOf [(0, tableOf 5 10)]) 4 3 =
      some [] := by
  decide +kernel

end X86Os
