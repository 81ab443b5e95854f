import X86Os.Fs.Calls
import X86Os.Fs.Format

/-!
# Paths that lead somewhere

A path resolves to an inode if every component, followed in turn from the root, is there. This is
what the calls on a path are measured by. For the canonical path of a directory, in which no
component is `.` or `..`, the way back up is known: each directory is the home of the next.
-/

namespace X86Os

open X86Os.Comp FsState

/-! ### Paths within the limits -/

/-- Every component followed in turn from the root, the path leads to inode `m`, of type `t`. -/
def Resolves (part : Partition) (v : View) (p : List Byte) (m : ℕ) (t : FileType) : Prop :=
  ∃ done name d e, PathTo part v p done name d ∧ v.lookup part d name = some e ∧
    e.iNo = BitVec.ofNat 32 m ∧ e.fType = t.code

section

variable {part : Partition} {G : Tree} {s : FsState} {v : View} {p : List Byte} {m : ℕ}

theorem resolves_of_resolve (hne : names p ≠ []) (hplain : ∀ n ∈ names p, PlainName n)
    (hr : v.resolve part (names p) 0 = some m) : Resolves part v p m .directory := by
  have hp := (List.dropLast_append_getLast hne).symm
  rw [hp, View.resolve_append] at hr
  obtain ⟨d, hd, hr⟩ := Option.bind_eq_some_iff.1 hr
  obtain ⟨e, hl, ht, hr⟩ := View.resolve_cons hr
  obtain rfl := Option.some.inj hr
  exact ⟨_, _, d, e, ⟨hp, hplain _ (List.getLast_mem hne), hd⟩, hl, by simp, ht⟩

/-- An absolute path of at least one component, within the limits of length. -/
structure AbsolutePath (p : List Byte) : Prop where
  slash : p.headD 0 = X86Os.slash
  length : p.length < maxPathLen
  component : names p ≠ []
  fits : ∀ n ∈ names p, n.length < maxFileNameLen

/-- The blocks of all inodes are sectors of the disk. -/
def BlocksOnDisk (part : Partition) (G : Tree) (s : FsState) : Prop :=
  ∀ n ∈ G.live, ∀ k ≤ 140, ((s.view part).slot n k).toNat ≤ maxLba

theorem AbsolutePath.plain {p : CString} (hp : AbsolutePath p.1) :
    ∀ n ∈ names p.1, PlainName n := fun n hn =>
  ⟨(isName_of_mem_names hn).ne_nil, fun c hc => p.2 c (mem_of_mem_names hn hc), hp.fits n hn⟩

/-- A path with a component is longer than its slash. -/
theorem one_lt_length (h0 : p.headD 0 = slash) (hne : names p ≠ []) : 1 < p.length := by
  obtain ⟨t, rfl⟩ := exists_of_headD h0
  cases t with
  | nil => exact absurd (by decide) hne
  | cons c t => simp

theorem AbsolutePath.faults {E : Fault → Prop} (hp : AbsolutePath p)
    (hd : BlocksOnDisk part G s) (hE : ∀ f, NoMemory s → E f) : SearchFaults part G s p E where
  memory := hE _
  disk n hn k hk _ hlt := absurd (hd n hn k hk) (Nat.not_le.2 hlt)
  parse n hn hlen := absurd (hp.fits n hn) (Nat.not_lt.2 hlen.le)
  name n hn hlen := absurd (hp.fits n hn.mem) (Nat.not_lt.2 hlen.ge)
  path h := absurd ⟨hp.slash, one_lt_length hp.slash hp.component, hp.length⟩ h

end

/-! ### Canonical paths -/

section

variable {part : Partition} {G : Tree} {s : FsState} {v : View} {stack : List (List Byte)}
  {d m : ℕ} {t : FileType}

/-- The path of a stack of names. -/
def spell (stack : List (List Byte)) : List Byte := if stack = [] then [slash] else joinPath stack

theorem absolutePath_joinPath (hne : stack ≠ []) (hn : ∀ n ∈ stack, IsName n)
    (hfits : ∀ n ∈ stack, n.length < maxFileNameLen)
    (hlen : (joinPath stack).length < maxPathLen) : AbsolutePath (joinPath stack) := by
  have hslash : (joinPath stack).headD 0 = slash := by
    cases stack with
    | nil => exact absurd rfl hne
    | cons n l => rfl
  refine ⟨hslash, hlen, ?_, ?_⟩ <;> rw [names_joinPath hn]
  · exact hne
  · exact hfits

/-- The stack holds names proper, and leads to directory `d`. -/
structure Tracks (part : Partition) (v : View) (stack : List (List Byte)) (d : ℕ) : Prop where
  plain : ∀ n ∈ stack, PlainName n
  proper : ∀ n ∈ stack, n ≠ dot ∧ n ≠ dotDot
  resolve : v.resolve part stack 0 = some d

theorem tracks_nil : Tracks part v [] 0 := ⟨by simp, by simp, rfl⟩

theorem Tracks.dir (h : Tracks part v stack d) (hi : FsInv part G.live G v) :
    d ∈ G.live ∧ G.kind d = .directory :=
  hi.resolve rfl stack h.plain hi.tree.root hi.tree.kind_root h.resolve

/-- The last name of the stack is the directory's own, in the directory that it is in. -/
theorem Tracks.last {n : List Byte} (h : Tracks part v (stack ++ [n]) d)
    (hi : FsInv part G.live G v) : Tracks part v stack (G.home d) ∧ d ≠ 0 ∧
      ∃ k i, v.IsChild (G.home d) k i ∧ (v.cell (G.home d) k i).iNo = BitVec.ofNat 32 d ∧
        strEq (v.cell (G.home d) k i).filename n = true := by
  have hplain : ∀ x ∈ stack, PlainName x := fun x hx => h.plain x (by simp [hx])
  have hr := h.resolve
  rw [View.resolve_append] at hr
  obtain ⟨pd, hpd, hr⟩ := Option.bind_eq_some_iff.1 hr
  obtain ⟨e, hl, -, hend⟩ := View.resolve_cons hr
  have hstack : Tracks part v stack pd := ⟨hplain, fun x hx => h.proper x (by simp [hx]), hpd⟩
  obtain ⟨hlive, hkind⟩ := hstack.dir hi
  obtain ⟨hdot, hdotDot⟩ := h.proper n (by simp)
  have hdir := hi.dirs pd hlive hkind
  rcases hdir.lookup (h.plain n (by simp)) hl with ⟨hc, -⟩ | ⟨hc, -⟩ |
    ⟨-, -, k, i, hc, hno, -, -, hname⟩
  · exact absurd hc hdot
  · exact absurd hc hdotDot
  · obtain ⟨m, hm, hmno, -⟩ := hdir.child k i hc
    obtain ⟨hmlive, hm0, rfl⟩ := Tree.mem_children.1 hm
    obtain rfl : m = d := by
      have hd := Option.some.inj hend
      rwa [hno, hmno, toNat_ofNat (hi.lt m hmlive)] at hd
    exact ⟨hstack, hm0, k, i, hc, hmno, hname⟩

/-- **What a search returns for a path that leads somewhere.** -/
theorem Searched.of_resolves {p : List Byte} {nomem : Prop} {n : Word} {r : PathSearchRecord}
    (hf : Searched part v nomem p n r d) (hi : FsInv part G.live G v) (hmem : ¬ nomem)
    (hres : Resolves part v p m t) : n = BitVec.ofNat 32 m ∧ r.fileType = t := by
  obtain ⟨done, name, pd, e, hpath, hl, hno, ht⟩ := hres
  have hfound : ∀ {done' name' rest d'}, names p = done' ++ name' :: rest → PlainName name' →
      v.resolve part done' 0 = some d' → ∃ e', v.lookup part d' name' = some e' ∧
        (e'.fType = FileType.regular.code → rest = []) := by
    intro done' name' rest d' hp hn hd
    cases rest with
    | nil =>
      obtain ⟨rfl, rfl, rfl⟩ := hpath.eq ⟨hp, hn, hd⟩
      exact ⟨e, hl, fun _ => rfl⟩
    | cons x rest =>
      obtain ⟨e', hl', ht'⟩ := hpath.inner hp (by simp) hd
      exact ⟨e', hl', fun hreg => absurd (ht'.symm.trans hreg) (by decide)⟩
  cases hf with
  | root h hp hn =>
    obtain ⟨name', e', hpath', hl', ht', hno'⟩ := root_spelling hi hp (by simp [hpath.names])
    obtain ⟨rfl, rfl, rfl⟩ := hpath.eq hpath'
    obtain rfl := Option.some.inj (hl.symm.trans hl')
    exact ⟨hn.trans (hno'.symm.trans hno), FileType.code_inj (ht'.symm.trans ht)⟩
  | empty h hp =>
    rw [hpath.names] at hp
    simp at hp
  | absent done' rest name' dir _ hp hn hd hl' =>
    obtain ⟨e', he', -⟩ := hfound hp hn hd
    rw [hl'.resolve_right hmem] at he'
    cases he'
  | regular done' rest name' dir _ e' hp hn hd hl' ht' hno' =>
    obtain ⟨e'', he'', hrest⟩ := hfound hp hn hd
    obtain rfl := Option.some.inj (hl'.symm.trans he'')
    obtain rfl := hrest ht'
    obtain ⟨rfl, rfl, rfl⟩ := hpath.eq ⟨hp, hn, hd⟩
    obtain rfl := Option.some.inj (hl.symm.trans hl')
    exact ⟨hno'.trans hno, FileType.code_inj (ht'.symm.trans ht)⟩
  | directory done' name' h _ e' hp hn hd hl' ht' hno' =>
    obtain ⟨rfl, rfl, rfl⟩ := hpath.eq ⟨hp, hn, hd⟩
    obtain rfl := Option.some.inj (hl.symm.trans hl')
    exact ⟨hno'.trans hno, FileType.code_inj (ht'.symm.trans ht)⟩

/-- `search_file` on a path that leads somewhere. -/
theorem searchFile_of_resolves {p : CString} (hs : Sound part G s) (hr : CountsOk s)
    (hd : BlocksOnDisk part G s) (hmem : ¬ NoMemory s) (hp : AbsolutePath p.1)
    (hres : Resolves part (s.view part) p.1 m t) :
    ∃ r s', searchFile part p s = .ok (r, s') ∧ r.1 = BitVec.ofNat 32 m ∧ r.2.fileType = t := by
  have hrun := searchFile_wp (hp.faults (E := fun _ => False) hd fun _ => hmem) (.refl hs hr)
  obtain ⟨r, s', hout, -, d, hf, -⟩ := hrun.returns
  exact ⟨r, s', hout, hf.of_resolves hs.inv hmem hres⟩

end

theorem blocksOnDisk_smallFs : BlocksOnDisk smallPart rootTree smallFs := by
  rw [BlocksOnDisk]
  decide +kernel

theorem memory_smallFs : ¬ NoMemory smallFs := by
  rintro ⟨k, hk⟩
  cases hk

theorem blocksOnDisk_treeFs : BlocksOnDisk smallPart smallTree treeFs := by
  rw [BlocksOnDisk]
  decide +kernel

theorem memory_treeFs : ¬ NoMemory treeFs := by
  rintro ⟨k, hk⟩
  cases hk

/-- `/f/x`. -/
def pathFX : CString := ⟨[0x2f, 0x66, 0x2f, 0x78], by decide⟩

theorem tracks_pathFX : Tracks smallPart (treeFs.view smallPart) [[0x66], [0x78]] 2 := by
  refine ⟨List.forall_mem_cons.2 ⟨⟨by decide, by decide, by decide⟩, List.forall_mem_cons.2
    ⟨⟨by decide, by decide, by decide⟩, List.forall_mem_nil _⟩⟩, by decide, by decide +kernel⟩

end X86Os
