import X86Os.Fs.Resolved

/-!
# Washed paths

The shell does not hand a path to the kernel as it was typed. `wash_path` of `shell/buildin_cmd.c`
first takes `.` and `..` out of it, on the string: `..` cuts the path off at its last slash, or
after its first character if that is the last slash, and any other name is appended. The kernel can
do with both kinds of names itself, since every directory has entries for them.

That the two agree is a simulation. What has been written so far is a stack of names, and the
directory that the names read so far lead to is the one that the stack leads to (`Tracks`). A name
is pushed on both sides; `..` takes the last name off the stack, and the directory that it was found
in is the one that the `..` entry of the tree goes back to.

## Main results

* `washPath_eq` — the string is the spelling of the stack
* `Tracks.step`, `Tracks.run` — the stack and the walk stay together
* `wash_path_normal_form` — what `wash_path` yields, and that it is in normal form
* `wash_path_agrees` — `search_file` finds the same on both paths
-/

namespace X86Os

open X86Os.Comp FsState

/-! ### The string -/

/-- One round of the loop of `wash_path`. -/
def washName (newAbsPath name : List Byte) : List Byte :=
  if name = dotDot then
    if slashPtr newAbsPath ≠ 0 then newAbsPath.take (slashPtr newAbsPath)
    else newAbsPath.take (slashPtr newAbsPath + 1)
  else if name ≠ dot then
    (if newAbsPath ≠ [slash] then newAbsPath ++ [slash] else newAbsPath) ++ name
  else newAbsPath

/-- `wash_path`. The `assert` of a user program spins when it fails, and a component that does not
fit into `name` overwrites what is behind it. -/
def washPath (oldAbsPath : List Byte) : Except Fault (List Byte) :=
  if oldAbsPath.headD 0 = slash then
    if (names oldAbsPath).all fun name => decide (name.length < maxFileNameLen) then
      .ok ((names oldAbsPath).foldl washName [slash])
    else .error .wild
  else .error .hang

/-! ### The stack -/

/-- What a name does to the names before it. -/
def cancel (stack : List (List Byte)) (name : List Byte) : List (List Byte) :=
  if name = dotDot then stack.dropLast else if name = dot then stack else stack ++ [name]

section

variable {stack : List (List Byte)} {name : List Byte}

theorem spell_snoc : spell (stack ++ [name]) = joinPath stack ++ slash :: name := by
  rw [spell, if_neg (by simp), joinPath_append, joinPath_singleton]

theorem spell_eq_slash (hst : ∀ n ∈ stack, IsName n) : spell stack = [slash] ↔ stack = [] := by
  refine ⟨fun h => ?_, fun h => by rw [h]; rfl⟩
  cases stack with
  | nil => rfl
  | cons n l =>
    rw [spell, if_neg (by simp), joinPath_cons] at h
    have hn := (hst n List.mem_cons_self).ne_nil
    simp [hn] at h

theorem slashPtr_snoc (hn : IsName name) : slashPtr (spell (stack ++ [name])) =
    (joinPath stack).length := by
  rw [spell_snoc, slashPtr_append hn]

/-- What is true of the names before, and of a name that is pushed, is true of the names after. -/
theorem forall_mem_cancel {P : List Byte → Prop} (hst : ∀ n ∈ stack, P n)
    (hn : name ≠ dot → name ≠ dotDot → P name) : ∀ n ∈ cancel stack name, P n := by
  intro n hm
  rw [cancel] at hm
  split_ifs at hm with hdd hd
  · exact hst n (List.mem_of_mem_dropLast hm)
  · exact hst n hm
  · rcases List.mem_append.1 hm with hm | hm
    · exact hst n hm
    · rw [List.mem_singleton.1 hm]
      exact hn hd hdd

theorem forall_mem_foldl_cancel {P : List Byte → Prop} (ns : List (List Byte))
    (hst : ∀ n ∈ stack, P n) (hns : ∀ n ∈ ns, n ≠ dot → n ≠ dotDot → P n) :
    ∀ n ∈ ns.foldl cancel stack, P n := by
  induction ns generalizing stack with
  | nil => exact hst
  | cons n ns ih =>
    exact ih (forall_mem_cancel hst (hns n List.mem_cons_self)) fun m hm =>
      hns m (List.mem_cons_of_mem _ hm)

/-- **One name.** -/
theorem washName_spell (hst : ∀ n ∈ stack, IsName n) :
    washName (spell stack) name = spell (cancel stack name) := by
  rcases eq_or_ne name dotDot with rfl | hdd
  · rw [washName, if_pos rfl, cancel, if_pos rfl]
    rcases List.eq_nil_or_concat stack with rfl | ⟨st, n, rfl⟩
    · rfl
    · rw [List.concat_eq_append] at hst ⊢
      rw [slashPtr_snoc (hst n (by simp)), List.dropLast_concat, spell_snoc]
      cases st with
      | nil => rfl
      | cons x st =>
        rw [if_pos (by simp [joinPath_cons]), List.take_left, spell, if_neg (by simp)]
  · rcases eq_or_ne name dot with rfl | hd
    · rw [washName, if_neg hdd, if_neg (not_not.2 rfl), cancel, if_neg hdd, if_pos rfl]
    · rw [washName, if_neg hdd, if_pos hd, cancel, if_neg hdd, if_neg hd, spell_snoc]
      by_cases h0 : stack = []
      · rw [if_neg (not_not.2 ((spell_eq_slash hst).2 h0)), h0]
        rfl
      · rw [if_pos fun h => h0 ((spell_eq_slash hst).1 h), spell, if_neg h0, List.append_assoc]
        rfl

theorem foldl_washName (ns : List (List Byte)) (hst : ∀ n ∈ stack, IsName n)
    (hns : ∀ n ∈ ns, IsName n) :
    ns.foldl washName (spell stack) = spell (ns.foldl cancel stack) := by
  induction ns generalizing stack with
  | nil => rfl
  | cons n ns ih =>
    rw [List.foldl_cons, List.foldl_cons, washName_spell hst]
    exact ih (forall_mem_cancel hst fun _ _ => hns n List.mem_cons_self) fun m hm =>
      hns m (List.mem_cons_of_mem _ hm)

/-- **The string is the spelling of the stack.** -/
theorem washPath_eq {p : List Byte} (hslash : p.headD 0 = slash)
    (hfits : ∀ n ∈ names p, n.length < maxFileNameLen) :
    washPath p = .ok (spell ((names p).foldl cancel [])) := by
  have hall : (names p).all (fun name => decide (name.length < maxFileNameLen)) = true := by
    simpa using hfits
  have hnil : ∀ n ∈ ([] : List (List Byte)), IsName n := nofun
  rw [washPath, if_pos hslash, if_pos hall]
  exact congrArg Except.ok (foldl_washName (names p) hnil fun n hn => isName_of_mem_names hn)

/-- The names that are left on the stack are names of the path, and proper ones. -/
theorem names_of_stack {p n : List Byte} (hn : n ∈ (names p).foldl cancel []) :
    n ∈ names p ∧ n ≠ dot ∧ n ≠ dotDot :=
  forall_mem_foldl_cancel (P := fun n => n ∈ names p ∧ n ≠ dot ∧ n ≠ dotDot) (names p)
    (List.forall_mem_nil _) (fun _ hm hd hdd => ⟨hm, hd, hdd⟩) n hn

/-- A washed path is no longer than the names that it is made of. -/
theorem length_joinPath_cancel : (joinPath (cancel stack name)).length ≤
    (joinPath stack).length + (name.length + 1) := by
  rw [cancel]
  split_ifs
  · rcases List.eq_nil_or_concat stack with rfl | ⟨st, n, rfl⟩
    · exact Nat.zero_le _
    · rw [List.concat_eq_append, List.dropLast_concat, joinPath_append, List.length_append]
      omega
  · omega
  · rw [joinPath_append, joinPath_singleton, List.length_append, List.length_cons]

theorem length_joinPath_foldl (ns : List (List Byte)) :
    (joinPath (ns.foldl cancel stack)).length ≤ (joinPath stack).length + (joinPath ns).length := by
  induction ns generalizing stack with
  | nil => exact Nat.le_refl _
  | cons n ns ih =>
    rw [joinPath_cons, List.length_cons, List.length_append, List.foldl_cons]
    have hstep : (joinPath (cancel stack n)).length ≤ (joinPath stack).length + (n.length + 1) :=
      length_joinPath_cancel
    exact ih.trans (by omega)

end

/-! ### The normal form

What stands between two slashes is a component, the empty ones too. `path_parse` passes over those,
so the stack may as well be worked out from the components (`push`), and this is the form in which
the normal form is stated. -/

/-- What a component does to the components before it. -/
def push (stack : List (List Byte)) (component : List Byte) : List (List Byte) :=
  if component = dotDot then stack.dropLast
  else if component = dot ∨ component = [] then stack
  else stack ++ [component]

theorem pathNames_eq_splitOn (fuel : ℕ) : ∀ {p : List Byte}, p.length ≤ fuel →
    pathNames fuel p = (p.splitOn slash).filter (· ≠ []) := by
  -- leading slashes only add empty components
  have hskip : ∀ (sl q : List Byte), (∀ c ∈ sl, c = slash) →
      ((sl ++ q).splitOn slash).filter (· ≠ []) = (q.splitOn slash).filter (· ≠ []) := by
    intro sl q hsl
    induction sl with
    | nil => rfl
    | cons c sl ih =>
      obtain rfl := hsl c List.mem_cons_self
      have hcons := List.splitOn_append_cons_self_of_not_mem (a := slash)
        List.not_mem_nil (sl ++ q)
      rw [List.nil_append] at hcons
      rw [List.cons_append, hcons, List.filter_cons_of_neg (by simp)]
      exact ih fun c hc => hsl c (List.mem_cons_of_mem _ hc)
  induction fuel with
  | zero =>
    intro p hp
    obtain rfl := List.length_eq_zero_iff.1 (Nat.le_zero.1 hp)
    rfl
  | succ fuel ih =>
    intro p hlen
    obtain ⟨sl, n, rest, rfl, hsl, hn, hrest, hempty, hparse⟩ := pathParse_split p
    have hns : slash ∉ n := fun h => hn slash h rfl
    rw [pathNames, hparse, hskip sl _ hsl]
    cases n with
    | nil =>
      rw [hempty rfl]
      rfl
    | cons c n =>
      rcases hrest with rfl | ⟨t, rfl⟩
      · rw [List.append_nil, List.splitOn_eq_singleton hns]
        rfl
      · rw [List.splitOn_append_cons_self_of_not_mem hns, List.filter_cons_of_pos (by simp)]
        simp only [List.isEmpty_cons, Bool.false_eq_true, if_false]
        rw [ih (by simp only [List.length_append, List.length_cons] at hlen ⊢; omega)]
        exact congrArg _ (hskip [slash] t (by simp))

theorem names_eq_splitOn (p : List Byte) : names p = (p.splitOn slash).filter (· ≠ []) :=
  pathNames_eq_splitOn p.length (Nat.le_refl _)

/-- The stack of the names is the stack of the components. -/
theorem foldl_cancel_names (p : List Byte) :
    (names p).foldl cancel [] = (p.splitOn slash).foldl push [] := by
  rw [names_eq_splitOn, List.foldl_filter]
  congr 1
  funext stack component
  rw [push, cancel]
  by_cases h0 : component = []
  · subst h0
    rw [if_neg (by decide), if_neg (by decide), if_pos (.inr rfl)]
  · simp only [h0, ne_eq, not_false_eq_true, decide_true, if_true, or_false]

/-- A path spelled from names is a slash and the names with slashes between them. -/
theorem spell_cons (n : List Byte) (l : List (List Byte)) :
    spell (n :: l) = slash :: [slash].intercalate (n :: l) := by
  rw [spell, if_neg (by simp), joinPath_cons]
  congr 1
  induction l generalizing n with
  | nil => simp [joinPath]
  | cons m l ih => rw [joinPath_cons, ih m, List.intercalate_cons_cons]; simp

/-- A path in normal form: the root, or proper names with one slash before each. -/
structure Washed (q : List Byte) : Prop where
  slash : q.headD 0 = slash
  component : q ≠ [X86Os.slash] → ∀ c ∈ q.tail.splitOn X86Os.slash, c ≠ [] ∧ c ≠ dot ∧ c ≠ dotDot
  last : q ≠ [X86Os.slash] → q.getLastD 0 ≠ X86Os.slash

/-- Proper names are spelled in normal form. -/
theorem washed_spell {stack : List (List Byte)} (hst : ∀ n ∈ stack, IsName n)
    (hproper : ∀ n ∈ stack, n ≠ dot ∧ n ≠ dotDot) : Washed (spell stack) := by
  have hns : ∀ n ∈ stack, X86Os.slash ∉ n := fun n hn h => (hst n hn).no_slash _ h rfl
  cases stack with
  | nil => exact ⟨rfl, fun h => absurd rfl h, fun h => absurd rfl h⟩
  | cons n l =>
    refine ⟨by rw [spell_cons]; rfl, fun _ c hc => ?_, fun _ => ?_⟩
    · rw [spell_cons, List.tail_cons, List.splitOn_intercalate X86Os.slash hns (by simp)] at hc
      exact ⟨(hst c hc).ne_nil, hproper c hc⟩
    · -- the last character belongs to the last name
      obtain ⟨st, m, hm⟩ : ∃ st m, n :: l = st ++ [m] :=
        ⟨_, _, (List.dropLast_append_getLast (List.cons_ne_nil n l)).symm⟩
      have hlast := hst m (by simp [hm])
      rw [hm, spell_snoc, List.getLastD_eq_getLast?, List.getLast?_append,
        List.getLast?_cons_of_ne_nil hlast.ne_nil, List.getLast?_eq_some_getLast hlast.ne_nil]
      exact hlast.no_slash _ (List.getLast_mem hlast.ne_nil)

/-- Names proper are pushed one after the other. -/
theorem foldl_cancel_proper (ns : List (List Byte)) {stack : List (List Byte)}
    (hproper : ∀ n ∈ ns, n ≠ dot ∧ n ≠ dotDot) : ns.foldl cancel stack = stack ++ ns := by
  induction ns generalizing stack with
  | nil => rw [List.append_nil]; rfl
  | cons n ns ih =>
    obtain ⟨hd, hdd⟩ := hproper n List.mem_cons_self
    rw [List.foldl_cons, cancel, if_neg hdd, if_neg hd,
      ih fun m hm => hproper m (List.mem_cons_of_mem _ hm), List.append_assoc]
    rfl

/-- **Path normalisation.** For an absolute path whose components fit, `wash_path` yields the
spelling of the stack that its components leave. That is a path in normal form, no longer than the
path, and `wash_path` leaves it as it is. -/
theorem wash_path_normal_form {p : List Byte} (hslash : p.headD 0 = slash)
    (hfits : ∀ c ∈ p.splitOn slash, c.length < maxFileNameLen) :
    ∃ q, washPath p = .ok q ∧ q = spell ((p.splitOn slash).foldl push []) ∧ Washed q ∧
      q.length ≤ p.length ∧ washPath q = .ok q := by
  have hfit : ∀ n ∈ names p, n.length < maxFileNameLen := fun n hn =>
    hfits n (List.mem_of_mem_filter (names_eq_splitOn p ▸ hn))
  have hname : ∀ n ∈ (names p).foldl cancel [], IsName n := fun n hn =>
    isName_of_mem_names (names_of_stack hn).1
  have hproper : ∀ n ∈ (names p).foldl cancel [], n ≠ dot ∧ n ≠ dotDot := fun n hn =>
    (names_of_stack hn).2
  refine ⟨_, washPath_eq hslash hfit, by rw [foldl_cancel_names],
    washed_spell hname hproper, ?_, ?_⟩
  · have hjoin : (joinPath ((names p).foldl cancel [])).length ≤ 0 + (joinPath (names p)).length :=
      length_joinPath_foldl (names p)
    have hnames := length_joinPath_pathNames p.length (.inr hslash)
    rw [spell]
    split_ifs
    · cases p with
      | nil => cases hslash
      | cons c p => exact Nat.succ_le_succ (Nat.zero_le _)
    · exact (Nat.zero_add _ ▸ hjoin).trans hnames
  · -- the names of the result are the stack, and none of them takes another away
    have hagain : names (spell ((names p).foldl cancel [])) = (names p).foldl cancel [] := by
      rw [spell]
      split_ifs with h0
      · rw [h0]
        rfl
      · exact names_joinPath hname
    rw [washPath_eq (washed_spell hname hproper).slash (by
      rw [hagain]; exact fun n hn => hfit n (names_of_stack hn).1), hagain,
      foldl_cancel_proper _ hproper, List.nil_append]

/-- `/a//../b/./`, which is `/b`. -/
theorem wash_path_normal_form_dots :
    ∃ q, washPath [0x2f, 0x61, 0x2f, 0x2f, 0x2e, 0x2e, 0x2f, 0x62, 0x2f, 0x2e, 0x2f] = .ok q ∧
      q = spell ((List.splitOn slash
        [0x2f, 0x61, 0x2f, 0x2f, 0x2e, 0x2e, 0x2f, 0x62, 0x2f, 0x2e, 0x2f]).foldl push []) ∧
      Washed q ∧ q.length ≤ 11 ∧ washPath q = .ok q :=
  wash_path_normal_form (by decide) (by decide)

/-! ### The walk -/

section

variable {part : Partition} {G : Tree} {s : FsState} {v : View} {stack : List (List Byte)}
  {name : List Byte} {d m : ℕ} {e : DirEntry} {t : FileType}

/-- **One name on both sides.** -/
theorem Tracks.step (h : Tracks part v stack d) (hi : FsInv part G.live G v) (hn : PlainName name)
    (hl : v.lookup part d name = some e) (ht : e.fType = FileType.directory.code) :
    Tracks part v (cancel stack name) e.iNo.toNat := by
  obtain ⟨hlive, hkind⟩ := h.dir hi
  rcases (hi.dirs d hlive hkind).lookup hn hl with ⟨rfl, hno, -⟩ | ⟨rfl, hno, -⟩ | ⟨hd, hdd, -⟩
  · rw [cancel, if_neg (by decide), if_pos rfl, hno, toNat_ofNat (hi.lt d hlive)]
    exact h
  · have hhome := (hi.tree.home d hlive).1
    rw [cancel, if_pos rfl, hno, toNat_ofNat (hi.lt _ hhome)]
    rcases List.eq_nil_or_concat stack with rfl | ⟨st, n, rfl⟩
    · obtain rfl : 0 = d := Option.some.inj h.resolve
      rw [hi.tree.home_root]
      exact tracks_nil
    · rw [List.concat_eq_append] at h ⊢
      rw [List.dropLast_concat]
      exact (h.last hi).1
  · rw [cancel, if_neg hdd, if_neg hd]
    refine ⟨fun n hn' => ?_, fun n hn' => ?_, View.resolve_snoc h.resolve hl ht⟩
    · rcases List.mem_append.1 hn' with hn' | hn'
      · exact h.plain n hn'
      · rwa [List.mem_singleton.1 hn']
    · rcases List.mem_append.1 hn' with hn' | hn'
      · exact h.proper n hn'
      · rw [List.mem_singleton.1 hn']
        exact ⟨hd, hdd⟩

/-- **All names.** -/
theorem Tracks.run (ns : List (List Byte)) (hi : FsInv part G.live G v)
    (hns : ∀ n ∈ ns, PlainName n) {d' : ℕ} (h : Tracks part v stack d)
    (hr : v.resolve part ns d = some d') : Tracks part v (ns.foldl cancel stack) d' := by
  induction ns generalizing stack d with
  | nil =>
    cases hr
    exact h
  | cons n ns ih =>
    obtain ⟨e, hl, ht, hr⟩ := View.resolve_cons hr
    exact ih (fun x hx => hns x (List.mem_cons_of_mem _ hx))
      (h.step hi (hns n List.mem_cons_self) hl ht) hr

/-! ### The search -/

/-- The stack that the names of a path leave leads to the same. -/
theorem Resolves.washed {p : CString} (hi : FsInv part G.live G v) (hp : AbsolutePath p.1)
    (hres : Resolves part v p.1 m t) :
    ((names p.1).foldl cancel [] = [] ∧ BitVec.ofNat 32 m = 0 ∧ t = .directory) ∨
    (names p.1).foldl cancel [] ≠ [] ∧
      Resolves part v (spell ((names p.1).foldl cancel [])) m t := by
  obtain ⟨done, name, d, e, hpath, hl, hno, ht⟩ := hres
  have hnames := hpath.names
  have hdone : Tracks part v (done.foldl cancel []) d :=
    .run done hi (fun n hn => hp.plain n (by simp [hnames, hn])) tracks_nil hpath.resolve
  have hfold : (names p.1).foldl cancel [] = cancel (done.foldl cancel []) name := by
    rw [hnames, List.foldl_append]
    rfl
  have hisName : ∀ n ∈ (names p.1).foldl cancel [], IsName n := fun n hn =>
    isName_of_mem_names (names_of_stack hn).1
  have hspell : (names p.1).foldl cancel [] ≠ [] →
      names (spell ((names p.1).foldl cancel [])) = (names p.1).foldl cancel [] := by
    intro hne
    rw [spell, if_neg hne, names_joinPath hisName]
  rw [hfold] at hspell ⊢
  by_cases hdir : e.fType = FileType.directory.code
  · obtain rfl : t = .directory := FileType.code_inj (ht.symm.trans hdir)
    have hlast := hdone.step hi hpath.plain hl hdir
    by_cases hne : cancel (done.foldl cancel []) name = []
    · refine .inl ⟨hne, ?_, rfl⟩
      rw [hne] at hlast
      have h0 : 0 = e.iNo.toNat := Option.some.inj hlast.resolve
      rw [← hno]
      exact BitVec.eq_of_toNat_eq h0.symm
    · refine .inr ⟨hne, ?_⟩
      have hr := hlast.resolve
      rw [← hspell hne] at hr
      obtain ⟨done', name', d', e', hpath', hl', hno', ht'⟩ := resolves_of_resolve
        (by rw [hspell hne]; exact hne) (by rw [hspell hne]; exact hlast.plain) hr
      refine ⟨done', name', d', e', hpath', hl', ?_, ht'⟩
      rw [hno', BitVec.ofNat_toNat, BitVec.setWidth_eq, hno]
  · -- a file is under a name proper
    obtain ⟨hlive, hkind⟩ := hdone.dir hi
    have hproper : name ≠ dot ∧ name ≠ dotDot := by
      rcases (hi.dirs d hlive hkind).lookup hpath.plain hl with ⟨-, -, hc⟩ |
        ⟨-, -, hc⟩ | ⟨h1, h2, -⟩
      · exact absurd hc hdir
      · exact absurd hc hdir
      · exact ⟨h1, h2⟩
    have hpush : cancel (done.foldl cancel []) name = done.foldl cancel [] ++ [name] := by
      rw [cancel, if_neg hproper.2, if_neg hproper.1]
    have hne : cancel (done.foldl cancel []) name ≠ [] := by simp [hpush]
    refine .inr ⟨hne, done.foldl cancel [], name, d, e, ⟨?_, hpath.plain, hdone.resolve⟩,
      hl, hno, ht⟩
    rw [hspell hne, hpush]

/-- **Washing a path does not change where it leads.** The file system is in order, with blocks on
the disk and enough memory. The path is absolute, within the limits of length, and has at least one
component; followed through the tree component by component, it leads to inode `m`, of type `t`.
Then `wash_path` yields a path, and `search_file` returns `m` and `t` for both. -/
theorem wash_path_agrees {p : CString} (hs : Sound part G s) (hr : CountsOk s)
    (hd : BlocksOnDisk part G s) (hmem : ¬ NoMemory s) (hp : AbsolutePath p.1)
    (hres : Resolves part (s.view part) p.1 m t) :
    ∃ q : CString, washPath p.1 = .ok q.1 ∧ ∃ r r' s1 s2,
      searchFile part p s = .ok (r, s1) ∧ searchFile part q s = .ok (r', s2) ∧
      r.1 = BitVec.ofNat 32 m ∧ r'.1 = BitVec.ofNat 32 m ∧
      r.2.fileType = t ∧ r'.2.fileType = t := by
  obtain ⟨r, s1, hrun, hno, ht⟩ := searchFile_of_resolves hs hr hd hmem hp hres
  rcases hres.washed hs.inv hp with ⟨hst, hm, rfl⟩ | ⟨hst, hres'⟩
  · -- the root, which `search_file` knows
    refine ⟨⟨[slash], by decide⟩, ?_, r, _, s1, s, hrun, rfl, hno, hm.symm, ht, rfl⟩
    rw [washPath_eq hp.slash hp.fits, hst]
    rfl
  · set stack := (names p.1).foldl cancel [] with hstack
    have hmem' : ∀ n ∈ stack, n ∈ names p.1 := fun n hn => (names_of_stack hn).1
    have hspell : spell stack = joinPath stack := by rw [spell, if_neg hst]
    have hzero : ∀ c ∈ joinPath stack, c ≠ 0 := by
      intro c hc
      obtain ⟨n, hn, hc⟩ := List.mem_flatMap.1 hc
      rcases List.mem_cons.1 hc with rfl | hc
      · decide
      · exact p.2 c (mem_of_mem_names (hmem' n hn) hc)
    have hlen : (joinPath stack).length < maxPathLen := by
      have h1 : (joinPath stack).length ≤ 0 + (joinPath (names p.1)).length :=
        length_joinPath_foldl (names p.1)
      have h2 := length_joinPath_pathNames p.1.length (.inr hp.slash)
      have h3 := hp.length
      rw [Nat.zero_add] at h1
      exact (h1.trans h2).trans_lt h3
    have hq : AbsolutePath (joinPath stack) := absolutePath_joinPath hst
      (fun n hn => isName_of_mem_names (hmem' n hn)) (fun n hn => hp.fits n (hmem' n hn)) hlen
    rw [hspell] at hres'
    obtain ⟨r', s2, hrun', hno', ht'⟩ := searchFile_of_resolves (p := ⟨joinPath stack, hzero⟩) hs hr
      hd hmem hq hres'
    refine ⟨⟨joinPath stack, hzero⟩, ?_, r, r', s1, s2, hrun, hrun', hno, hno', ht, ht'⟩
    exact (washPath_eq hp.slash hp.fits).trans (congrArg Except.ok hspell)

end

/-- `/.././/.`. -/
def pathDots : CString := ⟨[0x2f, 0x2e, 0x2e, 0x2f, 0x2e, 0x2f, 0x2f, 0x2e], by decide⟩

theorem wash_path_agrees_dots : washPath pathDots.1 = .ok [slash] ∧ ∃ q : CString,
    washPath pathDots.1 = .ok q.1 ∧ ∃ r r' s1 s2,
      searchFile smallPart pathDots smallFs = .ok (r, s1) ∧
      searchFile smallPart q smallFs = .ok (r', s2) ∧ r.1 = 0 ∧ r'.1 = 0 ∧
      r.2.fileType = .directory ∧ r'.2.fileType = .directory := by
  obtain ⟨hs, hr, -, -⟩ := sound_smallFs
  have hpath : AbsolutePath pathDots.1 := ⟨by decide, by decide, by decide, by decide⟩
  have hres : Resolves smallPart (smallFs.view smallPart) pathDots.1 0 .directory :=
    resolves_of_resolve hpath.component hpath.plain (by decide +kernel)
  exact ⟨by decide, wash_path_agrees hs hr blocksOnDisk_smallFs memory_smallFs hpath hres⟩

end X86Os
