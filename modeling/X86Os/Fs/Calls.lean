import X86Os.Fs.Search

/-!
# Calls, by where their paths lead

Every call on a path begins with a lookup and then does one of a few things. This module says, call
by call, which: it reduces what has to be shown of a call to what has to be shown where the call has
found its target, and to the exits at which it has changed nothing. What the calls do to the target
is not looked into here.

`PathTo` is a path whose last component is to be looked up in a directory of a known number. That
the components before it were all followed is what the callers check by comparing depths.
-/

namespace X86Os

open X86Os.Comp FsState

/-- All components of the path but the last lead to directory `d`. -/
structure PathTo (part : Partition) (v : View) (p : List Byte) (done : List (List Byte))
    (name : List Byte) (d : ℕ) : Prop where
  names : names p = done ++ [name]
  plain : PlainName name
  resolve : v.resolve part done 0 = some d

/-- What `sys_open` asks for is there: a file to open, or a free name in a directory. -/
def CanOpen (part : Partition) (v : View) (p : List Byte) (flags : Word) : Prop :=
  p.getLastD 0 ≠ slash ∧ ∃ done name d, PathTo part v p done name d ∧
    if hasCreat flags then v.lookup part d name = none
    else ∃ e, v.lookup part d name = some e ∧ e.fType = FileType.regular.code

section

variable {part : Partition} {G : Tree} {s s0 : FsState} {n d : ℕ} {v : View} {p : List Byte}
  {E : Fault → Prop}
  {done rest : List (List Byte)} {name : List Byte}

/-! ### Where a path leads -/

theorem PathTo.eq {done' : List (List Byte)} {name' : List Byte} {d' : ℕ}
    (h : PathTo part v p done name d) (h' : PathTo part v p done' name' d') :
    done = done' ∧ name = name' ∧ d = d' := by
  obtain ⟨h1, h2⟩ := List.append_inj' (h.names.symm.trans h'.names) rfl
  obtain rfl := h1
  exact ⟨rfl, List.singleton_inj.1 h2, Option.some.inj (h.resolve.symm.trans h'.resolve)⟩

/-- A component with others after it has to be a directory. -/
theorem PathTo.inner {done' : List (List Byte)} {name' : List Byte} {d' : ℕ}
    (h : PathTo part v p done' name' d') (hp : X86Os.names p = done ++ name :: rest)
    (hrest : rest ≠ []) (hd : v.resolve part done 0 = some d) :
    ∃ e, v.lookup part d name = some e ∧ e.fType = FileType.directory.code := by
  have hsplit : done' = done ++ name :: rest.dropLast := by
    have he := h.names.symm.trans hp
    rw [← List.dropLast_append_getLast hrest, ← List.cons_append, ← List.append_assoc] at he
    exact (List.append_inj' he rfl).1
  have hr := h.resolve
  rw [hsplit, View.resolve_append, hd, Option.bind_some] at hr
  obtain ⟨e, hl, ht, -⟩ := View.resolve_cons hr
  exact ⟨e, hl, ht⟩

theorem findSome?_isSome_of_mem {α β : Type} {f : α → Option β} {l : List α} {a : α} (ha : a ∈ l)
    (hf : f a ≠ none) : l.findSome? f ≠ none := fun h => hf (List.findSome?_eq_none_iff.1 h a ha)

/-- A directory has the entries `.` and `..`. -/
theorem DirOk.lookup_ne_none (h : DirOk G v d) {i : ℕ} (hi : i < 21) (hn : name.length < 16)
    (he : strEq (v.cell d 0 i).filename name = true) : v.lookup part d name ≠ none := by
  refine findSome?_isSome_of_mem (List.mem_range.2 (show 0 < 140 by decide)) ?_
  rw [if_neg h.first]
  intro hf
  have := findEntry_eq_none hf i hi
  rw [View.cell, X86Os.cell, strEq_trunc hn, this] at he
  cases he

/-- The three spellings of the root have no component, or one that leads to the root. -/
theorem root_spelling (hi : FsInv part G.live G v)
    (hp : p = [slash] ∨ p = slash :: dot ∨ p = slash :: dotDot) (hne : names p ≠ []) :
    ∃ name e, PathTo part v p [] name 0 ∧ v.lookup part 0 name = some e ∧
      e.fType = FileType.directory.code ∧ e.iNo = 0 := by
  have hdir := hi.dirs 0 hi.tree.root hi.tree.kind_root
  have key : ∀ {x : List Byte} {i : ℕ}, names p = [x] → PlainName x → (x = dot ∨ x = dotDot) →
      i < 21 → strEq (v.cell 0 0 i).filename x = true → ∃ name e, PathTo part v p [] name 0 ∧
        v.lookup part 0 name = some e ∧ e.fType = FileType.directory.code ∧ e.iNo = 0 := by
    intro x i hx hplain hdots hi' hcell
    cases hl : v.lookup part 0 x with
    | none => exact absurd hl (hdir.lookup_ne_none hi' hplain.length_lt hcell)
    | some e =>
      refine ⟨x, e, ⟨hx, hplain, rfl⟩, hl, ?_⟩
      rcases hdir.lookup hplain hl with ⟨-, hno, ht⟩ | ⟨-, hno, ht⟩ | ⟨h1, h2, -⟩
      · exact ⟨ht, hno⟩
      · rw [hi.tree.home_root] at hno
        exact ⟨ht, hno⟩
      · exact absurd hdots (by simp [h1, h2])
  rcases hp with rfl | rfl | rfl
  · exact absurd (by decide) hne
  · exact key (by decide) plainName_dot (.inl rfl) (by decide) hdir.dot.name
  · exact key (by decide) plainName_dotDot (.inr rfl) (by decide) hdir.dotDot.name

/-- A path with a component that is no directory, or not there, leads to no directory. -/
theorem View.resolve_stuck (hd : v.resolve part done 0 = some d)
    (hl : ∀ e, v.lookup part d name = some e → e.fType ≠ FileType.directory.code) :
    v.resolve part (done ++ name :: rest) 0 = none := by
  rw [resolve_append, hd, Option.bind_some, resolve]
  cases h : v.lookup part d name with
  | none => rfl
  | some e => exact if_neg (hl e h)

/-- What a component is that is no directory. -/
def View.Stops (part : Partition) (v : View) (d : ℕ) (name : List Byte) : Prop :=
  ∀ e, v.lookup part d name = some e → e.fType ≠ FileType.directory.code

theorem View.stops_none (h : v.lookup part d name = none) : v.Stops part d name := fun e he => by
  rw [h] at he
  cases he

theorem View.stops_regular {e : DirEntry} (h : v.lookup part d name = some e)
    (ht : e.fType = FileType.regular.code) : v.Stops part d name := fun e' he => by
  obtain rfl := Option.some.inj (h.symm.trans he)
  rw [ht]
  decide

/-- A path stops at one component only. -/
theorem stops_unique {done' rest' : List (List Byte)} {name' : List Byte} {d' : ℕ}
    (hp : done ++ name :: rest = done' ++ name' :: rest')
    (hd : v.resolve part done 0 = some d) (hs : v.Stops part d name)
    (hd' : v.resolve part done' 0 = some d') (hs' : v.Stops part d' name') :
    d = d' ∧ name = name' ∧ rest = rest' := by
  rcases List.append_eq_append_iff.1 hp with ⟨a, rfl, ha⟩ | ⟨a, rfl, ha⟩
  · cases a with
    | nil =>
      rw [List.append_nil] at hd'
      obtain ⟨rfl, rfl⟩ := List.cons.inj ha
      exact ⟨Option.some.inj (hd.symm.trans hd'), rfl, rfl⟩
    | cons x a =>
      obtain ⟨rfl, -⟩ := List.cons.inj ha
      rw [View.resolve_stuck hd hs] at hd'
      cases hd'
  · cases a with
    | nil =>
      rw [List.append_nil] at hd
      obtain ⟨rfl, rfl⟩ := List.cons.inj ha
      exact ⟨Option.some.inj (hd.symm.trans hd'), rfl, rfl⟩
    | cons x a =>
      obtain ⟨rfl, -⟩ := List.cons.inj ha
      rw [View.resolve_stuck hd' hs'] at hd
      cases hd

/-- The depth of a path is the number of its components, if there are any. -/
theorem pathDepthCnt_wp {Q : ℕ → FsState → Prop} (p : List Byte)
    (hE : ∀ n ∈ names p, maxFileNameLen < n.length → E .wild)
    (hQ : ∀ k junk, (∀ n ∈ names p, n.length ≤ maxFileNameLen) →
      (names p ≠ [] → k = (names p).length) → Q k { s with junk := junk }) :
    wp (pathDepthCnt p) Q E s := by
  have hlong : ((names p).all fun n => decide (n.length ≤ maxFileNameLen)) = false → E .wild := by
    intro h
    obtain ⟨n, hn, hlen⟩ := List.all_eq_false.1 h
    exact hE n hn (Nat.not_le.1 (by simpa using hlen))
  have hfits : ((names p).all fun n => decide (n.length ≤ maxFileNameLen)) = true →
      ∀ n ∈ names p, n.length ≤ maxFileNameLen := fun h n hn =>
    of_decide_eq_true (List.all_eq_true.1 h n hn)
  by_cases hp : names p = []
  · simp only [pathDepthCnt, wp_bind, wp_check, List.isEmpty_iff, if_pos hp, wp_pure, wp_uninit]
    exact ⟨fun h => hQ _ _ (hfits h) fun h => absurd hp h, hlong⟩
  · simp only [pathDepthCnt, wp_bind, wp_check, List.isEmpty_iff, if_neg hp, wp_pure]
    exact ⟨fun h => hQ _ s.junk (hfits h) fun _ => rfl, hlong⟩

theorem Session.junk {held : List ℕ} (hs : Session part G s0 held s) (junk : ℕ → Word) :
    Session part G s0 held { s with junk := junk } :=
  hs.congr rfl rfl rfl rfl ⟨0, fun _ => rfl⟩

theorem HoldsDir.junk {dir : Dir} (hs : HoldsDir part G s0 [] s dir d) (junk : ℕ → Word) :
    HoldsDir part G s0 [] { s with junk := junk } dir d :=
  { hs.toSession.junk junk with obj := ⟨hs.obj.mem, hs.obj.live, hs.obj.no⟩, dir := hs.dir }

theorem names_searched (hp : names p = done ++ name :: rest) :
    names (joinPath (done ++ [name])) = done ++ [name] := by
  refine names_joinPath fun n hn => isName_of_mem_names (p := p) ?_
  rw [hp]
  rcases List.mem_append.1 hn with hn | hn
  · exact List.mem_append_left _ hn
  · obtain rfl := List.mem_singleton.1 hn
    exact List.mem_append_right _ List.mem_cons_self

/-- The components of the path that was searched are components of the path. -/
theorem Searched.names_mem {nomem : Prop} {n : Word} {r : PathSearchRecord}
    (h : Searched part v nomem p n r d) : ∀ x ∈ names r.searchedPath, x ∈ names p := by
  intro x hx
  have key : ∀ {done rest : List (List Byte)} {name : List Byte}, names p = done ++ name :: rest →
      x ∈ names (joinPath (done ++ [name])) → x ∈ names p := by
    intro done rest name hp hx
    rw [names_searched hp, List.mem_append, List.mem_singleton] at hx
    rw [hp]
    rcases hx with hx | rfl
    · exact List.mem_append_left _ hx
    · exact List.mem_append_right _ List.mem_cons_self
  cases h with
  | root | empty => exact absurd hx List.not_mem_nil
  | absent done rest name dir d hp => exact key hp hx
  | regular done rest name dir d e hp => exact key hp hx
  | directory done name h d e hp => exact key hp hx

/-- With memory, the lookup has looked up every component that it comes to. -/
theorem Searched.short {nomem : Prop} {n : Word} {r : PathSearchRecord} {x : List Byte}
    (h : Searched part v nomem p n r d) (hmem : ¬ nomem)
    (hshort : ∀ n ∈ names r.searchedPath, n.length < maxFileNameLen) (hx : v.ComesTo part p x) :
    x.length < maxFileNameLen := by
  have key : ∀ {done rest : List (List Byte)} {name : List Byte} {d : ℕ},
      names p = done ++ name :: rest → v.resolve part done 0 = some d →
      (rest = [] ∨ ∀ e, v.lookup part d name = some e → e.fType ≠ FileType.directory.code) →
      x ∈ names (joinPath (done ++ [name])) := by
    intro done rest name d hp hd hstop
    rw [names_searched hp, List.mem_append, List.mem_singleton]
    obtain ⟨done', rest', d', hp', hd'⟩ := hx
    rcases List.append_eq_append_iff.1 (hp'.symm.trans hp) with ⟨l, rfl, hl⟩ | ⟨l, rfl, hl⟩
    · cases l with
      | nil => exact .inr (List.cons.inj hl).1
      | cons y l =>
        rw [(List.cons.inj hl).1]
        exact .inl (List.mem_append_right _ List.mem_cons_self)
    · cases l with
      | nil => exact .inr (List.cons.inj hl).1.symm
      | cons y l =>
        -- the lookup stopped before
        obtain ⟨rfl, hrest⟩ := List.cons.inj hl
        refine absurd hd' ?_
        rw [View.resolve_stuck hd (hstop.resolve_left (by simp [hrest]))]
        simp
  cases h with
  | root _ hp =>
    have hmem := hx.mem
    rcases hp with rfl | rfl | rfl
    · rw [show names [slash] = [] by decide] at hmem
      exact absurd hmem List.not_mem_nil
    · rw [show names (slash :: dot) = [dot] by decide, List.mem_singleton] at hmem
      exact hmem ▸ by decide
    · rw [show names (slash :: dotDot) = [dotDot] by decide, List.mem_singleton] at hmem
      exact hmem ▸ by decide
  | empty _ hp => exact absurd hx.mem (by simp [hp])
  | absent done rest name dir d hp _ hd hl =>
    exact hshort x (key hp hd (.inr fun e he => by simp [hl.resolve_right hmem] at he))
  | regular done rest name dir d e hp _ hd hl ht =>
    refine hshort x (key hp hd (.inr fun e' he => ?_))
    rw [← Option.some.inj (hl.symm.trans he), ht]
    decide
  | directory done name _ d e hp _ hd => exact hshort x (key hp hd (.inl rfl))

theorem exists_of_headD (h : p.headD 0 = slash) : ∃ t, p = slash :: t := by
  cases p with
  | nil => exact absurd h (by decide)
  | cons c t => exact ⟨t, congrArg (· :: t) h⟩

/-! ### Exits -/

/-- An exit at which a call has only to close the directory of the lookup. -/
theorem Session.fail {α : Type} {a : α} {dir : Dir}
    {Q : α → FsState → Prop} (hs : Session part G s0 (dir.held ++ []) s)
    (hQ : ∀ s', Session part G s0 [] s' → Q a s') :
    wp (dirClose dir >>= fun _ => pure a) Q E s := by
  rw [wp_bind]
  exact (dirClose_wp hs).mono (fun _ s' hs' => hQ s' hs') fun _ h => h

theorem iNo_ne_neg_one (hs : Sound part G s) {m : ℕ} (hm : m ∈ G.live) :
    BitVec.ofNat 32 m ≠ -1 := by
  intro he
  have := congrArg BitVec.toNat he
  rw [hs.toNat hm] at this
  have h1 := hs.lt hm
  rw [show BitVec.toNat (-1 : Word) = 2 ^ 32 - 1 from rfl] at this
  omega

/-! ### `sys_open` -/

/-- What can stop a call of `sys_open` before it has found its target. -/
structure OpenFaults (part : Partition) (G : Tree) (s : FsState) (p : List Byte) (flags : Word)
    (E : Fault → Prop) : Prop where
  empty : p = [] → E .wild
  flags : p.getLastD 0 ≠ slash → 7 < flags.toNat → E (.panic .sysOpen)
  search : p.getLastD 0 ≠ slash → SearchFaults part G s p E

theorem OpenFaults.trivial (p : List Byte) (flags : Word) :
    OpenFaults part G s p flags fun _ => True :=
  ⟨fun _ => ⟨⟩, fun _ _ => ⟨⟩, fun _ => .trivial p⟩

section

variable {e : DirEntry} {flags : Word} (h : CanOpen part v p flags)

include h

/-- A path to a directory names no file, and no new one. -/
theorem CanOpen.not_directory (hpath : PathTo part v p done name d)
    (hl : v.lookup part d name = some e) : e.fType ≠ FileType.directory.code := by
  intro ht
  obtain ⟨-, done', name', d', hpath', hlook⟩ := h
  obtain ⟨rfl, rfl, rfl⟩ := hpath.eq hpath'
  split at hlook
  · rw [hl] at hlook
    cases hlook
  · obtain ⟨e', hl', ht'⟩ := hlook
    obtain rfl := Option.some.inj (hl.symm.trans hl')
    rw [ht] at ht'
    cases ht'

/-- A component that is not there is the last one, of a file to be created. -/
theorem CanOpen.creates (hp : names p = done ++ name :: rest) (hn : PlainName name)
    (hd : v.resolve part done 0 = some d) (hl : v.lookup part d name = none) :
    rest = [] ∧ hasCreat flags = true := by
  obtain ⟨-, done', name', d', hpath, hlook⟩ := h
  by_cases hrest : rest = []
  · subst hrest
    obtain ⟨rfl, rfl, rfl⟩ := hpath.eq ⟨hp, hn, hd⟩
    split at hlook
    · rename_i hc
      exact ⟨rfl, hc⟩
    · obtain ⟨e, hl', -⟩ := hlook
      rw [hl] at hl'
      cases hl'
  · obtain ⟨e, hl', -⟩ := hpath.inner hp hrest hd
    rw [hl] at hl'
    cases hl'

/-- A component that is a file is the last one, and not to be created. -/
theorem CanOpen.opens (hp : names p = done ++ name :: rest) (hn : PlainName name)
    (hd : v.resolve part done 0 = some d) (hl : v.lookup part d name = some e)
    (ht : e.fType = FileType.regular.code) : rest = [] ∧ hasCreat flags = false := by
  obtain ⟨-, done', name', d', hpath, hlook⟩ := h
  by_cases hrest : rest = []
  · subst hrest
    obtain ⟨rfl, rfl, rfl⟩ := hpath.eq ⟨hp, hn, hd⟩
    split at hlook
    · rw [hl] at hlook
      cases hlook
    · rename_i hc
      exact ⟨rfl, Bool.eq_false_iff.2 hc⟩
  · obtain ⟨e', hl', ht'⟩ := hpath.inner hp hrest hd
    obtain rfl := Option.some.inj (hl.symm.trans hl')
    rw [ht] at ht'
    cases ht'

end

/-- `sys_open` behind the lookup, for a path that did not lead to a directory. It fails if the
lookup stopped early, or if the file is there and should not be, or the other way. -/
theorem openFound_wp {flags n : Word} {depth : ℕ} {r : PathSearchRecord} {Q : Int → FsState → Prop}
    (hp : names p = done ++ name :: rest) (hdepth : depth = (names p).length)
    (hr : r.searchedPath = joinPath (done ++ [name])) (hfile : r.fileType ≠ .directory)
    (hlong : ∀ x ∈ names r.searchedPath, maxFileNameLen < x.length → E .wild)
    (hs : HoldsDir part G s0 [] s r.parentDir d)
    (hfail : ∀ s', Session part G s0 [] s' → rest ≠ [] ∨ (n = -1 ∧ hasCreat flags = false) ∨
      (n ≠ -1 ∧ hasCreat flags = true) → Q (-1) s')
    (hcreate : ∀ s', rest = [] → n = -1 → hasCreat flags = true →
      HoldsDir part G s0 [] s' r.parentDir d →
        wp (fileCreate part r.parentDir (baseName p) flags >>=
        fun fd => dirClose r.parentDir >>= fun _ => pure fd) Q E s')
    (hopen : ∀ s', rest = [] → n ≠ -1 → hasCreat flags = false →
      HoldsDir part G s0 [] s' r.parentDir d → wp (fileOpen part n flags) Q E s') :
    wp (openFound part p flags depth n r) Q E s := by
  have hnames := names_searched hp
  rw [openFound, if_neg hfile, wp_bind]
  refine pathDepthCnt_wp _ hlong fun sdepth junk _ hsdepth => ?_
  replace hs := hs.junk junk
  rw [hsdepth (by rw [hr, hnames]; simp), hr, hnames, hdepth, hp]
  split
  · rename_i hwhy
    exact hs.toSession.fail fun s' hs' =>
      hfail s' hs' (hwhy.imp_left fun hne he => hne (by rw [he]))
  · rename_i hgo
    obtain ⟨hlen, hgo⟩ := not_or.1 hgo
    obtain ⟨hgo1, hgo2⟩ := not_or.1 hgo
    have hrest : rest = [] := by
      rw [not_ne_iff, List.length_append, List.length_append] at hlen
      exact List.length_eq_zero_iff.1 (by simpa using hlen)
    split
    · rename_i hc
      exact hcreate _ hrest (by_contra fun hn => hgo2 ⟨hn, hc⟩) hc hs
    · rename_i hc
      have hc := Bool.eq_false_iff.2 hc
      exact hopen _ hrest (fun hn => hgo1 ⟨hn, hc⟩) hc hs

/-- **`sys_open`**: it creates a file, opens one, or fails. It fails only if what it asks for is not
there, or for want of memory. -/
theorem sysOpen_cases {p : CString} {flags : Word} {Q : Int → FsState → Prop}
    (hs : Sound part G s) (hr : CountsOk s) (hE : OpenFaults part G s p.1 flags E)
    (hfail : ∀ s', Session part G s [] s' →
      (¬ NoMemory s → ¬ CanOpen part (s.view part) p.1 flags) → Q (-1) s')
    (hcreate : ∀ done name d dir s', hasCreat flags = true → p.1.getLastD 0 ≠ slash →
      PathTo part (s.view part) p.1 done name d →
      (s.view part).lookup part d name = none ∨ NoMemory s →
      (dir.isRoot = true ↔ done = []) → HoldsDir part G s [] s' dir d →
      wp (fileCreate part dir name flags >>= fun fd => dirClose dir >>= fun _ => pure fd) Q E s')
    (hopen : ∀ done name d e dir s', hasCreat flags = false → p.1.getLastD 0 ≠ slash →
      PathTo part (s.view part) p.1 done name d → (s.view part).lookup part d name = some e →
      e.fType = FileType.regular.code → (dir.isRoot = true ↔ done = []) →
      HoldsDir part G s [] s' dir d → wp (fileOpen part e.iNo flags) Q E s') :
    wp (sysOpen part p flags) Q E s := by
  have hinv := hs.inv
  rw [sysOpen, wp_bind, wp_check]
  refine ⟨fun _ => ?_, fun he => hE.empty (by simpa using he)⟩
  split
  · rename_i hslash
    exact hfail s (.refl hs hr) fun _ hc => hc.1 hslash
  rename_i hslash
  have hlong := (hE.search hslash).parse
  rw [wp_bind, wp_ASSERT]
  refine ⟨fun _ => ?_, fun hf => hE.flags hslash (Nat.not_le.1 (of_decide_eq_false hf))⟩
  rw [wp_bind]
  refine pathDepthCnt_wp p.1 hlong fun depth junk _ hdepth => ?_
  refine searchFile_bind (hE.search hslash) ((Session.refl hs hr).junk junk)
    fun n r d s2 hslash0 hf hs2 => ?_
  have hlong' : ∀ x ∈ names r.searchedPath, maxFileNameLen < x.length → E .wild := fun x hx =>
    hlong x (hf.names_mem x hx)
  dsimp only
  cases hf with
  | root h hp _ =>
    rw [openFound, if_pos rfl]
    refine hs2.toSession.fail fun s' hs' => hfail s' hs' fun _ hcan => ?_
    obtain ⟨-, done, name, d, hpath, -⟩ := id hcan
    obtain ⟨name', e, hpath', hl, ht, -⟩ := root_spelling hinv hp (by rw [hpath.names]; simp)
    exact hcan.not_directory hpath' hl ht
  | empty h hp =>
    rw [openFound, if_pos rfl]
    refine hs2.toSession.fail fun s' hs' => hfail s' hs' fun _ => ?_
    rintro ⟨-, done, name, d, hpath, -⟩
    have := hpath.names
    rw [hp] at this
    exact absurd this (by simp)
  | directory done name h d e hp hn hd hl ht hno =>
    rw [openFound, if_pos rfl]
    exact hs2.toSession.fail fun s' hs' => hfail s' hs' fun _ hcan =>
      hcan.not_directory ⟨hp, hn, hd⟩ hl ht
  | absent done rest name dir d hp hn hd hl hno hroot =>
    refine openFound_wp hp (hdepth (by rw [hp]; simp)) rfl (by simp) hlong' hs2 ?_ ?_ ?_
    · intro s' hs' hwhy
      refine hfail s' hs' fun hmem hcan => ?_
      obtain ⟨hrest, hc⟩ := hcan.creates hp hn hd (hl.resolve_right hmem)
      rcases hwhy with h | ⟨-, h⟩ | ⟨h, -⟩
      · exact h hrest
      · exact Bool.eq_false_iff.1 h hc
      · exact h hno
    · rintro s' rfl - hc hs'
      obtain ⟨done', name', hp', hbase⟩ := baseName_eq (exists_of_headD hslash0) hslash
      obtain ⟨-, hname⟩ := List.append_inj' (hp'.symm.trans hp) rfl
      rw [hbase, List.singleton_inj.1 hname]
      exact hcreate done name d dir s' hc hslash ⟨hp, hn, hd⟩ hl hroot hs'
    · intro s' _ hne
      exact absurd hno hne
  | regular done rest name dir d e hp hn hd hl ht hno hroot =>
    subst hno
    obtain ⟨m, hm, hno, -⟩ := hs2.found hn hl ht
    have hne : e.iNo ≠ -1 := hno ▸ iNo_ne_neg_one hs hm
    refine openFound_wp hp (hdepth (by rw [hp]; simp)) rfl (by simp) hlong' hs2 ?_ ?_ ?_
    · intro s' hs' hwhy
      refine hfail s' hs' fun _ hcan => ?_
      obtain ⟨hrest, hc⟩ := hcan.opens hp hn hd hl ht
      rcases hwhy with h | ⟨h, -⟩ | ⟨-, h⟩
      · exact h hrest
      · exact hne h
      · exact Bool.eq_false_iff.1 hc h
    · intro s' _ hno
      exact absurd hno hne
    · rintro s' rfl - hc hs'
      exact hopen done name d e dir s' hc hslash ⟨hp, hn, hd⟩ hl ht hroot hs'

/-! ### `sys_unlink` -/

/-- **`sys_unlink`** of a path with a component: it goes on to the first file on the path, or fails.
On a path to the root it stops. -/
theorem sysUnlink_cases {p : CString} {Q : Int → FsState → Prop}
    (hs : Sound part G s) (hr : CountsOk s) (hp : names p.1 ≠ [])
    (hE : SearchFaults part G s p.1 E)
    (hlen : maxPathLen ≤ p.1.length → E (.panic .sysUnlink))
    (hroot : (s.view part).resolve part (names p.1) 0 = some 0 → E (.panic .sysUnlink))
    (hfail : ∀ s', Session part G s [] s' → (¬ NoMemory s →
      (s.view part).resolve part (names p.1) 0 ≠ some 0 ∧
        ∀ done name rest d e, names p.1 = done ++ name :: rest →
          (s.view part).resolve part done 0 = some d → (s.view part).lookup part d name = some e →
          e.fType ≠ FileType.regular.code) → Q (-1) s')
    (hfile : ∀ done name rest d e m dir s', names p.1 = done ++ name :: rest →
      PlainName name → (s.view part).resolve part done 0 = some d →
      (s.view part).lookup part d name = some e → e.iNo = BitVec.ofNat 32 m → m ∈ G.live →
      G.kind m = .regular → HoldsDir part G s [] s' dir d →
      (inUse s' (BitVec.ofNat 32 m) = true → ∀ s'', Session part G s [] s'' → Q (-1) s'') ∧
      (inUse s' (BitVec.ofNat 32 m) = false → ∀ path,
        wp (unlinkFile part (BitVec.ofNat 32 m) ⟨path, dir, .regular⟩) Q E s')) :
    wp (sysUnlink part p) Q E s := by
  have hinv := hs.inv
  rw [sysUnlink, wp_bind, wp_ASSERT]
  refine ⟨fun _ => ?_, fun hl => hlen (Nat.not_lt.1 (of_decide_eq_false hl))⟩
  refine searchFile_bind hE (.refl hs hr) fun n r d s2 _ hf hs2 => ?_
  dsimp only
  rw [wp_bind, wp_ASSERT]
  cases hf with
  | root h hp' hno =>
    subst hno
    refine ⟨fun hn => absurd hn (by decide), fun _ => hroot ?_⟩
    obtain ⟨name, e, hpath, hl, ht, hno⟩ := root_spelling hinv hp' hp
    rw [hpath.names, View.resolve_snoc hpath.resolve hl ht, hno]
    rfl
  | empty h he => exact absurd he hp
  | absent done rest name dir d hp' hplain hd hl hno =>
    subst hno
    refine ⟨fun _ => ?_, fun hn => absurd hn (by decide)⟩
    rw [wp_bind, wp_get, if_pos (.inl rfl)]
    refine hs2.toSession.fail fun s' hs' => hfail s' hs' fun hmem => ⟨?_, ?_⟩
    · rw [hp', View.resolve_stuck hd (View.stops_none (hl.resolve_right hmem))]
      simp
    · intro done' name' rest' d' e' hp'' hd' hl' ht'
      obtain ⟨rfl, rfl, -⟩ := stops_unique (hp'.symm.trans hp'') hd
        (View.stops_none (hl.resolve_right hmem)) hd' (View.stops_regular hl' ht')
      rw [hl.resolve_right hmem] at hl'
      cases hl'
  | regular done rest name dir d e hp' hplain hd hl ht hne =>
    obtain ⟨m, hm, hno, hkind⟩ := hs2.found hplain hl ht
    obtain rfl : n = BitVec.ofNat 32 m := hne.trans hno
    obtain ⟨hbusy, hgone⟩ := hfile done name rest d e m dir s2 hp' hplain hd hl hno hm hkind hs2
    refine ⟨fun _ => ?_, fun hn => ?_⟩
    · rw [wp_bind, wp_get]
      by_cases hu : inUse s2 (BitVec.ofNat 32 m) = true
      · rw [if_pos (.inr (.inr hu))]
        exact hs2.toSession.fail fun s' hs' => hbusy hu s' hs'
      · have hgo : ¬ (BitVec.ofNat 32 m = -1 ∨ FileType.regular = .directory ∨
            inUse s2 (BitVec.ofNat 32 m) = true) := by
          rintro (h | h | h)
          · exact iNo_ne_neg_one hs hm h
          · cases h
          · exact hu h
        rw [if_neg hgo]
        exact hgone (Bool.eq_false_iff.2 hu) _
    · -- the root is a directory
      have h0 : m = 0 := hs.inj hm hinv.tree.root (by simpa using hn)
      rw [h0, hinv.tree.kind_root] at hkind
      cases hkind
  | directory done name h d e hp' hplain hd hl ht hne =>
    obtain ⟨m, hm, hno, -⟩ := hs2.found hplain hl ht
    obtain rfl : n = BitVec.ofNat 32 m := hne.trans hno
    have hres := View.resolve_snoc hd hl ht
    rw [← hp', hno, hs.toNat hm] at hres
    refine ⟨fun hn => ?_, fun hn => hroot ?_⟩
    · rw [wp_bind, wp_get, if_pos (.inr (.inl rfl))]
      refine hs2.toSession.fail fun s' hs' => hfail s' hs' fun _ => ⟨?_, ?_⟩
      · rw [hres]
        intro h0
        obtain rfl := Option.some.inj h0
        exact absurd hn (by decide)
      · intro done' name' rest' d' e' hp'' hd' hl' ht'
        rw [hp'', View.resolve_stuck hd' (View.stops_regular hl' ht')] at hres
        cases hres
    · rw [hres, hs.inj hm hinv.tree.root (by simpa using hn)]

/-! ### `sys_stat` -/

/-- What `sys_stat` reports of inode `m`. -/
def statOf (G : Tree) (v : View) (m : ℕ) : Stat :=
  ⟨BitVec.ofNat 32 m, (v.node m).iSize, G.kind m⟩

theorem Sound.iSize_object (hs : Sound part G s) {h : ℕ} (ho : ObjectOf G s h n) :
    (s.inode h).iSize = ((s.view part).node n).iSize := by
  rw [node_cached hs.cache ho.mem ho.no (hs.lt ho.live)]
  rfl

/-- `sys_stat` for a number that was found. -/
theorem statFound_wp {held : List ℕ} {m : ℕ} {r : PathSearchRecord}
    {Q : Option Stat → FsState → Prop} (hE : NoMemory s0 → E .wild)
    (hs : Session part G s0 held s) (hlen : held.length < 8) (hm : m ∈ G.live)
    (ht : r.fileType = G.kind m)
    (hQ : ∀ s', Session part G s0 held s' → Q (some (statOf G (s0.view part) m)) s') :
    wp (statFound part (BitVec.ofNat 32 m) r) Q E s := by
  rw [statFound, if_pos (iNo_ne_neg_one hs.sound hm), wp_bind]
  refine (inodeOpen_session hE hs hlen hm).mono ?_ fun _ h => h
  rintro h s1 ⟨hs1, ho, -⟩
  rw [wp_bind, wp_get, wp_bind]
  refine (inodeClose_session hs1).mono (fun _ s2 hs2 => ?_) fun _ h => h
  have := hQ s2 hs2
  rwa [statOf, ← hs1.view, ← hs1.sound.iSize_object ho, ← ht] at this

/-- **`sys_stat`** of a path with a component: it reports the first file on the path, the directory
that the path leads to, or nothing. -/
theorem sysStat_cases {p : CString} {Q : Option Stat → FsState → Prop}
    (hs : Sound part G s) (hr : CountsOk s) (hp : names p.1 ≠ [])
    (hE : SearchFaults part G s p.1 E)
    (hnone : ∀ done name rest d s', names p.1 = done ++ name :: rest →
      (s.view part).resolve part done 0 = some d →
      (s.view part).lookup part d name = none ∨ NoMemory s → Session part G s [] s' → Q none s')
    (hfile : ∀ done name rest d e m s', names p.1 = done ++ name :: rest →
      (s.view part).resolve part done 0 = some d → (s.view part).lookup part d name = some e →
      e.iNo = BitVec.ofNat 32 m → m ∈ G.live → G.kind m = .regular → Session part G s [] s' →
      Q (some (statOf G (s.view part) m)) s')
    (hdir : ∀ m s', (s.view part).resolve part (names p.1) 0 = some m → m ∈ G.live →
      G.kind m = .directory → Session part G s [] s' → Q (some (statOf G (s.view part) m)) s') :
    wp (sysStat part p) Q E s := by
  have hinv := hs.inv
  rw [sysStat, wp_bind, wp_get]
  split
  · rename_i hp'
    obtain ⟨name, e, hpath, hl, ht, hno⟩ := root_spelling hinv hp' hp
    have hres := View.resolve_snoc hpath.resolve hl ht
    rw [← hpath.names, hno] at hres
    have := hdir 0 s hres hinv.tree.root hinv.tree.kind_root (.refl hs hr)
    rwa [statOf, ← hs.iSize_object hs.root, hinv.tree.kind_root] at this
  refine searchFile_bind hE (.refl hs hr) fun n r d s2 _ hf hs2 => ?_
  dsimp only
  rw [wp_bind]
  have hlen := held_lt r.parentDir
  cases hf with
  | root h hp' hno => exact absurd hp' (by assumption)
  | empty h he => exact absurd he hp
  | absent done rest name dir d hp' hplain hd hl hno =>
    rw [statFound, if_neg (by simp [hno])]
    exact hs2.toSession.fail fun s' hs' => hnone done name rest d s' hp' hd hl hs'
  | regular done rest name dir d e hp' hplain hd hl ht hne =>
    obtain ⟨m, hm, hno, hkind⟩ := hs2.found hplain hl ht
    obtain rfl : n = BitVec.ofNat 32 m := hne.trans hno
    refine statFound_wp hE.memory hs2.toSession hlen hm hkind.symm fun s3 hs3 => ?_
    exact hs3.fail fun s' hs' => hfile done name rest d e m s' hp' hd hl hno hm hkind hs'
  | directory done name h d e hp' hplain hd hl ht hne =>
    obtain ⟨m, hm, hno, hkind⟩ := hs2.found hplain hl ht
    obtain rfl : n = BitVec.ofNat 32 m := hne.trans hno
    have hres := View.resolve_snoc hd hl ht
    rw [← hp', hno, hs.toNat hm] at hres
    refine statFound_wp hE.memory hs2.toSession hlen hm hkind.symm fun s3 hs3 => ?_
    exact hs3.fail fun s' hs' => hdir m s' hres hm hkind hs'

/-! ### `file_open` -/

/-- Entry `f` of `file_table` refers to the object at `h`, and a writer has claimed it. -/
def claimed (s : FsState) (f h : ℕ) (flag : Word) : FsState :=
  (s.updFile f fun _ => ⟨0, flag, some h⟩).updInode h fun i =>
    { i with writeDeny := i.writeDeny || mayWrite flag }

/-- `file_open` found the free entry `f` and opened file `m` as `h`, with the directory of the
lookup still open. -/
structure Opening (part : Partition) (G : Tree) (s0 : FsState) (dir : Dir) (m f h : ℕ)
    (s : FsState) : Prop extends Session part G s0 (h :: (dir.held ++ [])) s where
  lower : 3 ≤ f
  upper : f < maxFileOpen
  free : (s0.fileTable f).fdInode = none
  obj : ObjectOf G s h m
  deny : (s.inode h).writeDeny = (yields part s0 m).writeDeny

theorem updInode_id (s : FsState) (h : ℕ) : (s.updInode h fun i => i) = s := by
  simp only [updInode, ite_self]

/-- A lookup does not touch the flag of a file. -/
theorem HoldsDir.deny_eq {dir : Dir} {m : ℕ} (hs : HoldsDir part G s0 [] s dir d)
    (hm : m ∈ G.live) (hk : G.kind m = .regular) :
    (yields part s m).writeDeny = (yields part s0 m).writeDeny := by
  have hcache := hs.sound.cache
  cases hf : s0.openInodes.find? fun h => (s0.inode h).iNo == BitVec.ofNat 32 m with
  | some h =>
    have hh := List.mem_of_find?_eq_some hf
    have hno : (s0.inode h).iNo = BitVec.ofNat 32 m := by simpa using List.find?_some hf
    obtain ⟨hno', hdeny⟩ := hs.balance.fixed h (hs.balance.old h hh)
    rw [yields_cached hcache (hs.balance.stay h hh (hs.start h hh)) (hno'.trans hno), hdeny, yields,
      hf]
  | none =>
    have hun : Uncached s m := by
      intro h hh hno
      by_cases hh0 : h ∈ s0.openInodes
      · rw [(hs.balance.fixed h (hs.balance.old h hh0)).1] at hno
        simpa [hno] using List.find?_eq_none.1 hf h hh0
      · -- the only object that is new is the directory
        have hheld := (hs.balance.new h hh hh0).1
        rw [List.append_nil, Dir.held] at hheld
        split at hheld
        · exact absurd hheld List.not_mem_nil
        · obtain rfl := List.mem_singleton.1 hheld
          rw [hs.obj.no] at hno
          rw [← hs.sound.inj hs.obj.live hm hno, hs.dir] at hk
          cases hk
    rw [yields_uncached hun, yields, hf, disk_of_tables hs.same]

theorem FreeSlot.congr {s' : FsState} (h : FreeSlot s) (ht : s'.fileTable = s.fileTable) :
    FreeSlot s' := by rwa [FreeSlot, ht]

theorem FreeFd.congr {s' : FsState} (h : FreeFd s) (ht : s'.fdTable = s.fdTable)
    (hc : s'.cur = s.cur) : FreeFd s' := by rwa [FreeFd, ht, hc]

/-- **`file_open`** of a regular file. -/
theorem fileOpen_cases {dir : Dir} {m : ℕ} {flag : Word} {Q : Int → FsState → Prop}
    (hs : HoldsDir part G s0 [] s dir d) (hm : m ∈ G.live) (hk : G.kind m = .regular)
    (hslot : ¬ FreeSlot s0 → Q (-1) s)
    (hdeny : ∀ f h s', Opening part G s0 dir m f h s' → mayWrite flag = true →
      (yields part s0 m).writeDeny = true → Q (-1) (s'.updFile f fun _ => ⟨0, flag, some h⟩))
    (hfull : ∀ f h s', Opening part G s0 dir m f h s' →
      (mayWrite flag = true → (yields part s0 m).writeDeny = false) → ¬ FreeFd s0 →
      Q (-1) (claimed s' f h flag))
    (hfd : ∀ f h s', Opening part G s0 dir m f h s' →
      (mayWrite flag = true → (yields part s0 m).writeDeny = false) → ∀ fd : ℕ, 3 ≤ fd →
      fd < maxFilesOpenPerProc → s0.fdTable s0.cur fd = -1 →
      Q fd ((claimed s' f h flag).setFd fd f)) :
    post (fileOpen part (BitVec.ofNat 32 m) flag) Q s := by
  rw [fileOpen, post, wp_bind]
  refine getFreeSlotInGlobal_cases (fun hn => hslot fun hf => hn ?_) fun f h3 h32 hf => ?_
  · exact hf.congr (fileTable_of_tables hs.same)
  rw [wp_bind]
  refine (inodeOpen_session (fun _ => trivial) hs.toSession (held_lt dir) hm).mono ?_ fun _ h => h
  rintro h s1 ⟨hs1, hobj, ho⟩
  rw [fileTable_of_tables hs.same] at hf
  have hop : Opening part G s0 dir m f h s1 :=
    ⟨hs1, h3, h32, hf, hobj, ho.deny.trans (hs.deny_eq hm hk)⟩
  -- the descriptor, once nothing stands in the way
  have hinstall : (mayWrite flag = true → (yields part s0 m).writeDeny = false) →
      post (pcbFdInstall f) Q (claimed s1 f h flag) := by
    intro hw
    have ht : s1.fdTable = s0.fdTable := fdTable_of_tables hs1.same
    have hc : s1.cur = s0.cur := cur_of_tables hs1.same
    refine pcbFdInstall_cases (fun hn => hfull f h s1 hop hw fun hfree => hn (hfree.congr ht hc))
      fun fd hfd3 hfd8 hfree => hfd f h s1 hop hw fd hfd3 hfd8 ?_
    rw [← ht, ← hc]
    exact hfree
  rw [wp_bind, wp_modify, claimWrite, wp_bind, wp_get]
  split
  · rename_i hw
    split
    · rename_i hd
      exact hdeny f h s1 hop hw (hop.deny ▸ hd)
    · rename_i hd
      rw [wp_bind, wp_modify]
      have hd' : (yields part s0 m).writeDeny = false := hop.deny ▸ Bool.eq_false_iff.2 hd
      have := hinstall fun _ => hd'
      simpa only [claimed, hw, Bool.or_true] using this
  · rename_i hw
    have := hinstall fun h => absurd h hw
    simp only [claimed, Bool.eq_false_iff.2 hw, Bool.or_false, updInode_id] at this
    exact this

end

end X86Os
