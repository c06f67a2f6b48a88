import HapAndroid.FileBrowser.FileUtil

/-!
# What `copyFile` does

`copyFile` changes the tree only by making directories and writing files below its
target (`copyFile_invariant`).  Two cases have a simple result.  Below a directory
that could not be made nothing is written, and the copy returns when there are only
directories to copy (`Orphan`).  Into a fresh target apart from the source, the copy
returns when nothing stands in its way (`Passable`), and then the target is the
source if every directory could be made (`copyFile_fresh`).
-/

namespace HapAndroid.FileUtil

variable {disk : Disk}

@[simp] theorem childOf_concat (tar src : List Text) (n : Text) :
    childOf tar (src ++ [n]) = tar ++ [n] := by
  simp [childOf]

/-- What can be pasted into a directory has a name: the root would be pasted at the directory
itself. -/
theorem exists_name_of_absent {fs : Files} {currentPath src : List Text}
    (hcur : fs.node currentPath = some .dir) (habs : fs.node (childOf currentPath src) = none) :
    ∃ p n, src = p ++ [n] := by
  cases src using List.reverseRecOn with
  | nil =>
      have hroot : childOf currentPath [] = currentPath := by simp [childOf]
      rw [hroot, hcur] at habs
      cases habs
  | append_singleton p n => exact ⟨p, n, rfl⟩

/-! ## Single requests -/

theorem node_mkdir (disk : Disk) (p : List Text) (fs : Files) (q : List Text) :
    (mkdir disk p fs).node q = fs.node q ∨ q = p ∧ disk.mkdir p = true ∧
      (mkdir disk p fs).node q = some .dir ∧ fs.node p = none := by
  unfold mkdir
  split
  · next hd =>
    cases h : fs.mkdir p with
    | none => exact .inl rfl
    | some fs' =>
        rw [Option.getD_some, fs.node_mkdir h]
        split
        · next hq =>
          refine .inr ⟨hq, hd, rfl, ?_⟩
          rw [FileTree.mkdir] at h
          split at h
          · cases h
          · next he => exact fs.existsAt_eq_false_iff.mp (Bool.eq_false_iff.mpr he)
        · exact .inl rfl
  · exact .inl rfl

theorem node_write (disk : Disk) (p : List Text) (data : List UInt8) (fs : Files) (q : List Text) :
    (write disk p data fs).2.node q = fs.node q ∨
      q = p ∧ fs.node p ≠ some .dir ∧ ∃ d, (write disk p data fs).2.node q = some (.file d) := by
  have hput : ∀ {d fs'}, fs.writeFile p d = some fs' → fs'.node q = fs.node q ∨
      q = p ∧ fs.node p ≠ some .dir ∧ ∃ d, fs'.node q = some (.file d) := by
    intro d fs' h
    rw [fs.node_writeFile h]
    split
    · next hq => exact .inr ⟨hq, fs.not_dir_of_writeFile h, d, rfl⟩
    · exact .inl rfl
  unfold write
  split
  · exact .inl rfl
  · next n _ =>
    cases h : fs.writeFile p (data.take n) with
    | none => exact .inl rfl
    | some fs' => exact hput h
  · cases h : fs.writeFile p data with
    | none => exact .inl rfl
    | some fs' => exact hput h

/-! ## Invariants of a copy -/

theorem each_cons (f : List Text → Files → Bool × Files) (c : List Text) (cs : List (List Text))
    (fs : Files) :
    each f (c :: cs) fs = if (f c fs).1 = true then each f cs (f c fs).2 else f c fs := by
  rw [each]
  split
  · next h => rw [h, if_pos rfl]
  · next h => rw [h, if_neg (by simp)]

theorem each_invariant {I : Files → Prop} {f : List Text → Files → Bool × Files} :
    ∀ {cs : List (List Text)} {fs : Files}, (∀ c ∈ cs, ∀ fs, I fs → I (f c fs).2) → I fs →
      I (each f cs fs).2
  | [], _, _, h => h
  | c :: cs, fs, hf, h => by
      have hc := hf c (List.mem_cons_self ..) fs h
      rw [each_cons]
      split
      · exact each_invariant (fun d hd => hf d (List.mem_cons_of_mem _ hd)) hc
      · exact hc

/-- What the single requests below the target keep, the copy keeps. -/
theorem copyFile_invariant {I : Files → Prop} :
    ∀ (depth : Nat) (src tar : List Text) (fs : Files),
      (∀ p fs, tar <+: p → I fs → I (mkdir disk p fs)) →
      (∀ p data fs, tar <+: p → I fs → I (write disk p data fs).2) → I fs →
        I (copyFile disk depth src tar fs).2
  | 0, _, _, _, _, _, h => h
  | depth + 1, src, tar, fs, hmk, hwr, h => by
      rw [copyFile]
      split
      · next data _ => exact hwr tar data fs (List.prefix_refl _) h
      · exact h
      · split
        · refine each_invariant (fun c _ fs' h' => ?_) (hmk tar fs (List.prefix_refl _) h)
          have hpre : tar <+: childOf tar c := List.prefix_append ..
          exact copyFile_invariant depth c _ fs' (fun p fs hp => hmk p fs (hpre.trans hp))
            (fun p data fs hp => hwr p data fs (hpre.trans hp)) h'
        · exact hmk tar fs (List.prefix_refl _) h
      · exact h

/-- A copy changes nothing outside its target. -/
theorem node_copyFile_of_not_below {depth : Nat} {src tar q : List Text} (hq : ¬ tar <+: q)
    (fs : Files) : (copyFile disk depth src tar fs).2.node q = fs.node q := by
  refine copyFile_invariant (I := fun fs' => fs'.node q = fs.node q) depth src tar fs
    (fun p fs' hp h => ?_) (fun p data fs' hp h => ?_) rfl
  · rcases node_mkdir disk p fs' q with he | ⟨rfl, -⟩
    · rw [he, h]
    · exact absurd hp hq
  · rcases node_write disk p data fs' q with he | ⟨rfl, -⟩
    · rw [he, h]
    · exact absurd hp hq

/-- A copy keeps the directories. -/
theorem copyFile_keeps_dir {depth : Nat} {src tar q : List Text} {fs : Files}
    (hq : fs.node q = some .dir) : (copyFile disk depth src tar fs).2.node q = some .dir := by
  refine copyFile_invariant (I := fun fs' => fs'.node q = some .dir) depth src tar fs
    (fun p fs' _ h => ?_) (fun p data fs' _ h => ?_) hq
  · rcases node_mkdir disk p fs' q with he | ⟨-, -, he, -⟩
    · rw [he, h]
    · exact he
  · rcases node_write disk p data fs' q with he | ⟨rfl, hnd, -⟩
    · rw [he, h]
    · exact absurd h hnd

/-- A copy makes no directory where the disk refuses one. -/
theorem copyFile_refused {depth : Nat} {src tar q : List Text} {fs : Files}
    (hd : disk.mkdir q = false) (hq : fs.node q ≠ some .dir) :
    (copyFile disk depth src tar fs).2.node q ≠ some .dir := by
  refine copyFile_invariant (I := fun fs' => fs'.node q ≠ some .dir) depth src tar fs
    (fun p fs' _ h => ?_) (fun p data fs' _ h => ?_) hq
  · rcases node_mkdir disk p fs' q with he | ⟨rfl, hd', -⟩
    · rwa [he]
    · rw [hd] at hd'
      cases hd'
  · rcases node_write disk p data fs' q with he | ⟨-, -, d, he⟩
    · rwa [he]
    · rw [he]
      simp

/-! ## Below a directory that could not be made -/

theorem mkdir_orphan {p : List Text} {fs : Files} (h : fs.node p.dropLast ≠ some .dir) :
    mkdir disk p fs = fs := by
  rw [mkdir, fs.mkdir_eq_none h]
  split <;> rfl

theorem write_orphan {p : List Text} {fs : Files} (data : List UInt8)
    (h : fs.node p.dropLast ≠ some .dir) : write disk p data fs = (false, fs) := by
  unfold write
  split
  · rfl
  · rw [fs.writeFile_eq_none _ h, Option.getD_none]
  · rw [fs.writeFile_eq_none _ h]

theorem each_const {f : List Text → Files → Bool × Files} {fs : Files} :
    ∀ {cs : List (List Text)}, (∀ c ∈ cs, (f c fs).2 = fs) →
      ((each f cs fs).1 = true ↔ ∀ c ∈ cs, (f c fs).1 = true)
  | [], _ => by simp [each]
  | c :: cs, h => by
      have hc := h c (List.mem_cons_self ..)
      have hcs := each_const fun d hd => h d (List.mem_cons_of_mem _ hd)
      rw [each_cons, List.forall_mem_cons]
      split
      · next hf => rw [hc, hcs, hf, eq_self, true_and]
      · next hf => simp [hf]

/-- There are only directories, which can be listed, and not too deep. -/
def OnlyDirs (disk : Disk) (fs : Files) (depth : Nat) (src : List Text) : Prop :=
  ∀ r x, fs.node (src ++ r) = some x →
    r.length < depth ∧ x = .dir ∧ disk.list (src ++ r) = true

theorem onlyDirs_succ {fs : Files} {depth : Nat} {src : List Text} (h : fs.node src = some .dir) :
    OnlyDirs disk fs (depth + 1) src ↔
      disk.list src = true ∧ ∀ n, fs.node (src ++ [n]) ≠ none → OnlyDirs disk fs depth (src ++ [n]) := by
  constructor
  · intro hall
    have hroot := hall [] .dir (by rwa [List.append_nil])
    refine ⟨by simpa using hroot.2.2, fun n _ r x hx => ?_⟩
    have := hall (n :: r) x (by simpa using hx)
    simpa using this
  · rintro ⟨hlist, hall⟩ r x hx
    cases r with
    | nil =>
        rw [List.append_nil, h, Option.some.injEq] at hx
        exact ⟨Nat.succ_pos _, hx.symm, by simpa using hlist⟩
    | cons n r =>
        have hassoc : src ++ n :: r = src ++ [n] ++ r := by simp
        have hn : fs.node (src ++ [n]) ≠ none := fs.exists_of_append (by rw [← hassoc, hx]; simp)
        have := hall n hn r x (hassoc ▸ hx)
        simpa using this

/-- A copy into a target whose directory is missing changes nothing, -/
theorem copyFile_orphan_files (depth : Nat) (src : List Text) {tar : List Text} {fs : Files}
    (hne : tar ≠ []) (hpar : fs.node tar.dropLast ≠ some .dir) :
    (copyFile disk depth src tar fs).2 = fs := by
  refine copyFile_invariant (I := fun fs' => fs' = fs) depth src tar fs
    (fun p fs' hp h => ?_) (fun p data fs' hp h => ?_) rfl
  · rw [h, mkdir_orphan (fs.not_dir_below hne hpar hp)]
  · rw [h, write_orphan data (fs.not_dir_below hne hpar hp)]

/-- and returns when there is nothing to write. -/
def ReturnsOrphan (disk : Disk) (depth : Nat) : Prop :=
  ∀ {fs : Files} {src tar : List Text}, tar ≠ [] → fs.node tar.dropLast ≠ some .dir →
    fs.node src ≠ none →
      ((copyFile disk depth src tar fs).1 = true ↔ OnlyDirs disk fs depth src)

/-- The loop over the entries when the target is not there. -/
theorem each_orphan {fs : Files} {depth : Nat} {src tar : List Text}
    (hcopy : ReturnsOrphan disk depth) (htar : fs.node tar ≠ some .dir) :
    (each (fun c => copyFile disk depth c (childOf tar c)) (fs.children src) fs).1 = true ↔
      ∀ n, fs.node (src ++ [n]) ≠ none → OnlyDirs disk fs depth (src ++ [n]) := by
  have hbelow : ∀ n, fs.node (tar ++ [n]).dropLast ≠ some .dir := by
    intro n
    rwa [List.dropLast_concat]
  rw [each_const]
  · constructor
    · intro h n hn
      have hc := h _ (fs.mem_children.mpr ⟨n, rfl, hn⟩)
      rw [childOf_concat] at hc
      exact (hcopy (by simp) (hbelow n) hn).mp hc
    · intro h c hc
      obtain ⟨n, rfl, hn⟩ := fs.mem_children.mp hc
      rw [childOf_concat]
      exact (hcopy (by simp) (hbelow n) hn).mpr (h n hn)
  · intro c hc
    obtain ⟨n, rfl, -⟩ := fs.mem_children.mp hc
    rw [childOf_concat]
    exact copyFile_orphan_files depth _ (by simp) (hbelow n)

theorem copyFile_orphan (disk : Disk) : ∀ depth, ReturnsOrphan disk depth
  | 0, fs, src, tar, _, _, hsrc => by
      obtain ⟨x, hx⟩ := Option.ne_none_iff_exists'.mp hsrc
      refine iff_of_false (by simp [copyFile]) fun h => ?_
      exact absurd (h [] x (by rwa [List.append_nil])).1 (Nat.not_lt_zero _)
  | depth + 1, fs, src, tar, hne, hpar, hsrc => by
      have hroot : ∀ {x}, fs.node src = some x → x ≠ .dir →
          ¬ OnlyDirs disk fs (depth + 1) src := fun hx hnd h =>
        hnd (h [] _ (by rwa [List.append_nil])).2.1
      rw [copyFile]
      split
      · next data hx =>
        rw [write_orphan data hpar]
        exact iff_of_false (by simp) (hroot hx (by simp))
      · next hx => exact iff_of_false (by simp) (hroot hx (by simp))
      · next hx =>
        have htar : fs.node tar ≠ some .dir := by
          have := fs.not_dir_below hne hpar (List.prefix_append tar [[]])
          rwa [List.dropLast_concat] at this
        rw [onlyDirs_succ hx, mkdir_orphan hpar]
        split
        · next hlist => rw [each_orphan (copyFile_orphan disk depth) htar, hlist, eq_self, true_and]
        · next hlist => simp [hlist]
      · next hx => exact absurd hx hsrc

/-! ## Into a fresh target apart from the source -/

/-- Nothing stops the copy: every directory can be listed, every file can be opened
and written and the directories above it be made, and nothing is too deep. -/
def Passable (disk : Disk) (fs : Files) (depth : Nat) (src tar : List Text) : Prop :=
  ∀ r x, fs.node (src ++ r) = some x → r.length < depth ∧
    (x = .dir ∧ disk.list (src ++ r) = true ∨
      (∃ data, x = .file data) ∧ disk.write (tar ++ r) = .done ∧
        ∀ k, k <+: r → k ≠ r → disk.mkdir (tar ++ k) = true)

/-- Every directory of the source can be made at the target. -/
def CanMake (disk : Disk) (fs : Files) (src tar : List Text) : Prop :=
  ∀ r, fs.node (src ++ r) = some .dir → disk.mkdir (tar ++ r) = true

theorem passable_made {fs : Files} {depth : Nat} {src tar : List Text} (h : fs.node src = some .dir)
    (hmk : disk.mkdir tar = true) :
    Passable disk fs (depth + 1) src tar ↔ disk.list src = true ∧
      ∀ n, fs.node (src ++ [n]) ≠ none → Passable disk fs depth (src ++ [n]) (tar ++ [n]) := by
  constructor
  · intro hall
    have hroot := hall [] .dir (by rwa [List.append_nil])
    refine ⟨by simpa using hroot.2, fun n _ r x hx => ?_⟩
    obtain ⟨hlen, hx'⟩ := hall (n :: r) x (by simpa using hx)
    refine ⟨Nat.lt_of_succ_lt_succ hlen, hx'.imp (by simp) ?_⟩
    rintro ⟨hfile, hwrite, habove⟩
    refine ⟨hfile, by simpa using hwrite, fun k hk hne => ?_⟩
    simpa using habove (n :: k) (by simpa using hk) (by simpa using hne)
  · rintro ⟨hlist, hall⟩ r x hx
    cases r with
    | nil =>
        rw [List.append_nil, h, Option.some.injEq] at hx
        exact ⟨Nat.succ_pos _, .inl ⟨hx.symm, by simpa using hlist⟩⟩
    | cons n r =>
        have hassoc : src ++ n :: r = src ++ [n] ++ r := by simp
        have hn : fs.node (src ++ [n]) ≠ none := fs.exists_of_append (by rw [← hassoc, hx]; simp)
        obtain ⟨hlen, hx'⟩ := hall n hn r x (hassoc ▸ hx)
        refine ⟨Nat.succ_lt_succ hlen, hx'.imp (by simp) ?_⟩
        rintro ⟨hfile, hwrite, habove⟩
        refine ⟨hfile, by simpa using hwrite, fun k hk hne => ?_⟩
        cases k with
        | nil => rwa [List.append_nil]
        | cons m k =>
            rw [List.cons_prefix_cons] at hk
            obtain ⟨rfl, hk⟩ := hk
            simpa using habove k hk (by simpa using hne)

/-- When the target cannot be made there must be nothing to write. -/
theorem passable_refused {fs : Files} {depth : Nat} {src tar : List Text}
    (h : fs.node src = some .dir) (hmk : disk.mkdir tar = false) :
    Passable disk fs depth src tar ↔ OnlyDirs disk fs depth src := by
  constructor
  · intro hall r x hx
    obtain ⟨hlen, hdir | ⟨⟨data, hfile⟩, -, habove⟩⟩ := hall r x hx
    · exact ⟨hlen, hdir⟩
    · have hr : r ≠ [] := by
        rintro rfl
        rw [List.append_nil, h, hfile] at hx
        cases hx
      have := habove [] (List.nil_prefix) (Ne.symm hr)
      rw [List.append_nil, hmk] at this
      cases this
  · intro hall r x hx
    obtain ⟨hlen, hdir⟩ := hall r x hx
    exact ⟨hlen, .inl hdir⟩

/-- When the target of a directory cannot be made, nothing is written. -/
theorem copyFile_unmade {fs : Files} (depth : Nat) {src tar : List Text}
    (hx : fs.node src = some .dir) (hmk : disk.mkdir tar = false)
    (htar : fs.node tar ≠ some .dir) :
    ((copyFile disk (depth + 1) src tar fs).1 = true ↔ Passable disk fs (depth + 1) src tar) ∧
      (copyFile disk (depth + 1) src tar fs).2 = fs := by
  have hsame : mkdir disk tar fs = fs := by
    rw [mkdir, if_neg (by simp [hmk])]
  rw [passable_refused hx hmk, onlyDirs_succ hx]
  simp only [copyFile, hx, hsame]
  split
  · next hlist =>
    refine ⟨by rw [each_orphan (copyFile_orphan disk depth) htar, hlist, eq_self, true_and], ?_⟩
    refine each_invariant (I := fun fs' => fs' = fs) (fun c hc fs' h' => ?_) rfl
    obtain ⟨n, rfl, -⟩ := fs.mem_children.mp hc
    rw [h', childOf_concat]
    exact copyFile_orphan_files depth _ (by simp) (by rwa [List.dropLast_concat])
  · next hlist => simp [hlist]

/-- The target is absent, its directory is there, and it is not inside the source. -/
structure Fresh (fs : Files) (src tar : List Text) : Prop where
  ne : tar ≠ []
  parent : fs.node tar.dropLast = some .dir
  absent : fs.node tar = none
  source : fs.node src ≠ none
  apart : ¬ src <+: tar

/-- The target is absent, its directory is there, and it is in no entry of the
source. -/
structure Aside (fs : Files) (src tar : List Text) : Prop where
  ne : tar ≠ []
  parent : fs.node tar.dropLast = some .dir
  absent : fs.node tar = none
  source : fs.node src ≠ none
  entries : ∀ n, fs.node (src ++ [n]) ≠ none → ¬ src ++ [n] <+: tar

namespace Aside

variable {fs : Files} {src tar : List Text}

theorem absent_below (h : Aside fs src tar) (r : List Text) : fs.node (tar ++ r) = none := by
  by_contra hr
  exact fs.exists_of_append hr h.absent

/-- What is in an entry of the source is not in the target. -/
theorem not_below (h : Aside fs src tar) {n : Text} (hn : fs.node (src ++ [n]) ≠ none)
    (r : List Text) : ¬ tar <+: src ++ [n] ++ r := by
  intro htar
  rcases List.prefix_or_prefix_of_prefix htar (List.prefix_append (src ++ [n]) r) with ht | hs
  · obtain ⟨k, hk⟩ := ht
    exact fs.exists_of_append (hk ▸ hn) h.absent
  · exact h.entries n hn hs

theorem node_mkdir (h : Aside fs src tar) (hmk : disk.mkdir tar = true) (q : List Text) :
    (mkdir disk tar fs).node q = if q = tar then some .dir else fs.node q := by
  obtain ⟨fs', hfs⟩ := fs.mkdir_isSome h.ne h.parent h.absent
  rw [mkdir, if_pos hmk, hfs, Option.getD_some, fs.node_mkdir hfs]

end Aside

namespace Fresh

variable {fs : Files} {src tar : List Text}

theorem aside (h : Fresh fs src tar) : Aside fs src tar :=
  ⟨h.ne, h.parent, h.absent, h.source, fun _ _ hn => h.apart ((List.prefix_append ..).trans hn)⟩

theorem not_above (h : Fresh fs src tar) : ¬ tar <+: src := by
  rintro ⟨r, rfl⟩
  exact fs.exists_of_append h.source h.absent

theorem not_below (h : Fresh fs src tar) (r : List Text) : ¬ tar <+: src ++ r := by
  intro htar
  rcases List.prefix_or_prefix_of_prefix htar (List.prefix_append src r) with ht | hs
  · exact h.not_above ht
  · exact h.apart hs

theorem absent_below (h : Fresh fs src tar) (r : List Text) : fs.node (tar ++ r) = none :=
  h.aside.absent_below r

/-- A file is written exactly when the disk takes it whole. -/
theorem write_iff (h : Fresh fs src tar) (disk : Disk) (data : List UInt8) :
    ((write disk tar data fs).1 = true ↔ disk.write tar = .done) ∧
      ((write disk tar data fs).1 = true →
        (write disk tar data fs).2.node tar = some (.file data)) := by
  obtain ⟨fs', hfs⟩ := fs.writeFile_isSome data h.ne h.parent (by simp [h.absent])
  unfold write
  split
  · next hw => simp [hw]
  · next hw => simp [hw]
  · next hw =>
    rw [hfs]
    exact ⟨iff_of_true rfl hw, fun _ => by rw [fs.node_writeFile hfs, if_pos rfl]⟩

theorem node_below_file {data : List UInt8} (hx : fs.node src = some (.file data)) {r : List Text}
    {x : Node (List UInt8)} (h : fs.node (src ++ r) = some x) : r = [] ∧ x = .file data := by
  by_cases hr : r = []
  · subst hr
    rw [List.append_nil, hx, Option.some.injEq] at h
    exact ⟨rfl, h.symm⟩
  · have hdir := fs.dir_of_append hr (by rw [h]; simp)
    rw [hx] at hdir
    cases hdir

theorem copies_file (h : Fresh fs src tar) {data : List UInt8} {depth : Nat}
    (hx : fs.node src = some (.file data)) :
    ((write disk tar data fs).1 = true ↔ Passable disk fs (depth + 1) src tar) ∧
      ((write disk tar data fs).1 = true → CanMake disk fs src tar →
        ∀ r, (write disk tar data fs).2.node (tar ++ r) = fs.node (src ++ r)) := by
  obtain ⟨hret, hnode⟩ := h.write_iff disk data
  refine ⟨?_, fun hw _ r => ?_⟩
  · rw [hret]
    constructor
    · intro hw r x hr
      obtain ⟨rfl, rfl⟩ := node_below_file hx hr
      refine ⟨Nat.succ_pos _, .inr ⟨⟨data, rfl⟩, by rwa [List.append_nil], fun k hk hne => ?_⟩⟩
      exact absurd (List.prefix_nil.mp hk) hne
    · intro hp
      obtain ⟨-, ⟨hdir, -⟩ | ⟨-, hw, -⟩⟩ := hp [] _ (by rwa [List.append_nil])
      · cases hdir
      · rwa [List.append_nil] at hw
  · cases r with
    | nil => rw [List.append_nil, List.append_nil, hnode hw, hx]
    | cons n r =>
        have hsrc : fs.node (src ++ n :: r) = none := by
          by_contra hne
          obtain ⟨x, hr⟩ := Option.ne_none_iff_exists'.mp hne
          exact absurd (node_below_file hx hr).1 (List.cons_ne_nil _ _)
        rw [hsrc]
        rcases node_write disk tar data fs (tar ++ n :: r) with he | ⟨he, -⟩
        · rw [he, h.absent_below]
        · simp at he

end Fresh

/-- The copy has made its target and has these entries before it. -/
structure Midway (fs : Files) (src tar : List Text) (cs : List (List Text)) (fs' : Files) :
    Prop where
  entries : ∀ c ∈ cs, ∃ n, c = src ++ [n] ∧ fs.node c ≠ none
  nodup : cs.Nodup
  made : fs'.node tar = some .dir
  outside : ∀ q, ¬ tar <+: q → fs'.node q = fs.node q
  absent : ∀ n, src ++ [n] ∈ cs → fs'.node (tar ++ [n]) = none

namespace Midway

variable {fs fs' : Files} {src tar : List Text} {cs : List (List Text)} {n : Text}

/-- What is in an entry of the source is as it was. -/
theorem source (h : Aside fs src tar) (hm : Midway fs src tar cs fs')
    (hn : fs.node (src ++ [n]) ≠ none) (r : List Text) :
    fs'.node (src ++ [n] ++ r) = fs.node (src ++ [n] ++ r) :=
  hm.outside _ (h.not_below hn r)

/-- The next entry is copied into a fresh target. -/
theorem fresh (h : Aside fs src tar) (hm : Midway fs src tar ((src ++ [n]) :: cs) fs') :
    Fresh fs' (src ++ [n]) (tar ++ [n]) := by
  have hn : fs.node (src ++ [n]) ≠ none := by
    obtain ⟨m, -, hnode⟩ := hm.entries _ (List.mem_cons_self ..)
    exact hnode
  refine ⟨by simp, by rw [List.dropLast_concat]; exact hm.made,
    hm.absent n (List.mem_cons_self ..), ?_, fun hpre => ?_⟩
  · have hsrc := hm.source h hn []
    rw [List.append_nil] at hsrc
    rwa [hsrc]
  · rcases List.prefix_concat_iff.mp hpre with he | hs
    · exact h.source (List.append_inj_left' he rfl ▸ h.absent)
    · exact h.entries n hn hs

/-- Copying it leaves the others as they are. -/
theorem next (hm : Midway fs src tar ((src ++ [n]) :: cs) fs') (disk : Disk) (depth : Nat) :
    Midway fs src tar cs (copyFile disk depth (src ++ [n]) (tar ++ [n]) fs').2 where
  entries := fun c hc => hm.entries c (List.mem_cons_of_mem _ hc)
  nodup := (List.nodup_cons.mp hm.nodup).2
  made := copyFile_keeps_dir hm.made
  outside := by
    intro q hq
    rw [node_copyFile_of_not_below fun hp => hq ((List.prefix_append ..).trans hp)]
    exact hm.outside q hq
  absent := by
    intro m hmem
    have hne : n ≠ m := by
      rintro rfl
      exact (List.nodup_cons.mp hm.nodup).1 hmem
    rw [node_copyFile_of_not_below fun hp => hne (FileTree.concat_prefix_iff.mp hp)]
    exact hm.absent m (List.mem_cons_of_mem _ hmem)

/-- The loop leaves alone what is not an entry. -/
theorem each_below (hm : Midway fs src tar cs fs') (hn : src ++ [n] ∉ cs) (depth : Nat) (gs : Files)
    (r : List Text) :
    (each (fun c => copyFile disk depth c (childOf tar c)) cs gs).2.node (tar ++ [n] ++ r) =
      gs.node (tar ++ [n] ++ r) := by
  refine each_invariant (I := fun fs => fs.node (tar ++ [n] ++ r) = gs.node (tar ++ [n] ++ r))
    (fun c hc fs'' h'' => ?_) rfl
  obtain ⟨m, rfl, -⟩ := hm.entries c hc
  have hne : m ≠ n := by
    rintro rfl
    exact hn hc
  rw [childOf_concat, node_copyFile_of_not_below, h'']
  rw [List.append_assoc]
  exact fun hp => hne (FileTree.concat_prefix_iff.mp hp)

end Midway

/-- The loop starts midway. -/
theorem Aside.midway {fs : Files} {src tar : List Text} (h : Aside fs src tar)
    (hmk : disk.mkdir tar = true) :
    Midway fs src tar (fs.children src) (mkdir disk tar fs) where
  entries := fun _ hc => fs.mem_children.mp hc
  nodup := fs.nodup_children src
  made := by rw [h.node_mkdir hmk, if_pos rfl]
  outside := by
    intro q hq
    rw [h.node_mkdir hmk, if_neg]
    rintro rfl
    exact hq (List.prefix_refl _)
  absent := by
    intro n _
    rw [h.node_mkdir hmk, if_neg (by simp), h.absent_below]

/-- A copy into a fresh target returns exactly when nothing stops it; and then, if
every directory could be made, the target is the source. -/
def CopiesFresh (disk : Disk) (depth : Nat) : Prop :=
  ∀ {fs : Files} {src tar : List Text}, Fresh fs src tar →
    ((copyFile disk depth src tar fs).1 = true ↔ Passable disk fs depth src tar) ∧
      ((copyFile disk depth src tar fs).1 = true → CanMake disk fs src tar →
        ∀ r, (copyFile disk depth src tar fs).2.node (tar ++ r) = fs.node (src ++ r))

theorem Passable.congr {fs fs' : Files} {depth : Nat} {src tar : List Text}
    (h : ∀ r, fs'.node (src ++ r) = fs.node (src ++ r)) :
    Passable disk fs' depth src tar ↔ Passable disk fs depth src tar := by
  simp only [Passable, h]

/-- The loop over the entries. -/
theorem each_fresh {fs : Files} {src tar : List Text} {depth : Nat} (h : Aside fs src tar)
    (hcopy : CopiesFresh disk depth) : ∀ {cs : List (List Text)} {fs' : Files},
      Midway fs src tar cs fs' →
      let res := each (fun c => copyFile disk depth c (childOf tar c)) cs fs'
      (res.1 = true ↔ ∀ n, src ++ [n] ∈ cs → Passable disk fs depth (src ++ [n]) (tar ++ [n])) ∧
        (res.1 = true → CanMake disk fs src tar → ∀ n, src ++ [n] ∈ cs →
          ∀ r, res.2.node (tar ++ [n] ++ r) = fs.node (src ++ [n] ++ r))
  | [], fs', _ => by simp [each]
  | c :: cs, fs', hm => by
      obtain ⟨n, rfl, hn⟩ := hm.entries c (List.mem_cons_self ..)
      have hsrc : ∀ r, fs'.node (src ++ [n] ++ r) = fs.node (src ++ [n] ++ r) :=
        hm.source h hn
      obtain ⟨hret, hnodes⟩ := hcopy (hm.fresh h)
      obtain ⟨ihret, ihnodes⟩ := each_fresh h hcopy (hm.next disk depth)
      rw [Passable.congr hsrc] at hret
      have hmem : ∀ m, src ++ [m] ∈ (src ++ [n]) :: cs ↔ m = n ∨ src ++ [m] ∈ cs := by simp
      simp only [each_cons, childOf_concat, hmem]
      split
      · next hone =>
        refine ⟨?_, fun hall hmake m hm' r => ?_⟩
        · rw [ihret, forall_eq_or_imp, ← hret, hone, eq_self, true_and]
        · rcases hm' with rfl | hm'
          · -- The other entries have other names.
            rw [(hm.next disk depth).each_below (List.nodup_cons.mp hm.nodup).1,
              hnodes hone ?_ r, hsrc]
            intro k hk
            rw [hsrc, List.append_assoc] at hk
            rw [List.append_assoc]
            exact hmake _ hk
          · exact ihnodes hall hmake m hm' r
      · next hone =>
        refine ⟨iff_of_false hone fun hall => hone (hret.mpr (hall n (.inl rfl))), fun h' => ?_⟩
        exact absurd h' hone

theorem Aside.copies_made {fs : Files} {src tar : List Text} {depth : Nat} (h : Aside fs src tar)
    (hcopy : CopiesFresh disk depth) (hx : fs.node src = some .dir)
    (hmk : disk.mkdir tar = true) :
    let res := if disk.list src then
        each (fun c => copyFile disk depth c (childOf tar c)) (fs.children src) (mkdir disk tar fs)
      else (false, mkdir disk tar fs)
    (res.1 = true ↔ Passable disk fs (depth + 1) src tar) ∧
      (res.1 = true → CanMake disk fs src tar →
        ∀ r, res.2.node (tar ++ r) = fs.node (src ++ r)) := by
  have hm : Midway fs src tar (fs.children src) (mkdir disk tar fs) := h.midway hmk
  obtain ⟨hret, hnodes⟩ := each_fresh h hcopy hm
  intro res
  rw [passable_made hx hmk]
  simp only [res]
  split
  · next hlist =>
    refine ⟨?_, fun hall hmake r => ?_⟩
    · rw [hret, hlist, eq_self, true_and]
      simp [fs.mem_children]
    · cases r with
      | nil =>
          rw [List.append_nil, List.append_nil, hx]
          exact each_invariant (I := fun fs => fs.node tar = some .dir)
            (fun _ _ _ => copyFile_keeps_dir) hm.made
      | cons n r =>
          have hassoc : ∀ p : List Text, p ++ n :: r = p ++ [n] ++ r := by simp
          rw [hassoc, hassoc]
          by_cases hn : fs.node (src ++ [n]) = none
          · have hnone : fs.node (src ++ [n] ++ r) = none := by
              by_contra hr
              exact fs.exists_of_append hr hn
            have hmem : src ++ [n] ∉ fs.children src := by simp [fs.mem_children, hn]
            rw [hm.each_below hmem, hnone, h.node_mkdir hmk, if_neg (by simp), List.append_assoc,
              h.absent_below]
          · exact hnodes hall hmake n (fs.mem_children.mpr ⟨n, rfl, hn⟩) r
  · next hlist => simp [hlist]

theorem copyFile_fresh (disk : Disk) : ∀ depth, CopiesFresh disk depth
  | 0, fs, src, tar, h => by
      obtain ⟨x, hx⟩ := Option.ne_none_iff_exists'.mp h.source
      refine ⟨iff_of_false (by simp [copyFile]) fun hp => ?_, by simp [copyFile]⟩
      exact absurd (hp [] x (by rwa [List.append_nil])).1 (Nat.not_lt_zero _)
  | depth + 1, fs, src, tar, h => by
      cases hx : fs.node src with
      | none => exact absurd hx h.source
      | some x =>
          cases x with
          | file data =>
              simp only [copyFile, hx]
              exact h.copies_file hx
          | locked =>
              simp only [copyFile, hx]
              refine ⟨iff_of_false (by simp) fun hp => ?_, by simp⟩
              obtain ⟨-, hc⟩ := hp [] _ (by rwa [List.append_nil])
              simp at hc
          | dir =>
              cases hmk : disk.mkdir tar with
              | true =>
                  simp only [copyFile, hx]
                  exact h.aside.copies_made (copyFile_fresh disk depth) hx hmk
              | false =>
                  refine ⟨(copyFile_unmade depth hx hmk (by simp [h.absent])).1, fun _ hmake => ?_⟩
                  have := hmake [] (by rwa [List.append_nil])
                  rw [List.append_nil, hmk] at this
                  cases this

end HapAndroid.FileUtil
