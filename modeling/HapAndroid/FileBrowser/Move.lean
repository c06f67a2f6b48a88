import HapAndroid.FileBrowser.Copy

/-!
# Moving

A move is a copy and a recursive delete.  `deleteFile` only removes nodes, keeps
what the disk refuses to delete, and removes everything below its path when the disk
refuses nothing (`deleteFile_gone`).

`move_safe_iff` says when a move admitted by the paste handler loses nothing.  It
loses data when the target lies inside the source, since the copy is then part of
what is deleted, or of what a failed copy leaves behind; and when the disk refuses to
make or to delete a directory, since those answers are dropped.
-/

namespace HapAndroid.FileUtil

variable {disk : Disk}

/-! ## `deleteFile` -/

theorem node_deleteOne (disk : Disk) (p : List Text) (fs : Files) (q : List Text) :
    (deleteOne disk p fs).node q = fs.node q ∨
      q = p ∧ disk.delete p = true ∧ (deleteOne disk p fs).node q = none := by
  unfold deleteOne
  split
  · next hd =>
    cases h : fs.delete p with
    | none => exact .inl rfl
    | some fs' =>
        rw [Option.getD_some, fs.node_delete h]
        split
        · next hq => exact .inr ⟨hq, hd, rfl⟩
        · exact .inl rfl
  · exact .inl rfl

theorem deleteOne_gone {p : List Text} {fs : Files} (hne : p ≠ []) (hd : disk.delete p = true)
    (hempty : ∀ m, fs.node (p ++ [m]) = none) : (deleteOne disk p fs).node p = none := by
  rw [deleteOne, if_pos hd]
  by_cases hex : fs.node p = none
  · rw [show fs.delete p = none by simp [FileTree.delete, FileTree.existsAt, hex], Option.getD_none, hex]
  · obtain ⟨fs', hfs⟩ := fs.delete_isSome hne hex hempty
    rw [hfs, Option.getD_some, fs.node_delete hfs, if_pos rfl]

/-- What the single deletions below a path keep, the deletion keeps. -/
theorem deleteBelow_invariant {I : Files → Prop} : ∀ (n : Nat) {p : List Text} {fs : Files},
    (∀ q fs, p <+: q → I fs → I (deleteOne disk q fs)) → I fs → I (deleteBelow disk n p fs)
  | 0, _, _, _, h => h
  | n + 1, p, fs, hdel, h => by
      rw [deleteBelow]
      refine hdel p _ (List.prefix_refl _) ?_
      split
      · refine List.foldlRecOn (motive := I) _ _ h fun fs' h' c hc => ?_
        obtain ⟨m, rfl, -⟩ := fs.mem_children.mp hc
        exact deleteBelow_invariant n
          (fun q gs hq => hdel q gs ((List.prefix_append ..).trans hq)) h'
      · exact h

/-- A deletion changes nothing outside its path. -/
theorem node_deleteBelow_of_not_below {n : Nat} {p q : List Text} (hq : ¬ p <+: q) (fs : Files) :
    (deleteBelow disk n p fs).node q = fs.node q := by
  refine deleteBelow_invariant (I := fun fs' => fs'.node q = fs.node q) n
    (fun p' fs' hp h => ?_) rfl
  rcases node_deleteOne disk p' fs' q with he | ⟨rfl, -⟩
  · rw [he, h]
  · exact absurd hp hq

/-- A deletion only removes nodes. -/
theorem node_deleteBelow (disk : Disk) (n : Nat) (p : List Text) (fs : Files) (q : List Text) :
    (deleteBelow disk n p fs).node q = fs.node q ∨ (deleteBelow disk n p fs).node q = none := by
  refine deleteBelow_invariant
    (I := fun fs' => fs'.node q = fs.node q ∨ fs'.node q = none) n (fun p' fs' _ h => ?_) (.inl rfl)
  rcases node_deleteOne disk p' fs' q with he | ⟨-, -, he⟩
  · rwa [he]
  · exact .inr he

/-- What the disk refuses to delete stays. -/
theorem node_deleteBelow_of_refused {n : Nat} {p q : List Text} (hq : disk.delete q = false)
    (fs : Files) : (deleteBelow disk n p fs).node q = fs.node q := by
  refine deleteBelow_invariant (I := fun fs' => fs'.node q = fs.node q) n
    (fun p' fs' _ h => ?_) rfl
  rcases node_deleteOne disk p' fs' q with he | ⟨rfl, hd, -⟩
  · rw [he, h]
  · rw [hq] at hd
    cases hd

/-- Everything below a path can be deleted, and is not too deep. -/
def Deletable (disk : Disk) (fs : Files) (n : Nat) (p : List Text) : Prop :=
  ∀ r x, fs.node (p ++ r) = some x →
    r.length < n ∧ disk.delete (p ++ r) = true ∧ (x = .dir → disk.list (p ++ r) = true)

theorem Deletable.child {fs gs : Files} {n : Nat} {p : List Text} (h : Deletable disk fs (n + 1) p)
    (hgs : ∀ q, gs.node q = fs.node q ∨ gs.node q = none) (m : Text) :
    Deletable disk gs n (p ++ [m]) := by
  intro r x hx
  have hfs : fs.node (p ++ m :: r) = some x := by
    rcases hgs (p ++ m :: r) with he | he
    · rw [← he]
      simpa using hx
    · rw [List.append_assoc, List.singleton_append, he] at hx
      cases hx
  obtain ⟨hlen, hrest⟩ := h (m :: r) x hfs
  exact ⟨Nat.lt_of_succ_lt_succ hlen, by simpa using hrest⟩

/-- Deleting the entries one after the other leaves none of them. -/
theorem foldl_deleteBelow_gone {fs : Files} {n : Nat} {p : List Text}
    (hstep : ∀ {gs : Files} {m : Text}, (∀ q, gs.node q = fs.node q ∨ gs.node q = none) →
      ∀ r, (deleteBelow disk n (p ++ [m]) gs).node (p ++ [m] ++ r) = none) :
    ∀ (cs : List (List Text)) {gs : Files}, (∀ q, gs.node q = fs.node q ∨ gs.node q = none) →
      (∀ c ∈ cs, ∃ m, c = p ++ [m]) →
      (∀ m r, p ++ [m] ∉ cs → gs.node (p ++ [m] ++ r) = none) →
        ∀ m r, (cs.foldl (fun fs c => deleteBelow disk n c fs) gs).node (p ++ [m] ++ r) = none
  | [], gs, _, _, hrest, m, r => hrest m r (List.not_mem_nil)
  | c :: cs, gs, hgs, hcs, hrest, m, r => by
      obtain ⟨k, rfl⟩ := hcs c (List.mem_cons_self ..)
      rw [List.foldl_cons]
      refine foldl_deleteBelow_gone hstep cs (fun q => ?_)
        (fun d hd => hcs d (List.mem_cons_of_mem _ hd)) (fun l r hl => ?_) m r
      · rcases node_deleteBelow disk n (p ++ [k]) gs q with he | he
        · rw [he]
          exact hgs q
        · exact .inr he
      · by_cases hk : l = k
        · rw [hk]
          exact hstep hgs r
        · rcases node_deleteBelow disk n (p ++ [k]) gs (p ++ [l] ++ r) with he | he
          · rw [he]
            exact hrest l r (by simp [hk, hl])
          · exact he

/-- The entries of a directory that can be deleted are gone before the directory
itself is deleted. -/
theorem entries_gone {fs : Files} {n : Nat} {p : List Text} (h : Deletable disk fs (n + 1) p)
    (hgone : ∀ {gs : Files} {m : Text}, Deletable disk gs n (p ++ [m]) →
      ∀ r, (deleteBelow disk n (p ++ [m]) gs).node (p ++ [m] ++ r) = none) (m : Text)
    (r : List Text) :
    (if fs.isDir p && disk.list p then (fs.children p).foldl (fun fs c => deleteBelow disk n c fs) fs
      else fs).node (p ++ [m] ++ r) = none := by
  split
  · refine @foldl_deleteBelow_gone disk fs n p (fun hgs => hgone (h.child hgs _)) _ _
      (fun _ => .inl rfl) (fun c hc => ?_) (fun m r hm => ?_) m r
    · obtain ⟨m, hm, -⟩ := fs.mem_children.mp hc
      exact ⟨m, hm⟩
    · by_contra hr
      exact hm (fs.mem_children.mpr ⟨m, rfl, fs.exists_of_append hr⟩)
  · next hskip =>
    by_contra hr
    have hdir := fs.parent (fs.exists_of_append hr)
    have hlist := (h [] .dir (by rwa [List.append_nil])).2.2 rfl
    rw [List.append_nil] at hlist
    exact hskip (by simp [fs.isDir_iff.mpr hdir, hlist])

/-- What can be deleted is. -/
theorem deleteBelow_gone : ∀ (n : Nat) {p : List Text} {fs : Files}, p ≠ [] →
    Deletable disk fs n p → ∀ r, (deleteBelow disk n p fs).node (p ++ r) = none
  | 0, p, fs, _, h, r => by
      rw [deleteBelow]
      by_contra hr
      obtain ⟨x, hx⟩ := Option.ne_none_iff_exists'.mp hr
      exact absurd (h r x hx).1 (Nat.not_lt_zero _)
  | n + 1, p, fs, hne, h, r => by
      have hentries := entries_gone h fun hd => deleteBelow_gone n (by simp) hd
      have hremoved := node_deleteBelow disk (n + 1) p fs p
      rw [deleteBelow] at hremoved ⊢
      generalize hgs : (if fs.isDir p && disk.list p then
        (fs.children p).foldl (fun fs c => deleteBelow disk n c fs) fs else fs) = gs
        at hentries hremoved ⊢
      cases r with
      | nil =>
          rw [List.append_nil]
          rcases hremoved with he | he
          · cases hx : fs.node p with
            | none => rw [he, hx]
            | some x =>
                have hdel := (h [] x (by rwa [List.append_nil])).2.1
                rw [List.append_nil] at hdel
                exact deleteOne_gone hne hdel fun m => by simpa using hentries m []
          · exact he
      | cons m r =>
          rcases node_deleteOne disk p gs (p ++ m :: r) with he | ⟨-, -, he⟩
          · rw [he]
            simpa using hentries m r
          · exact he

theorem deleteFile_gone {fs : Files} {p : List Text} (hne : p ≠ [])
    (hdel : ∀ r, fs.node (p ++ r) ≠ none → disk.delete (p ++ r) = true)
    (hlist : ∀ r, fs.node (p ++ r) = some .dir → disk.list (p ++ r) = true) (r : List Text) :
    (deleteFile disk p fs).node (p ++ r) = none := by
  refine deleteBelow_gone _ hne (fun r x hx => ⟨?_, hdel r (by simp [hx]), ?_⟩) r
  · have hlen := fs.length_le_height (p := p ++ r) (by simp [hx])
    rw [List.length_append] at hlen
    omega
  · rintro rfl
    exact hlist r hx

/-! ## `moveFile` -/

/-- The move has lost nothing: if it returned, the subtree is at the target, nothing
is at the source and everything else is unchanged; if it threw, the source is
unchanged. -/
def MoveSafe (fs : Files) (src tar : List Text) : Bool × Files → Prop
  | (true, fs') =>
      (∀ r, fs'.node (tar ++ r) = fs.node (src ++ r)) ∧ (∀ r, fs'.node (src ++ r) = none) ∧
        ∀ q, ¬ src <+: q → ¬ tar <+: q → fs'.node q = fs.node q
  | (false, fs') => ∀ r, fs'.node (src ++ r) = fs.node (src ++ r)

/-- The kind of moves that lose nothing.  A copy that cannot succeed does no harm
unless it writes into the source; one that succeeds must be outside the source, and
the disk must make every directory and delete every node. -/
def Harmless (disk : Disk) (fs : Files) (depth : Nat) (src tar : List Text) : Prop :=
  (Passable disk fs depth src tar → ¬ src <+: tar ∧ CanMake disk fs src tar ∧
    ∀ r, fs.node (src ++ r) ≠ none → disk.delete (src ++ r) = true) ∧
  (¬ Passable disk fs depth src tar → src <+: tar →
    depth = 0 ∨ disk.mkdir tar = false)

section moveFile
variable {fs : Files} {src tar : List Text} {depth : Nat}

/-- A move that throws leaves the files as the copy left them; one that returns
deletes the source. -/
theorem moveFile_eq (disk : Disk) (depth : Nat) (src tar : List Text) (fs : Files) :
    moveFile disk depth src tar fs =
      if (copyFile disk depth src tar fs).1 = true then
        (true, deleteFile disk src (copyFile disk depth src tar fs).2)
      else (false, (copyFile disk depth src tar fs).2) := by
  rw [moveFile]
  split
  · next h => rw [h, if_pos rfl]
  · next h => rw [h, if_neg (by simp)]

theorem Fresh.not_below_target (h : Fresh fs src tar) (r : List Text) : ¬ src <+: tar ++ r := by
  intro hsrc
  rcases List.prefix_or_prefix_of_prefix hsrc (List.prefix_append tar r) with hs | ht
  · exact h.apart hs
  · exact h.not_above ht

/-- Where the disk refuses a directory, a move brings none. -/
theorem Fresh.canMake_of_moved (h : Fresh fs src tar)
    (htar : ∀ r, (deleteFile disk src (copyFile disk depth src tar fs).2).node (tar ++ r) =
      fs.node (src ++ r)) : CanMake disk fs src tar := by
  intro r hr
  by_contra hmk
  have hnd : (copyFile disk depth src tar fs).2.node (tar ++ r) ≠ some .dir :=
    copyFile_refused (by simpa using hmk) (by simp [h.absent_below])
  have hdir := (htar r).trans hr
  rw [deleteFile, node_deleteBelow_of_not_below (h.not_below_target r)] at hdir
  exact hnd hdir

/-- Apart from the source, a move that returns loses nothing exactly when the disk
makes every directory and deletes every node. -/
theorem Fresh.returned_safe_iff (h : Fresh fs src tar) (hne : src ≠ [])
    (hpass : Passable disk fs depth src tar) :
    MoveSafe fs src tar (true, deleteFile disk src (copyFile disk depth src tar fs).2) ↔
      CanMake disk fs src tar ∧ ∀ r, fs.node (src ++ r) ≠ none → disk.delete (src ++ r) = true := by
  obtain ⟨hret, hnodes⟩ := copyFile_fresh disk depth h
  have hsrc : ∀ r, (copyFile disk depth src tar fs).2.node (src ++ r) = fs.node (src ++ r) :=
    fun r => node_copyFile_of_not_below (h.not_below r) fs
  constructor
  · rintro ⟨htar, hgone, -⟩
    refine ⟨h.canMake_of_moved htar, fun r hr => ?_⟩
    by_contra hd
    have hkept := hgone r
    rw [deleteFile, node_deleteBelow_of_refused (by simpa using hd), hsrc] at hkept
    exact hr hkept
  · rintro ⟨hmake, hdel⟩
    refine ⟨fun r => ?_, fun r => ?_, fun q hqs hqt => ?_⟩
    · rw [deleteFile, node_deleteBelow_of_not_below (h.not_below_target r)]
      exact hnodes (hret.mpr hpass) hmake r
    · refine deleteFile_gone hne (fun r hr => hdel r (by rwa [hsrc] at hr)) (fun r hr => ?_) r
      rw [hsrc] at hr
      obtain ⟨-, ⟨-, hlist⟩ | ⟨⟨_, hfile⟩, -⟩⟩ := hpass r _ hr
      · exact hlist
      · cases hfile
    · rw [deleteFile, node_deleteBelow_of_not_below hqs, node_copyFile_of_not_below hqt]

/-- A move to a fresh target apart from the source. -/
theorem Fresh.safe_iff (h : Fresh fs src tar) (hne : src ≠ []) :
    MoveSafe fs src tar (moveFile disk depth src tar fs) ↔ Harmless disk fs depth src tar := by
  have hret := (copyFile_fresh disk depth h).1
  rw [moveFile_eq, Harmless]
  by_cases hpass : Passable disk fs depth src tar
  · rw [if_pos (hret.mpr hpass), h.returned_safe_iff hne hpass]
    simp [hpass, h.apart]
  · rw [if_neg fun hr => hpass (hret.mp hr)]
    refine iff_of_true (fun r => node_copyFile_of_not_below (h.not_below r) fs) ?_
    exact ⟨fun hp => absurd hp hpass, fun _ hs => absurd hs h.apart⟩

/-- A move into the source that returns has lost it. -/
theorem not_safe_returned (hin : src <+: tar) (hsrc : fs.node src ≠ none) (fs' : Files) :
    ¬ MoveSafe fs src tar (true, fs') := by
  rintro ⟨htar, hgone, -⟩
  obtain ⟨k, rfl⟩ := hin
  have hroot := htar []
  rw [List.append_nil, List.append_nil, hgone k] at hroot
  exact hsrc hroot.symm

/-- A copy that makes its target inside the source has changed the source. -/
theorem not_safe_thrown (hin : src <+: tar) (habs : fs.node tar = none) {fs' : Files}
    (hmade : fs'.node tar = some .dir) : ¬ MoveSafe fs src tar (false, fs') := by
  intro hsame
  obtain ⟨k, rfl⟩ := hin
  have := hsame k
  rw [hmade, habs] at this
  cases this

/-- The target of a directory is made first, even if the directory cannot be listed. -/
theorem copyFile_makes (depth : Nat) (hdir : fs.node src = some .dir)
    (hmk : disk.mkdir tar = true) (hne : tar ≠ []) (hpar : fs.node tar.dropLast = some .dir)
    (habs : fs.node tar = none) :
    (copyFile disk (depth + 1) src tar fs).2.node tar = some .dir := by
  obtain ⟨fs', hfs⟩ := fs.mkdir_isSome hne hpar habs
  have hmade : (mkdir disk tar fs).node tar = some .dir := by
    rw [mkdir, if_pos hmk, hfs, Option.getD_some, fs.node_mkdir hfs, if_pos rfl]
  simp only [copyFile, hdir]
  split
  · exact each_invariant (I := fun fs => fs.node tar = some .dir)
      (fun _ _ _ => copyFile_keeps_dir) hmade
  · exact hmade

/-- A move into the source. -/
theorem inside_safe_iff (hin : src <+: tar) (hne : tar ≠ []) (hpar : fs.node tar.dropLast = some .dir)
    (habs : fs.node tar = none) (hdir : fs.node src = some .dir) :
    MoveSafe fs src tar (moveFile disk depth src tar fs) ↔ Harmless disk fs depth src tar := by
  have hlost := not_safe_returned hin (by simp [hdir] : fs.node src ≠ none)
  have hharm : Harmless disk fs depth src tar ↔ ¬ Passable disk fs depth src tar ∧
      (depth = 0 ∨ disk.mkdir tar = false) := by
    by_cases hpass : Passable disk fs depth src tar <;> simp [Harmless, hpass, hin]
  rw [hharm]
  cases depth with
  | zero =>
      have hpass : ¬ Passable disk fs 0 src tar := fun hp =>
        absurd (hp [] .dir (by rwa [List.append_nil])).1 (Nat.lt_irrefl 0)
      simp only [hpass, true_or, not_false_eq_true, and_self, iff_true]
      exact fun r => rfl
  | succ depth =>
      cases hmk : disk.mkdir tar with
      | false =>
          obtain ⟨hret, hsame⟩ := copyFile_unmade depth hdir hmk (by simp [habs])
          rw [moveFile_eq, hsame]
          by_cases hpass : Passable disk fs (depth + 1) src tar
          · rw [if_pos (hret.mpr hpass)]
            exact iff_of_false (hlost _) fun h => h.1 hpass
          · rw [if_neg fun h => hpass (hret.mp h)]
            exact iff_of_true (fun r => rfl) ⟨hpass, .inr rfl⟩
      | true =>
          have hmade := copyFile_makes depth hdir hmk hne hpar habs
          have hnot : ¬ MoveSafe fs src tar (moveFile disk (depth + 1) src tar fs) := by
            rw [moveFile_eq]
            split
            · exact hlost _
            · exact not_safe_thrown hin habs hmade
          exact iff_of_false hnot (by simp)

end moveFile

/-- A move that the paste handler has admitted loses nothing exactly when it is
harmless. -/
theorem move_safe_iff {fs fs' : Files} {currentPath src : List Text} {depth : Nat} {returned : Bool}
    (hcur : fs.node currentPath = some .dir)
    (hpaste : funPaste disk depth currentPath src fs = .moved returned fs') :
    MoveSafe fs src (childOf currentPath src) (returned, fs') ↔
      Harmless disk fs depth src (childOf currentPath src) := by
  unfold funPaste at hpaste
  split at hpaste
  · next hsrc =>
    split at hpaste
    · cases hpaste
    · next htar =>
      cases hpaste
      have hsrc' : fs.node src ≠ none := fs.existsAt_iff.mp hsrc
      have habs : fs.node (childOf currentPath src) = none :=
        fs.existsAt_eq_false_iff.mp (Bool.eq_false_iff.mpr htar)
      obtain ⟨p, n, rfl⟩ := exists_name_of_absent hcur habs
      rw [childOf_concat] at habs ⊢
      have hpar : fs.node (currentPath ++ [n]).dropLast = some .dir := by
        rwa [List.dropLast_concat]
      by_cases hin : p ++ [n] <+: currentPath ++ [n]
      · have hne : p ++ [n] ≠ currentPath ++ [n] := by
          intro he
          exact hsrc' (he ▸ habs)
        have hpre : p ++ [n] <+: currentPath :=
          (List.prefix_concat_iff.mp hin).resolve_left hne
        exact inside_safe_iff hin (by simp) hpar habs (fs.dir_of_prefix hpre hcur)
      · exact Fresh.safe_iff ⟨by simp, hpar, habs, hsrc', hin⟩ (by simp)
  · cases hpaste

/-- A directory with one file, and another directory. -/
def photos : Files :=
  (((FileTree.bare.mkdir ["a".toList]).bind (·.writeFile ["a".toList, "x".toList] [1])).bind
    (·.mkdir ["d".toList])).getD .bare

/-- Moving the file into the other directory loses nothing. -/
theorem move_file_safe :
    MoveSafe photos ["a".toList, "x".toList] ["d".toList, "x".toList]
      (moveFile .sound 9 ["a".toList, "x".toList] ["d".toList, "x".toList] photos) := by
  have hfile : photos.node ["a".toList, "x".toList] = some (.file [1]) := by decide +kernel
  refine (@move_safe_iff .sound photos _ ["d".toList] _ 9 _ (by decide +kernel) rfl).mpr ?_
  have hapart : ¬ ["a".toList, "x".toList] <+: ["d".toList, "x".toList] := by decide
  refine ⟨fun _ => ⟨hapart, fun r hr => ?_, fun _ _ => rfl⟩, fun _ hin => absurd hin hapart⟩
  exact absurd (Fresh.node_below_file hfile hr).2 (by simp)

/-- The handler admits the move of the directory into itself, the move returns, and
nothing is left. -/
theorem move_into_itself_loses :
    ∃ fs', funPaste .sound 9 ["a".toList] ["a".toList] photos = .moved true fs' ∧
      fs'.node ["a".toList] = none ∧
      ¬ MoveSafe photos ["a".toList] ["a".toList, "a".toList] (true, fs') := by
  have hret : (moveFile .sound 9 ["a".toList] ["a".toList, "a".toList] photos).1 = true := by
    decide +kernel
  refine ⟨(moveFile .sound 9 ["a".toList] ["a".toList, "a".toList] photos).2, ?_,
    by decide +kernel, not_safe_returned (by decide) (by decide +kernel) _⟩
  rw [← hret]
  rfl

end HapAndroid.FileUtil
