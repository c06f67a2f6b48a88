import HapAndroid.FileBrowser.Copy

/-!
# When a pasted copy is a snapshot

The paste handler only asks that the source is there and the target is not.  The
target may be inside the source.  A directory is listed before its target is made,
so a copy into the source itself does not see the target.  A copy into a directory
further down does: on the way to the target each listing holds what an earlier call
has made, and the copy goes on below it until the stack is full
(`copyFile_into_entry`).

Everything here is on a disk that refuses nothing.
-/

namespace HapAndroid.FileUtil

/-- With enough stack the copy returns, the target is what the source was, and
everything outside the target is unchanged. -/
def CopiesSnapshot (fs : Files) (src tar : List Text) : Prop :=
  ∃ n, ∀ depth ≥ n, (copyFile .sound depth src tar fs).1 = true ∧
    (∀ r, (copyFile .sound depth src tar fs).2.node (tar ++ r) = fs.node (src ++ r)) ∧
    ∀ q, ¬ tar <+: q → (copyFile .sound depth src tar fs).2.node q = fs.node q

/-- Every node of the source can be read. -/
def Unlocked (fs : Files) (src : List Text) : Prop := ∀ r, fs.node (src ++ r) ≠ some .locked

variable {fs : Files} {src tar : List Text}

/-! ## Beside the entries of the source -/

/-- Nothing stops a copy of readable nodes that has enough stack. -/
theorem passable_sound (hopen : Unlocked fs src) {depth : Nat} (hdepth : fs.height < depth) :
    Passable .sound fs depth src tar := by
  intro r x hx
  have hlen : (src ++ r).length ≤ fs.height := fs.length_le_height (by rw [hx]; simp)
  rw [List.length_append] at hlen
  refine ⟨by omega, ?_⟩
  cases x with
  | dir => exact .inl ⟨rfl, rfl⟩
  | file data => exact .inr ⟨⟨data, rfl⟩, rfl, fun _ _ _ => rfl⟩
  | locked => exact absurd hx (hopen r)

theorem unlocked_of_paths (h : ∀ p ∈ fs.paths, fs.node p ≠ some .locked) : Unlocked fs src := by
  intro r hr
  exact h _ (fs.mem_paths (by rw [hr]; simp)) hr

theorem unlocked_of_passable {depth : Nat} (h : Passable .sound fs depth src tar) :
    Unlocked fs src := by
  intro r hr
  obtain ⟨-, ⟨hdir, -⟩ | ⟨⟨data, hfile⟩, -⟩⟩ := h r _ hr
  · cases hdir
  · cases hfile

/-- A source that is no directory has the target nowhere in it. -/
theorem Aside.fresh_of_not_dir (h : Aside fs src tar) (hdir : fs.node src ≠ some .dir) :
    Fresh fs src tar := by
  refine ⟨h.ne, h.parent, h.absent, h.source, fun hpre => ?_⟩
  rw [← List.dropLast_concat_getLast h.ne] at hpre
  rcases List.prefix_concat_iff.mp hpre with heq | hpre
  · rw [List.dropLast_concat_getLast] at heq
    exact h.source (heq ▸ h.absent)
  · exact hdir (fs.dir_of_prefix hpre h.parent)

/-- Beside the entries of the source the copy returns exactly when nothing stops it,
and the target is then the source. -/
theorem Aside.copyFile_sound (h : Aside fs src tar) (depth : Nat) :
    ((copyFile .sound depth src tar fs).1 = true ↔ Passable .sound fs depth src tar) ∧
      ((copyFile .sound depth src tar fs).1 = true →
        ∀ r, (copyFile .sound depth src tar fs).2.node (tar ++ r) = fs.node (src ++ r)) := by
  have hmake : CanMake .sound fs src tar := fun _ _ => rfl
  by_cases hdir : fs.node src = some .dir
  · cases depth with
    | zero =>
        refine ⟨iff_of_false (by simp [copyFile]) fun hp => ?_, by simp [copyFile]⟩
        exact absurd (hp [] _ (by rwa [List.append_nil])).1 (Nat.not_lt_zero _)
    | succ depth =>
        have hmade := h.copies_made (copyFile_fresh .sound depth) hdir rfl
        simp only [copyFile, hdir]
        exact ⟨hmade.1, fun hret => hmade.2 hret hmake⟩
  · obtain ⟨hret, hnodes⟩ := copyFile_fresh .sound depth (h.fresh_of_not_dir hdir)
    exact ⟨hret, fun hr => hnodes hr hmake⟩

theorem Aside.snapshot_iff (h : Aside fs src tar) : CopiesSnapshot fs src tar ↔ Unlocked fs src := by
  constructor
  · rintro ⟨n, hn⟩
    exact unlocked_of_passable ((h.copyFile_sound n).1.mp (hn n (Nat.le_refl n)).1)
  · intro hopen
    refine ⟨fs.height + 1, fun depth hdepth => ?_⟩
    obtain ⟨hret, hnodes⟩ := h.copyFile_sound depth
    have hone := hret.mpr (passable_sound hopen hdepth)
    exact ⟨hone, hnodes hone, fun q hq => node_copyFile_of_not_below hq fs⟩

/-! ## Inside an entry of the source -/

/-- If one call of the loop throws in every state the calls before it can leave, the
loop throws. -/
theorem each_throws {f : List Text → Files → Bool × Files} {I : Files → Prop} {c : List Text}
    {as bs : List (List Text)} (hkeep : ∀ a ∈ as, ∀ gs, I gs → I (f a gs).2)
    (hthrow : ∀ gs, I gs → (f c gs).1 = false) {gs : Files} (h : I gs) :
    (each f (as ++ c :: bs) gs).1 = false := by
  induction as generalizing gs with
  | nil => simp [each_cons, hthrow gs h]
  | cons a as ih =>
      obtain ⟨ha, hrest⟩ := List.forall_mem_cons.mp hkeep
      rw [List.cons_append, each_cons]
      split
      · exact ih hrest (ha gs h)
      · next hone => exact Bool.eq_false_iff.mpr hone

theorem node_mkdir_sound {p : List Text} (hne : p ≠ []) (hpar : fs.node p.dropLast = some .dir)
    (habs : fs.node p = none) (q : List Text) :
    (mkdir .sound p fs).node q = if q = p then some .dir else fs.node q := by
  obtain ⟨fs', hfs⟩ := fs.mkdir_isSome hne hpar habs
  have hmk : Disk.sound.mkdir p = true := rfl
  rw [mkdir, if_pos hmk, hfs, Option.getD_some, fs.node_mkdir hfs]

/-- A copy into a directory of one of its entries never returns. -/
theorem copyFile_into_entry (depth : Nat) {fs : Files} {src m : List Text} {b : Text} (hm : m ≠ [])
    (hpar : fs.node (src ++ b :: m).dropLast = some .dir) (habs : fs.node (src ++ b :: m) = none) :
    (copyFile .sound depth src (src ++ b :: m) fs).1 = false := by
  induction depth generalizing fs src b m with
  | zero => rfl
  | succ depth ih =>
      have hdrop : (src ++ b :: m).dropLast = src ++ b :: m.dropLast := by
        rw [List.dropLast_append_of_ne_nil (by simp), List.dropLast_cons_of_ne_nil hm]
      have hsrc : fs.node src = some .dir :=
        fs.dir_of_prefix (List.prefix_append ..) (hdrop ▸ hpar)
      have hentry : fs.node (src ++ [b]) = some .dir :=
        fs.dir_of_prefix (by simp) (hdrop ▸ hpar)
      have hmk := node_mkdir_sound (by simp) hpar habs
      have hmem : src ++ [b] ∈ fs.children src :=
        fs.mem_children.mpr ⟨b, rfl, by rw [hentry]; simp⟩
      obtain ⟨as, bs, hsplit⟩ := List.append_of_mem hmem
      have hnodup := hsplit ▸ fs.nodup_children src
      have hlist : Disk.sound.list src = true := rfl
      simp only [copyFile, hsrc, hsplit, hlist, if_true]
      -- The target is there, and has no copy of this entry before its own turn.
      refine each_throws (I := fun gs => gs.node (src ++ b :: m) = some .dir ∧
        gs.node (src ++ b :: m ++ [b]) = none) (fun a ha gs hgs => ?_) (fun gs hgs => ?_) ?_
      · obtain ⟨n, rfl, -⟩ := fs.mem_children.mp (hsplit ▸ List.mem_append_left _ ha)
        have hne : n ≠ b := by
          rintro rfl
          exact (List.disjoint_of_nodup_append hnodup) ha (List.mem_cons_self ..)
        rw [childOf_concat]
        refine ⟨copyFile_keeps_dir hgs.1, ?_⟩
        rw [node_copyFile_of_not_below fun hp => hne (FileTree.concat_prefix_iff.mp hp)]
        exact hgs.2
      · obtain ⟨c, m, rfl⟩ := List.exists_cons_of_ne_nil hm
        have hdeeper : src ++ b :: c :: m ++ [b] = src ++ [b] ++ c :: (m ++ [b]) := by simp
        rw [childOf_concat, hdeeper]
        refine ih (by simp) ?_ (hdeeper ▸ hgs.2)
        rw [← hdeeper, List.dropLast_concat]
        exact hgs.1
      · rw [hmk, if_pos rfl, hmk, if_neg (by simp)]
        refine ⟨rfl, ?_⟩
        by_contra hne
        exact fs.exists_of_append hne habs

/-! ## The paste handler -/

/-- A copy the paste handler has admitted is a snapshot exactly if the source can be
read and the directory pasted into is not one below it. -/
theorem paste_snapshot_iff {fs : Files} {currentPath src : List Text}
    (hcur : fs.node currentPath = some .dir) (hsrc : fs.node src ≠ none)
    (habs : fs.node (childOf currentPath src) = none) :
    CopiesSnapshot fs src (childOf currentPath src) ↔
      Unlocked fs src ∧ (src <+: currentPath → src = currentPath) := by
  obtain ⟨p, n, rfl⟩ := exists_name_of_absent hcur habs
  rw [childOf_concat] at habs ⊢
  have hpar : fs.node (currentPath ++ [n]).dropLast = some .dir := by
    rwa [List.dropLast_concat]
  by_cases hin : p ++ [n] <+: currentPath → p ++ [n] = currentPath
  · rw [and_iff_left hin]
    refine Aside.snapshot_iff ⟨by simp, hpar, habs, hsrc, fun k hk hpre => ?_⟩
    rcases List.prefix_concat_iff.mp hpre with heq | hpre
    · exact hk (heq ▸ habs)
    · have hself := hin ((List.prefix_append ..).trans hpre)
      have := hpre.length_le
      rw [← hself] at this
      simp at this
  · obtain ⟨⟨r, hr⟩, hne⟩ := Classical.not_imp.mp hin
    refine iff_of_false ?_ fun h => hin h.2
    rintro ⟨k, hk⟩
    obtain ⟨b, r, rfl⟩ := List.exists_cons_of_ne_nil (l := r) (by
      rintro rfl
      exact hne (by simpa using hr))
    have htar : currentPath ++ [n] = p ++ [n] ++ b :: (r ++ [n]) := by simp [← hr]
    have hret := (hk k (Nat.le_refl k)).1
    rw [htar, copyFile_into_entry k (by simp) (htar ▸ hpar) (htar ▸ habs)] at hret
    cases hret

/-- A directory with a directory in it. -/
def nested : Files :=
  ((FileTree.bare.mkdir ["a".toList]).bind (·.mkdir ["a".toList, "b".toList])).getD .bare

/-- Pasting the inner directory beside the outer one is a snapshot. -/
theorem paste_inner_snapshot :
    CopiesSnapshot nested ["a".toList, "b".toList] ["b".toList] := by
  have hunlocked : Unlocked nested ["a".toList, "b".toList] :=
    unlocked_of_paths (by decide +kernel)
  exact (@paste_snapshot_iff nested [] ["a".toList, "b".toList] nested.root (by decide +kernel)
    (by decide +kernel)).mpr ⟨hunlocked, by decide⟩

/-- Pasting the outer directory into the inner one never returns. -/
theorem paste_into_inner_diverges :
    (∀ depth, (copyFile .sound depth ["a".toList] ["a".toList, "b".toList, "a".toList] nested).1 =
        false) ∧
      ¬ CopiesSnapshot nested ["a".toList] ["a".toList, "b".toList, "a".toList] := by
  have hthrow : ∀ depth, (copyFile .sound depth ["a".toList]
      ["a".toList, "b".toList, "a".toList] nested).1 = false := fun depth =>
    @copyFile_into_entry depth nested ["a".toList] ["a".toList] "b" (by simp) (by decide +kernel)
      (by decide +kernel)
  refine ⟨hthrow, ?_⟩
  rintro ⟨n, hn⟩
  have hret := (hn n (Nat.le_refl n)).1
  rw [hthrow] at hret
  cases hret

end HapAndroid.FileUtil
