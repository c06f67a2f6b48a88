import HapAndroid.FileBrowser.Browsing
import HapAndroid.FileBrowser.Snapshot

/-!
# What a choice in the file browser acts on

The context menu shows the name of a file, but keeps its position only, and the list can be read
again while the menu is open.  If it is not, what is chosen acts on the file of that name
(`menu_acts_on_title`).

`fun_Paste` checks its source and its target, and a thread copies later.  While nobody else changes
the files, the browser comes back exactly if nothing stops the copy, and then shows the copy
(`paste_comes_back`).
-/

namespace HapAndroid.FileBrowser

open FileUtil (Passable CanMake)

variable {d : Device} {s t : State} {e : Event} {fs : Files} {path : Text} {es : List Event}

/-! ## The context menu -/

/-- The file at the position of an open menu has the name in its title. -/
def State.Titled (s : State) : Prop :=
  ∀ i title, s.front = .main (some (.menu i title)) →
    ∃ f, s.main.files[i]? = some f ∧ f.name = title

/-- No message comes while a menu is open, and from outside come files of a file system. -/
def Steady (s : State) (e : Event) : Prop :=
  (∀ i title, s.front = .main (some (.menu i title)) → e ≠ .message) ∧
    ∀ fs, e = .outside fs → PlainTree fs

theorem State.Titled.of_front (h : ∀ i title, t.front ≠ .main (some (.menu i title))) : t.Titled :=
  fun i title hfront => absurd hfront (h i title)

theorem State.Titled.of_step (h : s.Titled) (hstep : Step d s e t) (hsteady : Steady s e) :
    t.Titled := by
  have hpaste : ∀ {p}, s.front = .paste p → ∀ i title, s.front ≠ .main (some (.menu i title)) := by
    intro p hp i title hmenu
    cases hp.symm.trans hmenu
  cases hstep with
  | outside fs => exact h
  | handle hne => exact .of_front fun i title hfront => hsteady.1 i title hfront rfl
  | view hfront hpath =>
      refine .of_front fun i title hmenu => ?_
      cases hfront.symm.trans hmenu
  | menu hfront hf =>
      intro i title hmenu
      cases hmenu
      exact ⟨_, hf, rfl⟩
  | under hfront ho hmenu =>
      refine .of_front fun i title hfront' => hmenu i title ?_
      cases hfront'
      rfl
  | delete hfront hf => exact .of_front fun i title hmenu => by cases hmenu
  | pasteFile hfront hf hm => exact .of_front fun i title hmenu => by cases hmenu
  | createDir hfront hmade => exact .of_front fun i title hmenu => by cases hmenu
  | rename hfront hpath hrenamed => exact .of_front fun i title hmenu => by cases hmenu
  | @ends _ _ front hfront hended =>
      refine .of_front fun i title hmenu => ?_
      cases (hmenu : front = _)
      exact hended
  | stay hfront => exact h
  | viewPaste hfront hdialog hpath => exact .of_front fun i title hmenu => by cases hmenu
  | handlePaste hfront => exact .of_front fun i title hmenu => by cases hmenu
  | askPaste hfront hdialog => exact .of_front fun i title hmenu => by cases hmenu
  | createPaste hfront hdialog hmade => exact .of_front fun i title hmenu => by cases hmenu
  | dropPaste hfront hdialog => exact .of_front fun i title hmenu => by cases hmenu
  | paste hfront hdialog htarget => exact .of_front fun i title hmenu => by cases hmenu
  | copied hfront hdialog hcopied => exact .of_front fun i title hmenu => by cases hmenu
  | failed hfront hdialog hfailed => exact .of_front fun i title hmenu => by cases hmenu
  | done hfront hdialog => exact .of_front fun i title hmenu => by cases hmenu
  | cancel hfront hdialog => exact .of_front fun i title hmenu => by cases hmenu

/-- A choice changes no file but, if it is to delete, the chosen one. -/
theorem node_select {f : FileInfo} {q : List Text} (hq : ¬ (JavaFile.new f.path).path <+: q)
    (m : MenuItem) : (s.select d f m).fs.node q = s.fs.node q := by
  cases m with
  | delete => exact node_delete_of_not_below hq
  | _ => rfl

/-- In every run in which no message comes while a menu is open, a choice is for the file that the
title of the menu names, and no other file is changed by it. -/
theorem menu_acts_on_title (hroot : PlainPath d.rootPath) (htree : PlainTree fs)
    (hpath : PlainPath path)
    (hsteady : Run.Along (State.step d) Steady (State.start d fs path) es)
    (hrun : Run.run (State.step d) (State.start d fs path) es = some s) {i : Nat} {title : Text}
    (hfront : s.front = .main (some (.menu i title))) {m : MenuItem}
    (hstep : s.step d (.item m) = some t) :
    ∃ f, f.name = title ∧ f.path = entryPath s.main.currentPath title ∧ t = s.select d f m ∧
      ∀ q, ¬ spot s.main.currentPath ++ [title] <+: q → t.fs.node q = s.fs.node q := by
  have hkeep : ∀ s e t, s.Sane ∧ s.Titled → Steady s e → s.step d e = some t →
      t.Sane ∧ t.Titled := by
    intro s e t h hsteady hstep
    have hstep := step_of_eq hstep
    exact ⟨h.1.of_step hroot hstep hsteady.2, h.2.of_step hstep hsteady⟩
  obtain ⟨hsane, htitled⟩ := Run.run_invariant_of hkeep es
    ⟨sane_start htree hpath, .of_front fun i title hmenu => by cases hmenu⟩ hsteady hrun
  obtain ⟨f, hf, rfl⟩ := htitled i title hfront
  obtain ⟨hname, hfpath⟩ := hsane.main.entries f (List.mem_of_getElem? hf)
  have ht : t = s.select d f m := by
    simp only [State.step, hfront, State.stepMain, hf, Option.some.injEq] at hstep
    exact hstep.symm
  refine ⟨f, rfl, hfpath, ht, fun q hq => ?_⟩
  rw [ht]
  refine node_select ?_ m
  rwa [hfpath, (hsane.main.path.entryPath hname).path_eq, spot_entryPath hname]

/-- Choose to delete the only directory of a directory. -/
theorem menu_deletes_title : ∃ s t,
    Run.run (State.step openDevice) (State.start openDevice twoDirectories "/") [.longClick 0] =
      some s ∧
    s.step openDevice (.item .delete) = some t ∧
      ∀ q, ¬ ["a".toList] <+: q → t.fs.node q = s.fs.node q := by
  have hmain := main_start openDevice twoDirectories "/" (f := ⟨"a", "/a", true⟩)
    (by decide +kernel)
  have hfile := congrArg (·.files[0]?) hmain
  obtain ⟨s, hs⟩ : ∃ s, s =
      (State.start openDevice twoDirectories "/").under (some (.menu 0 "a")) := ⟨_, rfl⟩
  have hmenu : (State.start openDevice twoDirectories "/").step openDevice (.longClick 0) =
      some s := by
    rw [hs]
    exact congrArg (Option.map _) hfile
  have hrun := Run.run_cons_eq_some.mpr ⟨s, hmenu, Run.run_nil s⟩
  have hsteady : Run.Along (State.step openDevice) Steady
      (State.start openDevice twoDirectories "/") [.longClick 0] :=
    ⟨⟨fun i title hfront => (by cases hfront), fun fs hfs => (by cases hfs)⟩, fun _ _ => trivial⟩
  have hdelete : s.step openDevice (.item .delete) =
      some (s.select openDevice ⟨"a", "/a", true⟩ .delete) := by
    have hfile' : s.main.files[0]? = some ⟨"a", "/a", true⟩ := by rw [hs]; exact hfile
    simp only [State.step, show s.front = .main (some (.menu 0 "a")) by rw [hs]; rfl,
      State.stepMain, hfile']
  obtain ⟨f, -, -, -, hnodes⟩ := menu_acts_on_title plainPath_root plainTree_twoDirectories
    plainPath_root hsteady hrun (by rw [hs]; rfl) hdelete
  have hcur : s.main.currentPath = "/".toList := by
    rw [hs]
    exact View.currentPath_start openDevice twoDirectories "/"
  rw [hcur] at hnodes
  exact ⟨s, _, hrun, hdelete, hnodes⟩

/-! ## Pasting -/

/-- The source and the target of a copy that is to begin. -/
theorem fresh_of_ready {p : Pasting} {src tar : List Text} (hs : s.Sane) (hready : s.Ready)
    (hfront : s.front = .paste p) (hdialog : p.dialog = some (.progress src tar))
    (hlist : Listable d.toDisk s.fs p.view.currentPath) (hin : ¬ src <+: spot p.view.currentPath) :
    FileUtil.Fresh s.fs src tar ∧ ∃ n, PlainName n ∧ tar = spot p.view.currentPath ++ [n] := by
  have hp := hs.pasting hfront
  obtain ⟨hsrc, htar⟩ := hp.progress src tar hdialog
  obtain ⟨hexists, habs⟩ := hready p src tar hfront hdialog
  obtain ⟨n, hn, hsource⟩ := hp.source
  have htar' : tar = spot p.view.currentPath ++ [n] := by
    rw [htar, hsource, spot_entryPath hn, FileUtil.childOf_concat]
  refine ⟨⟨by simp [htar'], ?_, habs, hexists, fun hpre => ?_⟩, n, hn, htar'⟩
  · rw [htar', List.dropLast_concat]
    exact hlist.1
  · rw [htar'] at hpre
    rcases List.prefix_concat_iff.mp hpre with heq | hpre
    · exact hexists (heq ▸ htar' ▸ habs)
    · exact hin hpre

theorem step_copied {p : Pasting} {src tar : List Text} (hfront : s.front = .paste p)
    (hdialog : p.dialog = some (.progress src tar)) {u : State} :
    Run.run (State.step d) s [.copied, .done] = some u ↔
      (transfer d p.action src tar s.fs).1 = true ∧
        u = State.view d ⟨(transfer d p.action src tar s.fs).2, s.main, s.messages, .main none⟩
          p.view.currentPath := by
  obtain ⟨returned, fs, hres⟩ : ∃ returned fs, transfer d p.action src tar s.fs = (returned, fs) :=
    ⟨_, _, rfl⟩
  have hstep : s.step d .copied = some (if returned then
      { s with fs, front := .paste { p with dialog := some .copied } }
        else { s with fs, front := .crashed }) := by
    simp only [State.step, hfront, hdialog, State.stepPaste, hres]
    cases returned <;> rfl
  rw [Run.run_cons, hstep, hres]
  cases returned with
  | true =>
      constructor
      · intro h
        exact ⟨rfl, (Option.some.inj h).symm⟩
      · rintro ⟨-, rfl⟩
        rfl
  | false =>
      constructor
      · intro h
        cases h
      · rintro ⟨h, -⟩
        cases h

/-- A thread comes back exactly if nothing stops its copy. -/
theorem transfer_returns_iff (d : Device) (action : Action) {src tar : List Text}
    (h : FileUtil.Fresh fs src tar) : (transfer d action src tar fs).1 = true ↔
      Passable d.toDisk fs d.depth src tar := by
  have hcopy := (FileUtil.copyFile_fresh d.toDisk d.depth h).1
  cases action with
  | copy => exact hcopy
  | move =>
      rw [← hcopy, transfer, FileUtil.moveFile_eq]
      split
      · next h => exact iff_of_true rfl h
      · next h => exact iff_of_false Bool.false_ne_true h

/-- What a copy or a move that comes back has brought. -/
theorem node_transfer_target {action : Action} {src tar : List Text} (h : FileUtil.Fresh fs src tar)
    (hmake : CanMake d.toDisk fs src tar) (hret : (transfer d action src tar fs).1 = true)
    (r : List Text) : (transfer d action src tar fs).2.node (tar ++ r) = fs.node (src ++ r) := by
  have hcopy := FileUtil.copyFile_fresh d.toDisk d.depth h
  have hpass := hcopy.1.mpr ((transfer_returns_iff d action h).mp hret)
  cases action with
  | copy => exact hcopy.2 hpass hmake r
  | move =>
      rw [transfer, FileUtil.moveFile_eq, if_pos hpass]
      rw [← hcopy.2 hpass hmake r]
      exact FileUtil.node_deleteBelow_of_not_below (h.not_below_target r) _

/-- In every run that nobody disturbs, a copy that has been started comes back to `FileMain` exactly
if nothing stops it.  What was chosen then stands in the directory that was pasted into, nothing
else has changed but the source of a move, and `FileMain` shows it. -/
theorem paste_comes_back (hroot : PlainPath d.rootPath) (htree : PlainTree fs)
    (hpath : PlainPath path)
    (hinside : Run.Along (State.step d) (fun _ e => e.Inside) (State.start d fs path) es)
    (hrun : Run.run (State.step d) (State.start d fs path) es = some s) {p : Pasting}
    {src tar : List Text} (hfront : s.front = .paste p)
    (hdialog : p.dialog = some (.progress src tar))
    (hlist : Listable d.toDisk s.fs p.view.currentPath) (hin : ¬ src <+: spot p.view.currentPath) :
    ((∃ u, Run.run (State.step d) s [.copied, .done] = some u) ↔
      Passable d.toDisk s.fs d.depth src tar) ∧
    ∀ u, Run.run (State.step d) s [.copied, .done] = some u → CanMake d.toDisk s.fs src tar →
      (∀ r, u.fs.node (tar ++ r) = s.fs.node (src ++ r)) ∧
      (∀ q, ¬ tar <+: q → (p.action = .move → ¬ src <+: q) → u.fs.node q = s.fs.node q) ∧
      u.main.currentPath = p.view.currentPath ∧ u.main.Truthful u.fs ∧
      ∃ f ∈ u.main.files, spot f.path = tar := by
  obtain ⟨hsane, hready⟩ := sane_and_ready_of_run hroot htree hpath hinside hrun
  obtain ⟨hfresh, n, hn, htar⟩ := fresh_of_ready hsane hready hfront hdialog hlist hin
  have hp := hsane.pasting hfront
  refine ⟨?_, fun u hu hmake => ?_⟩
  · rw [← transfer_returns_iff d p.action hfresh]
    constructor
    · rintro ⟨u, hu⟩
      exact ((step_copied hfront hdialog).mp hu).1
    · exact fun hret => ⟨_, (step_copied hfront hdialog).mpr ⟨hret, rfl⟩⟩
  · obtain ⟨hret, rfl⟩ := (step_copied hfront hdialog).mp hu
    have htarget := node_transfer_target hfresh hmake hret
    have hframe : ∀ q, ¬ tar <+: q → (p.action = .move → ¬ src <+: q) →
        (transfer d p.action src tar s.fs).2.node q = s.fs.node q :=
      fun q hq hq' => node_transfer hq hq'
    have hlist' := hlist.of_node (hframe _ (hlist.not_below hfresh.absent) fun _ => hin)
    have hplain : ∀ m ∈ tar, PlainName m := by
      rw [(hp.progress src tar hdialog).2]
      exact hp.plain_target
    have htree' := plainTree_transfer d p.action src hsane.tree hplain
    obtain ⟨hshows, hcur⟩ := View.shows_viewFiles (v := s.main) hp.view.path hlist'
    have htrue := hshows.truthful htree' (hsane.main.viewFiles htree' hp.view.path)
    refine ⟨htarget, hframe, hcur, htrue, ?_⟩
    refine ⟨⟨n, entryPath p.view.currentPath n, (transfer d p.action src tar s.fs).2.isDir tar⟩,
      (htrue.mem_iff _).mpr ⟨?_, ?_, ?_⟩, ?_⟩
    · rw [hcur, ← htar]
      have hroot := htarget []
      rw [List.append_nil, List.append_nil] at hroot
      rw [hroot]
      exact hfresh.source
    · rw [hcur]
    · rw [hcur, ← htar]
    · rw [htar]
      exact spot_entryPath hn

theorem step_paste {p : Pasting} {src tar : List Text} (hfront : s.front = .paste p)
    (hdialog : p.dialog = none)
    (htarget : pasteTarget s.fs p.source p.view.currentPath = some (src, tar)) :
    s.step d .paste = some (s.withPaste { p with dialog := some (.progress src tar) }) := by
  simp only [State.step, hfront, hdialog, State.stepPaste, htarget]

/-- Copy the inner directory beside the outer one. -/
theorem paste_beside : ∃ s u,
    Run.run (State.step openDevice) (State.start openDevice twoDirectories "/a")
      ([.longClick 0, .item .copy] ++ [.paste]) = some s ∧
    Run.run (State.step openDevice) s [.copied, .done] = some u ∧
      u.fs.node ["b".toList] = some .dir ∧ ∃ f ∈ u.main.files, spot f.path = ["b".toList] := by
  have hmain := main_start openDevice twoDirectories "/a" (f := ⟨"b", "/a/b", true⟩)
    (by decide +kernel)
  have hcopy := run_copy openDevice (s := State.start openDevice twoDirectories "/a") rfl
    (congrArg (·.files[0]?) hmain)
  have hcur := View.currentPath_viewFiles openDevice twoDirectories ⟨[], "/"⟩
  have htarget : pasteTarget twoDirectories (JavaFile.new "/a/b").getPath "/" =
      some (["a".toList, "b".toList], ["b".toList]) := by
    decide +kernel
  have hpaste := step_paste (d := openDevice)
    (s := (State.start openDevice twoDirectories "/a").pasteFile openDevice
      (JavaFile.new "/a/b").getPath .copy) rfl rfl
    ((congrArg (pasteTarget twoDirectories (JavaFile.new "/a/b").getPath) hcur).trans htarget)
  have hrun := @Run.run_append _ _ (State.step openDevice)
    (State.start openDevice twoDirectories "/a") [.longClick 0, .item .copy] [.paste]
  rw [hcopy, Option.bind_some, Run.run_cons, hpaste, Option.bind_some, Run.run_nil] at hrun
  have hin : Run.Along (State.step openDevice) (fun _ e => e.Inside)
      (State.start openDevice twoDirectories "/a") ([.longClick 0, .item .copy] ++ [.paste]) :=
    ⟨trivial, fun _ _ => ⟨trivial, fun _ _ => ⟨trivial, fun _ _ => trivial⟩⟩⟩
  have hroot : Listable openDevice.toDisk twoDirectories "/" := ⟨by decide +kernel, rfl⟩
  have hapart : ¬ ["a".toList, "b".toList] <+: spot "/" := by decide +kernel
  have hview := hcur.symm
  obtain ⟨hiff, hback⟩ := paste_comes_back (d := openDevice) plainPath_root plainTree_twoDirectories
    ⟨by decide +kernel, by decide +kernel⟩ hin hrun rfl rfl (hview ▸ hroot) (hview ▸ hapart)
  have hpass : Passable .sound twoDirectories 8 ["a".toList, "b".toList] ["b".toList] :=
    FileUtil.passable_sound (FileUtil.unlocked_of_paths (by decide +kernel)) (by decide +kernel)
  obtain ⟨u, hu⟩ := hiff.mpr hpass
  obtain ⟨hnodes, -, -, -, hshown⟩ := hback u hu fun _ _ => rfl
  have hinner : twoDirectories.node ["a".toList, "b".toList] = some .dir := by decide +kernel
  exact ⟨_, u, hrun, hu, (hnodes []).trans hinner, hshown⟩

end HapAndroid.FileBrowser
