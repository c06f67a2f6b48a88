import HapAndroid.FileBrowser.Operations

/-!
# Runs of the file browser

`Sane` holds in every run: the screens show entries of their directories, and a copy goes from an
entry of the directory of `FileMain` to one of the directory of `FilePasteFile`.  While nothing
changes the files from outside, what `fun_Paste` has found out still holds when its thread begins
(`Ready`).

`shows_current` says when the list of `FileMain` is that of its directory.  There are two ways for
the browser itself to make it wrong: a directory is made on the screen that pastes, which is then
cancelled (`cancel_leaves_stale`), or the directory to paste into goes with what is moved.
-/

namespace HapAndroid.FileBrowser

open FileUtil (childOf)

variable {d : Device}

/-! ## Lists -/

/-- A list of entries of its directory. -/
structure View.Sane (v : View) : Prop where
  path : PlainPath v.currentPath
  entries : ∀ f ∈ v.files, PlainName f.name ∧ f.path = entryPath v.currentPath f.name

theorem View.Sane.within {v : View} (h : v.Sane) {f : FileInfo} (hf : f ∈ v.files) :
    Within v.currentPath f.path := ⟨f.name, h.entries f hf⟩

/-- A new list, or the old one. -/
theorem View.viewFiles_cases (d : Device) (fs : Files) (path : Text) (v : View) :
    (∃ es, getFiles d.toDisk fs path = some es ∧ v.viewFiles d fs path = ⟨es, path⟩) ∨
      getFiles d.toDisk fs path = none ∧ v.viewFiles d fs path = v := by
  rw [View.viewFiles]
  cases getFiles d.toDisk fs path with
  | none => exact .inr ⟨rfl, rfl⟩
  | some es => exact .inl ⟨es, rfl, rfl⟩

theorem View.currentPath_viewFiles (d : Device) (fs : Files) (v : View) :
    (v.viewFiles d fs v.currentPath).currentPath = v.currentPath := by
  rcases v.viewFiles_cases d fs v.currentPath with ⟨es, -, h⟩ | ⟨-, h⟩ <;> rw [h]

theorem View.Sane.viewFiles {v : View} {fs : Files} {path : Text} (h : v.Sane)
    (htree : PlainTree fs) (hpath : PlainPath path) : (v.viewFiles d fs path).Sane := by
  rcases v.viewFiles_cases d fs path with ⟨es, hes, hview⟩ | ⟨-, hview⟩
  · rw [hview]
    refine ⟨hpath, fun f hf => ?_⟩
    obtain ⟨p, -, -, -, -, hmem⟩ := (getFiles_eq_some_iff htree).mp hes
    obtain ⟨n, hn, rfl⟩ := (hmem f).mp hf
    exact ⟨htree.name (fs.existsAt_iff.mp hn), rfl⟩
  · rwa [hview]

theorem View.Leads.plainPath {v : View} {path : Text} (hroot : PlainPath d.rootPath) (hv : v.Sane)
    (h : v.Leads d path) : PlainPath path := by
  cases h with
  | entry hf =>
      obtain ⟨hname, hpath⟩ := hv.entries _ hf
      rw [hpath]
      exact hv.path.entryPath hname
  | parent hparent => exact (hv.path.parent hparent).1
  | root => exact hroot
  | same => exact hv.path

/-! ## Screens -/

/-- What is pasted is an entry of the directory of `FileMain`, and goes into the directory that is
shown. -/
structure Pasting.Sane (dir : Text) (p : Pasting) : Prop where
  view : p.view.Sane
  source : Within dir p.source
  progress : ∀ src tar, p.dialog = some (.progress src tar) →
    src = spot p.source ∧ tar = childOf (spot p.view.currentPath) (spot p.source)

def Front.Sane (dir : Text) : Front → Prop
  | .main (some (.rename f)) => Within dir f
  | .paste p => p.Sane dir
  | _ => True

structure State.Sane (s : State) : Prop where
  tree : PlainTree s.fs
  main : s.main.Sane
  front : s.front.Sane s.main.currentPath

variable {s t : State} {e : Event}

theorem State.Sane.pasting (h : s.Sane) {p : Pasting} (hfront : s.front = .paste p) :
    p.Sane s.main.currentPath := by
  have hsane := h.front
  rwa [hfront] at hsane

/-- The source and the target of a copy, as they are when it is started. -/
theorem pasteTarget_eq_some {fs : Files} {dir cur source : Text} {src tar : List Text}
    (hdir : PlainPath dir) (hcur : PlainPath cur) (hsource : Within dir source)
    (h : pasteTarget fs source cur = some (src, tar)) :
    src = spot source ∧ tar = childOf (spot cur) (spot source) ∧ fs.node src ≠ none ∧
      fs.node tar = none := by
  obtain ⟨n, hn, rfl⟩ := hsource
  have hname : (JavaFile.new (entryPath dir n)).getName = n := by
    rw [new_entryPath, JavaFile.getName_child hn]
  have hsrc := hdir.entryPath hn
  have htar := hcur.combinPath hn
  simp only [pasteTarget, hname, hsrc.path_eq, htar.path_eq, hsrc.existsIn_iff] at h
  split at h
  · next hexists =>
    split at h
    · cases h
    · next habsent =>
      rw [htar.existsIn_iff, not_not] at habsent
      simp only [Option.some.injEq, Prod.mk.injEq] at h
      obtain ⟨rfl, rfl⟩ := h
      refine ⟨rfl, ?_, hexists, habsent⟩
      rw [spot_entryPath hn, FileUtil.childOf_concat, spot_combinPath_plain hn]
  · cases h

/-! ### Every step keeps the screens in order -/

theorem Pasting.Sane.plain_target {dir : Text} {p : Pasting} (h : p.Sane dir) :
    ∀ n ∈ childOf (spot p.view.currentPath) (spot p.source), PlainName n := by
  obtain ⟨n, hn, hsource⟩ := h.source
  rw [hsource, spot_entryPath hn, FileUtil.childOf_concat]
  intro m hm
  rcases List.mem_append.mp hm with hm | hm
  · exact h.view.path.names m hm
  · exact List.mem_singleton.mp hm ▸ hn

theorem Pasting.Sane.withView {dir : Text} {p : Pasting} {v : View} (h : p.Sane dir) (hv : v.Sane)
    (hdialog : p.dialog = none) : Pasting.Sane dir { p with view := v } :=
  ⟨hv, h.source, fun src tar hprogress => by cases hdialog.symm.trans hprogress⟩

theorem State.Sane.of_step (hroot : PlainPath d.rootPath) (h : s.Sane) (hstep : Step d s e t)
    (hout : ∀ fs, e = .outside fs → PlainTree fs) : t.Sane := by
  have hview : ∀ {path}, PlainPath path → (s.main.viewFiles d s.fs path).Sane :=
    fun hpath => h.main.viewFiles h.tree hpath
  cases hstep with
  | outside fs => exact ⟨hout fs rfl, h.main, h.front⟩
  | handle hne =>
      refine ⟨h.tree, hview h.main.path, ?_⟩
      have hfront := h.front
      rwa [← View.currentPath_viewFiles d s.fs s.main] at hfront
  | view hfront hpath =>
      refine ⟨h.tree, hview (hpath.plainPath hroot h.main), ?_⟩
      exact (show (s.view d _).front = .main none from hfront) ▸ trivial
  | menu hfront hf => exact ⟨h.tree, h.main, trivial⟩
  | @under _ _ o' hfront ho hmenu =>
      refine ⟨h.tree, h.main, ?_⟩
      change Front.Sane _ (.main o')
      unfold Front.Sane
      split
      · next hrename =>
        cases hrename
        obtain ⟨g, hg, rfl⟩ := ho
        exact h.main.within hg
      · next hpaste => cases hpaste
      · trivial
  | @delete _ _ f hfront hf =>
      have htree := plainTree_delete (d := d) f.path h.tree
      exact ⟨htree, h.main.viewFiles htree h.main.path, trivial⟩
  | @pasteFile _ _ f _ action hfront hf hm =>
      have hwithin := h.main.within (List.mem_of_getElem? hf)
      refine ⟨h.tree, h.main, ⟨?_, ?_, fun src tar hprogress => by cases hprogress⟩⟩
      · have hempty : View.Sane ⟨[], d.rootPath⟩ :=
          ⟨hroot, fun f hf => absurd hf List.not_mem_nil⟩
        exact hempty.viewFiles h.tree hroot
      · obtain ⟨n, hn, hpath⟩ := hwithin
        refine ⟨n, hn, ?_⟩
        rw [hpath, new_entryPath]
        rfl
  | createDir hfront hmade => exact ⟨plainTree_createDir hmade h.tree, h.main, trivial⟩
  | rename hfront hpath hrenamed => exact ⟨plainTree_renameFile hrenamed h.tree, h.main, trivial⟩
  | @ends _ _ front hfront hended =>
      refine ⟨h.tree, h.main, ?_⟩
      cases front with
      | main dialog => exact hended.elim
      | paste p => exact hended.elim
      | finished code filePath => trivial
      | crashed => trivial
  | stay hfront => exact h
  | viewPaste hfront hdialog hpath =>
      have hp := h.pasting hfront
      exact ⟨h.tree, h.main,
        hp.withView (hp.view.viewFiles h.tree (hpath.plainPath hroot hp.view)) hdialog⟩
  | @handlePaste p hfront =>
      have hp := h.pasting hfront
      refine ⟨h.tree, h.main, ⟨hp.view.viewFiles h.tree hp.view.path, hp.source, ?_⟩⟩
      have hprogress := hp.progress
      rwa [← View.currentPath_viewFiles d s.fs p.view] at hprogress
  | askPaste hfront hdialog =>
      have hp := h.pasting hfront
      exact ⟨h.tree, h.main, ⟨hp.view, hp.source, fun src tar hprogress => by cases hprogress⟩⟩
  | createPaste hfront hdialog hmade =>
      have hp := h.pasting hfront
      exact ⟨plainTree_createDir hmade h.tree, h.main,
        ⟨hp.view, hp.source, fun src tar hprogress => by cases hprogress⟩⟩
  | dropPaste hfront hdialog =>
      have hp := h.pasting hfront
      exact ⟨h.tree, h.main, ⟨hp.view, hp.source, fun src tar hprogress => by cases hprogress⟩⟩
  | paste hfront hdialog htarget =>
      have hp := h.pasting hfront
      obtain ⟨hsrc, htar, -⟩ := pasteTarget_eq_some h.main.path hp.view.path hp.source htarget
      refine ⟨h.tree, h.main, ⟨hp.view, hp.source, fun src tar hprogress => ?_⟩⟩
      cases hprogress
      exact ⟨hsrc, htar⟩
  | @copied p src tar fs hfront hdialog hcopied =>
      have hp := h.pasting hfront
      obtain ⟨-, htar⟩ := hp.progress src tar hdialog
      have htree := plainTree_transfer d p.action src h.tree
        (htar ▸ hp.plain_target)
      rw [hcopied] at htree
      exact ⟨htree, h.main, ⟨hp.view, hp.source, fun src tar hprogress => by cases hprogress⟩⟩
  | @failed p src tar fs hfront hdialog hfailed =>
      have hp := h.pasting hfront
      obtain ⟨-, htar⟩ := hp.progress src tar hdialog
      have htree := plainTree_transfer d p.action src h.tree
        (htar ▸ hp.plain_target)
      rw [hfailed] at htree
      exact ⟨htree, h.main, trivial⟩
  | done hfront hdialog =>
      have hp := h.pasting hfront
      exact ⟨h.tree, h.main.viewFiles h.tree hp.view.path, trivial⟩
  | cancel hfront hdialog => exact ⟨h.tree, h.main, trivial⟩

/-! ## A copy begins as it was checked -/

/-- The source of a copy that is to begin is there, and its target is not. -/
def State.Ready (s : State) : Prop :=
  ∀ p src tar, s.front = .paste p → p.dialog = some (.progress src tar) →
    s.fs.node src ≠ none ∧ s.fs.node tar = none

theorem State.Ready.of_dialog {p : Pasting} (hfront : t.front = .paste p)
    (hdialog : ∀ src tar, p.dialog ≠ some (.progress src tar)) : t.Ready := by
  intro p' src tar hp' hprogress
  cases hfront.symm.trans hp'
  exact absurd hprogress (hdialog src tar)

theorem State.Ready.of_front (hfront : ∀ p, t.front ≠ .paste p) : t.Ready :=
  fun p _ _ hp => absurd hp (hfront p)

/-- The screen that pastes has kept what lies over it. -/
theorem State.Ready.of_same (h : s.Ready) {p p' : Pasting} (hfront : s.front = .paste p)
    (hfront' : t.front = .paste p') (hdialog : p'.dialog = p.dialog) (hfs : t.fs = s.fs) :
    t.Ready := by
  intro q src tar hq hprogress
  cases hfront'.symm.trans hq
  rw [hfs]
  exact h p src tar hfront (hdialog ▸ hprogress)

/-- Nobody but the browser changes the files. -/
def Event.Inside : Event → Prop
  | .outside _ => False
  | _ => True

theorem State.Ready.of_step (hs : s.Sane) (h : s.Ready) (hstep : Step d s e t) (he : e.Inside) :
    t.Ready := by
  have hmain : ∀ {o}, s.front = .main o → ∀ p, s.front ≠ .paste p := by
    intro o ho p hp
    cases ho.symm.trans hp
  cases hstep with
  | outside fs => exact he.elim
  | handle hne => exact h
  | view hfront hpath => exact .of_front (hmain hfront)
  | menu hfront hf => exact .of_front fun p hp => by cases hp
  | under hfront ho hmenu => exact .of_front fun p hp => by cases hp
  | delete hfront hf => exact .of_front fun p hp => by cases hp
  | pasteFile hfront hf hm => exact .of_dialog rfl fun src tar hprogress => by cases hprogress
  | createDir hfront hmade => exact .of_front fun p hp => by cases hp
  | rename hfront hpath hrenamed => exact .of_front fun p hp => by cases hp
  | ends hfront hended =>
      refine .of_front fun p hp => ?_
      change _ = Front.paste p at hp
      subst hp
      exact hended
  | stay hfront => exact h
  | viewPaste hfront hdialog hpath => exact h.of_same hfront rfl rfl rfl
  | handlePaste hfront => exact h.of_same hfront rfl rfl rfl
  | askPaste hfront hdialog => exact .of_dialog rfl fun src tar hprogress => by cases hprogress
  | createPaste hfront hdialog hmade =>
      exact .of_dialog rfl fun src tar hprogress => by cases hprogress
  | dropPaste hfront hdialog => exact .of_dialog rfl fun src tar hprogress => by cases hprogress
  | paste hfront hdialog htarget =>
      have hp := hs.pasting hfront
      obtain ⟨-, -, hsrc, htar⟩ := pasteTarget_eq_some hs.main.path hp.view.path hp.source htarget
      intro p' src' tar' hp' hprogress
      cases hp'
      cases hprogress
      exact ⟨hsrc, htar⟩
  | copied hfront hdialog hcopied =>
      exact .of_dialog rfl fun src tar hprogress => by cases hprogress
  | failed hfront hdialog hfailed => exact .of_front fun p hp => by cases hp
  | done hfront hdialog => exact .of_front fun p hp => by cases hp
  | cancel hfront hdialog => exact .of_front fun p hp => by cases hp

/-! ## The list of `FileMain` -/

/-- The list is that of the directory as it is now. -/
def View.Shows (d : Device) (fs : Files) (v : View) : Prop :=
  getFiles d.toDisk fs v.currentPath = some v.files

section
variable {fs fs' : Files} {v : View} {path : Text}

theorem View.Shows.listable (hv : v.Sane) (h : v.Shows d fs) :
    Listable d.toDisk fs v.currentPath := listable_of_getFiles hv.path h

/-- A directory that can be listed is shown. -/
theorem View.shows_viewFiles (hpath : PlainPath path) (h : Listable d.toDisk fs path) :
    (v.viewFiles d fs path).Shows d fs ∧ (v.viewFiles d fs path).currentPath = path := by
  obtain ⟨es, hes⟩ := h.getFiles hpath
  rcases v.viewFiles_cases d fs path with ⟨es', hes', hview⟩ | ⟨hnone, -⟩
  · rw [hview]
    exact ⟨hes', rfl⟩
  · rw [hes] at hnone
    cases hnone

theorem Listable.of_node (h : Listable d.toDisk fs path)
    (hnode : fs'.node (spot path) = fs.node (spot path)) : Listable d.toDisk fs' path :=
  ⟨hnode.trans h.1, h.2⟩

/-- A new directory leaves the directories that there are. -/
theorem Listable.createDir {dir text : Text} (h : Listable d.toDisk fs path)
    (hmade : createDir d fs dir text = some fs') : Listable d.toDisk fs' path := by
  obtain ⟨habs, hnode⟩ := createDir_eq_some hmade
  refine h.of_node ?_
  rw [hnode, if_neg]
  intro hq
  rw [← hq, h.1] at habs
  cases habs

/-- Where nothing is, a directory that is there does not lie below. -/
theorem Listable.not_below {tar : List Text} (h : Listable d.toDisk fs path)
    (htar : fs.node tar = none) : ¬ tar <+: spot path := by
  rintro ⟨r, hr⟩
  exact fs.exists_of_append (r := r) (by rw [hr, h.1]; simp) htar

/-- The rename of an entry leaves its directory. -/
theorem Listable.renameFile {f dir text : Text} (hpath : PlainPath path) (hf : Within path f)
    (h : Listable d.toDisk fs path) (hrenamed : renameFile d fs (.new f) dir text = some fs') :
    Listable d.toDisk fs' path := by
  obtain ⟨n, hn, rfl⟩ := hf
  obtain ⟨tar, -, habs, -, hnode⟩ := renameFile_eq_some hrenamed
  refine h.of_node ?_
  rw [hnode, FileTree.movedNode, if_neg (h.not_below habs), if_neg]
  rw [(hpath.entryPath hn).path_eq, spot_entryPath hn]
  exact FileTree.not_concat_prefix

/-- The deletion of an entry leaves its directory. -/
theorem Listable.delete {f : Text} (hpath : PlainPath path) (hf : Within path f)
    (h : Listable d.toDisk fs path) : Listable d.toDisk (delete d fs f) path := by
  obtain ⟨n, hn, rfl⟩ := hf
  refine h.of_node (node_delete_of_not_below ?_)
  rw [(hpath.entryPath hn).path_eq, spot_entryPath hn]
  exact FileTree.not_concat_prefix

end

/-- The list is right as soon as no message is left and no copy has just ended. -/
structure State.Fresh (d : Device) (s : State) : Prop where
  listable : Listable d.toDisk s.fs s.main.currentPath
  shows : s.messages = 0 →
    (∀ p, s.front = .paste p → p.dialog = some .copied →
      ¬ Listable d.toDisk s.fs p.view.currentPath) → s.main.Shows d s.fs

/-- What the browser may do for its list to stay right: it makes no directory in the directory of
`FileMain` while it pastes, and moves nothing into itself or to where nothing can be listed. -/
def Tidy (d : Device) (s : State) : Event → Prop
  | .outside _ => False
  | .ok text => ∀ p path, s.front = .paste p → p.dialog = some (.createDir path) →
      (JavaFile.new (combinPath path (trim text))).path.dropLast ≠ spot s.main.currentPath
  | .copied => ∀ p src tar, s.front = .paste p → p.dialog = some (.progress src tar) →
      p.action = .move → Listable d.toDisk s.fs p.view.currentPath ∧
        ¬ src <+: spot p.view.currentPath
  | _ => True

theorem Tidy.inside (h : Tidy d s e) : e.Inside := by
  cases e <;> first | exact h | trivial

/-- The files and the list are the same. -/
theorem State.Fresh.of_same (h : s.Fresh d) (hfs : t.fs = s.fs) (hmain : t.main = s.main)
    (hmessages : t.messages = s.messages)
    (hdialog : ∀ p, s.front = .paste p → p.dialog ≠ some .copied) : t.Fresh d := by
  refine ⟨by rw [hfs, hmain]; exact h.listable, fun hquiet _ => ?_⟩
  rw [hfs, hmain]
  exact h.shows (hmessages ▸ hquiet) fun p hp hcopied => absurd hcopied (hdialog p hp)

theorem State.fresh_of_shows (hs : s.main.Sane) (h : s.main.Shows d s.fs) : s.Fresh d :=
  ⟨h.listable hs, fun _ _ => h⟩

/-- Another directory is shown, or the list stays. -/
theorem State.Fresh.view {path : Text} (hs : (s.view d path).main.Sane)
    (h : ¬ Listable d.toDisk s.fs path → s.Fresh d) (hpath : PlainPath path) :
    (s.view d path).Fresh d := by
  rcases s.main.viewFiles_cases d s.fs path with ⟨es, hes, hview⟩ | ⟨hnone, hview⟩
  · refine fresh_of_shows hs ?_
    rw [State.view, hview]
    exact hes
  · have hsame : s.view d path = s := by rw [State.view, hview]
    rw [hsame]
    refine h fun hlist => ?_
    obtain ⟨es, hes⟩ := hlist.getFiles hpath
    cases hnone.symm.trans hes

/-- A copy leaves the directory of `FileMain`, and its list as well unless it goes there. -/
theorem State.Fresh.copied {p : Pasting} {src tar : List Text} {fs : Files} (hs : s.Sane)
    (h : s.Fresh d) (hready : s.Ready) (hfront : s.front = .paste p)
    (hdialog : p.dialog = some (.progress src tar)) (htidy : Tidy d s .copied)
    (hcopied : transfer d p.action src tar s.fs = (true, fs))
    (htree : PlainTree fs) :
    State.Fresh d { s with fs, front := .paste { p with dialog := some .copied } } := by
  have hp := hs.pasting hfront
  obtain ⟨hsrc, htar⟩ := hp.progress src tar hdialog
  obtain ⟨-, habs⟩ := hready p src tar hfront hdialog
  obtain ⟨n, hn, hsource⟩ := hp.source
  have hsrc' : src = spot s.main.currentPath ++ [n] := by
    rw [hsrc, hsource, spot_entryPath hn]
  have htar' : tar = spot p.view.currentPath ++ [n] := by
    rw [htar, hsource, spot_entryPath hn, FileUtil.childOf_concat]
  have hframe : ∀ q, ¬ tar <+: q → (p.action = .move → ¬ src <+: q) → fs.node q = s.fs.node q := by
    intro q hq hq'
    have hnode : (transfer d p.action src tar s.fs).2.node q = s.fs.node q := node_transfer hq hq'
    rwa [hcopied] at hnode
  have hmain : fs.node (spot s.main.currentPath) = s.fs.node (spot s.main.currentPath) :=
    hframe _ (h.listable.not_below habs) fun _ => hsrc' ▸ FileTree.not_concat_prefix
  refine ⟨h.listable.of_node hmain, fun hquiet hlost => ?_⟩
  have hnotListable := hlost _ rfl rfl
  -- The directory that is pasted into can be listed no more, so this was no move.
  have hcopy : p.action ≠ .move := by
    intro hmove
    obtain ⟨hlist, hout⟩ := htidy p src tar hfront hdialog hmove
    exact hnotListable (hlist.of_node (hframe _ (hlist.not_below habs) fun _ => hout))
  have hshows : s.main.Shows d s.fs :=
    h.shows hquiet fun q hq hcopied' => by
      cases hfront.symm.trans hq
      cases hdialog.symm.trans hcopied'
  refine (getFiles_congr hs.tree htree hs.main.path hmain fun m => ?_).trans hshows
  refine hframe _ (fun hpre => ?_) fun hmove => absurd hmove hcopy
  rw [htar'] at hpre
  rcases List.prefix_concat_iff.mp hpre with heq | hpre
  · obtain ⟨hsame, -⟩ := List.append_inj' heq rfl
    refine hnotListable ⟨?_, ?_⟩
    · rw [hsame, hmain]
      exact h.listable.1
    · rw [hsame]
      exact h.listable.2
  · exact h.listable.not_below habs (htar' ▸ hpre)

/-- A directory that is made elsewhere. -/
theorem shows_createDir {fs : Files} {path text : Text} (hs : s.Sane) (hlist : s.main.Shows d s.fs)
    (hmade : createDir d s.fs path text = some fs)
    (hout : (JavaFile.new (combinPath path (trim text))).path.dropLast ≠ spot s.main.currentPath) :
    s.main.Shows d fs := by
  have htree := plainTree_createDir hmade hs.tree
  have hlist' := (hlist.listable hs.main).createDir hmade
  obtain ⟨-, hnode⟩ := createDir_eq_some hmade
  refine (getFiles_congr hs.tree htree hs.main.path ?_ fun n => ?_).trans hlist
  · rw [hlist'.1, (hlist.listable hs.main).1]
  · rw [hnode, if_neg]
    intro hq
    rw [← hq, List.dropLast_concat] at hout
    exact hout rfl

theorem State.Fresh.of_step (hroot : PlainPath d.rootPath) (hs : s.Sane) (hs' : t.Sane)
    (hready : s.Ready) (h : s.Fresh d) (hstep : Step d s e t) (htidy : Tidy d s e) :
    t.front.Ended ∨ t.Fresh d := by
  have hmain : ∀ {o}, s.front = .main o → ∀ p, s.front = .paste p → p.dialog ≠ some .copied := by
    intro o ho p hp
    cases ho.symm.trans hp
  have hpaste : ∀ {p}, s.front = .paste p → p.dialog ≠ some .copied →
      ∀ q, s.front = .paste q → q.dialog ≠ some .copied := by
    intro p hp hdialog q hq
    cases hp.symm.trans hq
    exact hdialog
  cases hstep with
  | outside fs => exact htidy.elim
  | handle hne =>
      exact .inr (fresh_of_shows hs'.main (View.shows_viewFiles hs.main.path h.listable).1)
  | view hfront hpath => exact .inr (.view hs'.main (fun _ => h) (hpath.plainPath hroot hs.main))
  | menu hfront hf => exact .inr (h.of_same rfl rfl rfl (hmain hfront))
  | under hfront ho hmenu => exact .inr (h.of_same rfl rfl rfl (hmain hfront))
  | @delete _ _ f hfront hf =>
      have hlist := h.listable.delete hs.main.path (hs.main.within (List.mem_of_getElem? hf))
      exact .inr (fresh_of_shows hs'.main (View.shows_viewFiles hs.main.path hlist).1)
  | pasteFile hfront hf hm => exact .inr (h.of_same rfl rfl rfl (hmain hfront))
  | createDir hfront hmade =>
      exact .inr ⟨h.listable.createDir hmade, fun hquiet _ => by cases hquiet⟩
  | @rename f _ _ _ hfront hpath hrenamed =>
      have hf := hs.front
      rw [hfront] at hf
      exact .inr ⟨h.listable.renameFile hs.main.path hf hrenamed, fun hquiet _ => by cases hquiet⟩
  | ends hfront hended => exact .inl hended
  | stay hfront => exact .inr h
  | viewPaste hfront hdialog hpath =>
      exact .inr (h.of_same rfl rfl rfl (hpaste hfront (by simp [hdialog])))
  | @handlePaste p hfront =>
      refine .inr ⟨h.listable, fun hquiet hlost => h.shows hquiet fun q hq hcopied => ?_⟩
      cases hfront.symm.trans hq
      have hlist := hlost _ rfl hcopied
      rwa [View.currentPath_viewFiles] at hlist
  | askPaste hfront hdialog =>
      exact .inr (h.of_same rfl rfl rfl (hpaste hfront (by simp [hdialog])))
  | createPaste hfront hdialog hmade =>
      refine .inr ⟨h.listable.createDir hmade, fun hquiet _ => ?_⟩
      have hshows := h.shows hquiet fun q hq hcopied =>
        absurd hcopied (hpaste hfront (by simp [hdialog]) q hq)
      have hmade' := shows_createDir hs hshows hmade (htidy _ _ hfront hdialog)
      exact hmade'
  | dropPaste hfront hdialog =>
      exact .inr (h.of_same rfl rfl rfl (hpaste hfront (by simp [hdialog])))
  | paste hfront hdialog htarget =>
      exact .inr (h.of_same rfl rfl rfl (hpaste hfront (by simp [hdialog])))
  | copied hfront hdialog hcopied =>
      exact .inr (h.copied hs hready hfront hdialog htidy hcopied hs'.tree)
  | failed hfront hdialog hfailed => exact .inl trivial
  | @done p hfront hdialog =>
      refine .inr (.view hs'.main (fun hlost => ?_) (hs.pasting hfront).view.path)
      refine ⟨h.listable, fun hquiet _ => h.shows hquiet fun q hq _ => ?_⟩
      cases hfront.symm.trans hq
      exact hlost
  | cancel hfront hdialog => exact .inr (h.of_same rfl rfl rfl (hpaste hfront (by simp [hdialog])))

/-! ## Runs -/

theorem View.currentPath_start (d : Device) (fs : Files) (path : Text) :
    (State.start d fs path).main.currentPath = path :=
  View.currentPath_viewFiles d fs ⟨[], path⟩

section
variable {fs : Files} {path : Text} {es : List Event}

theorem sane_start (htree : PlainTree fs) (hpath : PlainPath path) :
    (State.start d fs path).Sane := by
  have hempty : View.Sane ⟨[], path⟩ := ⟨hpath, fun f hf => absurd hf List.not_mem_nil⟩
  exact ⟨htree, hempty.viewFiles htree hpath, trivial⟩

theorem ready_start : (State.start d fs path).Ready := .of_front fun p hp => by cases hp

theorem sane_and_ready_step (hroot : PlainPath d.rootPath) (h : s.Sane ∧ s.Ready) (he : e.Inside)
    (hstep : s.step d e = some t) : t.Sane ∧ t.Ready := by
  have hout : ∀ fs, e = .outside fs → PlainTree fs := by
    rintro fs rfl
    exact he.elim
  exact ⟨h.1.of_step hroot (step_of_eq hstep) hout, h.2.of_step h.1 (step_of_eq hstep) he⟩

theorem sane_and_ready_of_run (hroot : PlainPath d.rootPath) (htree : PlainTree fs)
    (hpath : PlainPath path)
    (hin : Run.Along (State.step d) (fun _ e => e.Inside) (State.start d fs path) es)
    (hrun : Run.run (State.step d) (State.start d fs path) es = some s) : s.Sane ∧ s.Ready :=
  Run.run_invariant_of (fun _ _ _ h he hstep => sane_and_ready_step hroot h he hstep) es
    ⟨sane_start htree hpath, ready_start⟩ hin hrun

/-- The screens are closed for good. -/
theorem ended_of_step (h : s.front.Ended) (hstep : s.step d e = some t) : t.front.Ended := by
  have hstep := step_of_eq hstep
  cases hfront : s.front with
  | main dialog => exact (hfront ▸ h).elim
  | paste p => exact (hfront ▸ h).elim
  | finished code filePath =>
      cases hstep with
      | outside fs => exact h
      | handle hne => exact h
      | _ => simp_all
  | crashed =>
      cases hstep with
      | outside fs => exact h
      | handle hne => exact h
      | _ => simp_all

/-- A list holds the entries of its directory, each once, in the order of the comparator. -/
structure View.Truthful (fs : Files) (v : View) : Prop where
  sorted : v.files.Pairwise fun a b => compare a b < 0
  mem_iff : ∀ f, f ∈ v.files ↔ fs.node (spot v.currentPath ++ [f.name]) ≠ none ∧
    f.path = entryPath v.currentPath f.name ∧
    f.isDirectory = fs.isDir (spot v.currentPath ++ [f.name])

theorem View.Shows.truthful {v : View} (htree : PlainTree fs) (hv : v.Sane) (h : v.Shows d fs) :
    v.Truthful fs := by
  obtain ⟨p, hp, -, -, hsorted, hmem⟩ := (getFiles_eq_some_iff htree).mp h
  obtain rfl := hv.path.eq_spot hp
  refine ⟨hsorted, fun f => (hmem f).trans ?_⟩
  constructor
  · rintro ⟨n, hn, rfl⟩
    exact ⟨fs.existsAt_iff.mp hn, rfl, rfl⟩
  · rintro ⟨hn, hpath, hdir⟩
    refine ⟨f.name, fs.existsAt_iff.mpr hn, ?_⟩
    obtain ⟨name, path, isDirectory⟩ := f
    simp only at hpath hdir
    rw [hpath, hdir]
    rfl

/-- In every tidy run the list of `FileMain`, when it is in front and has handled its messages, is
that of its directory. -/
theorem shows_current (hroot : PlainPath d.rootPath) (htree : PlainTree fs) (hpath : PlainPath path)
    (hlist : Listable d.toDisk fs path)
    (htidy : Run.Along (State.step d) (Tidy d) (State.start d fs path) es)
    (hrun : Run.run (State.step d) (State.start d fs path) es = some s) {dialog : Option Dialog}
    (hfront : s.front = .main dialog) (hquiet : s.messages = 0) : s.main.Truthful s.fs := by
  have hstart : (State.start d fs path).Fresh d :=
    State.fresh_of_shows (sane_start htree hpath).main (View.shows_viewFiles hpath hlist).1
  have hstep : ∀ s e t, (s.Sane ∧ s.Ready) ∧ (s.front.Ended ∨ s.Fresh d) → Tidy d s e →
      s.step d e = some t → (t.Sane ∧ t.Ready) ∧ (t.front.Ended ∨ t.Fresh d) := by
    rintro s e t ⟨hsr, hended | hfresh⟩ htidy hstep
    · exact ⟨sane_and_ready_step hroot hsr htidy.inside hstep, .inl (ended_of_step hended hstep)⟩
    · have hsr' := sane_and_ready_step hroot hsr htidy.inside hstep
      exact ⟨hsr', hfresh.of_step hroot hsr.1 hsr'.1 hsr.2 (step_of_eq hstep) htidy⟩
  obtain ⟨⟨hsane, -⟩, hended | hfresh⟩ := Run.run_invariant_of hstep es
    ⟨⟨sane_start htree hpath, ready_start⟩, .inr hstart⟩ htidy hrun
  · rw [hfront] at hended
    exact hended.elim
  · refine (hfresh.shows hquiet fun p hp => ?_).truthful hsane.tree hsane.main
    cases hfront.symm.trans hp

/-- A device that refuses nothing. -/
def openDevice : Device where
  toDisk := .sound
  rename _ _ := true
  equalsIgnoreCase s t := s == t
  depth := 8
  rootPath := "/"

theorem plainPath_root : PlainPath "/" :=
  ⟨fun _ hn => absurd hn List.not_mem_nil, List.cons_ne_nil _ _⟩

theorem plainTree_of_paths (h : ∀ p ∈ fs.paths, ∀ n ∈ p, PlainName n) : PlainTree fs :=
  fun p hp => h p (fs.mem_paths hp)

/-- Make a directory in the directory that is shown. -/
theorem run_create (hfront : s.front = .main none) (hmessages : s.messages = 0) {text : Text}
    {fs' : Files} (hmade : createDir d s.fs s.main.currentPath text = some fs') :
    Run.run (State.step d) s [.createDir, .ok text, .message] =
      some ((⟨fs', s.main, 0, .main none⟩ : State).view d s.main.currentPath) := by
  have hcreate : s.step d .createDir =
      some (s.under (some (.createDir s.main.currentPath))) := by
    simp only [State.step, hfront, State.stepMain]
  refine Run.run_cons_eq_some.mpr ⟨_, hcreate, Run.run_cons_eq_some.mpr ⟨s.changed fs', ?_, ?_⟩⟩
  · simp only [State.step, State.under, State.stepMain, hmade]
    rfl
  · simp only [Run.run_cons, State.step, State.changed, State.under, State.handle, hmessages]
    rfl

/-- A directory that is made is in the list. -/
theorem shows_created : ∃ s, Run.run (State.step openDevice) (State.start openDevice .bare "/")
    [.createDir, .ok "b".toList, .message] = some s ∧ s.main.Truthful s.fs ∧
      s.fs.node ["b".toList] = some .dir := by
  have hcur := View.currentPath_start openDevice .bare "/"
  obtain ⟨fs', hmade⟩ : ∃ fs', createDir openDevice .bare "/" "b".toList = some fs' :=
    Option.isSome_iff_exists.mp (by decide +kernel)
  have hrun := run_create (s := State.start openDevice .bare "/") rfl rfl
    ((congrArg (createDir openDevice .bare · _) hcur).trans hmade)
  refine ⟨_, hrun, shows_current plainPath_root (plainTree_of_paths (by decide)) plainPath_root
    ⟨rfl, rfl⟩ ?_ hrun rfl rfl, ?_⟩
  · refine ⟨trivial, fun t ht => ⟨fun p path hp => ?_, fun u _ => ⟨trivial, fun _ _ => trivial⟩⟩⟩
    cases ht
    cases hp
  · have hnode := (createDir_eq_some hmade).2 ["b".toList]
    exact hnode.trans (if_pos (by decide +kernel))

/-- Make a directory on the screen that pastes, and cancel. -/
theorem run_create_cancel {p : Pasting} (hfront : s.front = .paste p) (hdialog : p.dialog = none)
    {text : Text} {fs' : Files} (hmade : createDir d s.fs p.view.currentPath text = some fs') :
    Run.run (State.step d) s [.createDir, .ok text, .pasteMessage, .cancel] =
      some { s with fs := fs', front := .main none } := by
  have hcreate : s.step d .createDir =
      some (s.withPaste { p with dialog := some (.createDir p.view.currentPath) }) := by
    simp only [State.step, hfront, hdialog, State.stepPaste]
  refine Run.run_cons_eq_some.mpr ⟨_, hcreate, Run.run_cons_eq_some.mpr
    ⟨{ s with fs := fs', front := .paste { p with dialog := none, messages := p.messages + 1 } },
      ?_, rfl⟩⟩
  simp only [State.step, State.withPaste, State.stepPaste, hmade]

/-- A directory that is made on the screen that pastes is missing in the list of `FileMain`, if
both show the same directory and the screen is cancelled, and no message is left that would have
`FileMain` read its directory again. -/
theorem cancel_leaves_stale (hroot : PlainPath d.rootPath) (htree : PlainTree fs)
    (hpath : PlainPath path)
    (hin : Run.Along (State.step d) (fun _ e => e.Inside) (State.start d fs path) es)
    (hrun : Run.run (State.step d) (State.start d fs path) es = some s)
    (htrue : s.main.Truthful s.fs) (hquiet : s.messages = 0) {p : Pasting}
    (hfront : s.front = .paste p) (hdialog : p.dialog = none)
    (hsame : p.view.currentPath = s.main.currentPath) {text : Text}
    (hname : PlainName (trim text)) {fs' : Files}
    (hmade : createDir d s.fs p.view.currentPath text = some fs') :
    ∃ t, Run.run (State.step d) s [.createDir, .ok text, .pasteMessage, .cancel] = some t ∧
      t.front = .main none ∧ t.messages = 0 ∧
      t.fs.node (spot t.main.currentPath ++ [trim text]) = some .dir ∧
      (∀ f ∈ t.main.files, f.name ≠ trim text) ∧ ¬ t.main.Truthful t.fs := by
  obtain ⟨hsane, -⟩ := sane_and_ready_of_run hroot htree hpath hin hrun
  obtain ⟨habs, hnode⟩ := createDir_eq_some hmade
  rw [hsame, (hsane.main.path.combinPath hname).path_eq, spot_combinPath_plain hname] at habs hnode
  have hdir : fs'.node (spot s.main.currentPath ++ [trim text]) = some .dir :=
    (hnode _).trans (if_pos rfl)
  -- The list is the one from before, and the name was free then.
  have hmissing : ∀ f ∈ s.main.files, f.name ≠ trim text := by
    intro f hf heq
    have hthere := ((htrue.mem_iff f).mp hf).1
    rw [heq] at hthere
    exact hthere habs
  refine ⟨_, run_create_cancel hfront hdialog hmade, rfl, hquiet, hdir, hmissing, fun htrue' => ?_⟩
  have hmem := (htrue'.mem_iff ⟨trim text, entryPath s.main.currentPath (trim text), true⟩).mpr
    ⟨by simp [hdir], rfl, by simp [FileTree.isDir, hdir]⟩
  exact hmissing _ hmem rfl

/-- A directory with a directory in it. -/
def twoDirectories : Files :=
  ((FileTree.bare.mkdir ["a".toList]).bind (·.mkdir ["a".toList, "b".toList])).getD .bare

theorem plainTree_twoDirectories : PlainTree twoDirectories :=
  plainTree_of_paths (by decide +kernel)

/-- A directory with one entry is shown. -/
theorem main_start (d : Device) (fs : Files) (path : Text) {f : FileInfo}
    (h : (listFiles d.toDisk fs (.new path)).map (·.map (fileInfo fs)) = some [f]) :
    (State.start d fs path).main = ⟨[f], path⟩ := by
  have hlist : getFiles d.toDisk fs path = some [f] := by
    have hsort := congrArg (Option.map sort) h
    rwa [Option.map_map, Option.map_some, sort, List.mergeSort_singleton] at hsort
  rcases View.viewFiles_cases d fs path ⟨[], path⟩ with ⟨es, hes, hview⟩ | ⟨hnone, -⟩
  · cases hlist.symm.trans hes
    exact hview
  · cases hlist.symm.trans hnone

/-- Choose to copy the first file. -/
theorem run_copy (d : Device) {f : FileInfo} (hfront : s.front = .main none)
    (hf : s.main.files[0]? = some f) :
    Run.run (State.step d) s [.longClick 0, .item .copy] =
      some (s.pasteFile d (JavaFile.new f.path).getPath .copy) := by
  have hmenu : s.step d (.longClick 0) = some (s.under (some (.menu 0 f.name))) := by
    simp only [State.step, hfront, State.stepMain, hf, Option.map_some]
  refine Run.run_cons_eq_some.mpr ⟨_, hmenu, Run.run_cons_eq_some.mpr ⟨_, ?_, rfl⟩⟩
  simp only [State.step, State.under, State.stepMain, hf, State.select]
  rfl

/-- A directory that is made while another is about to be pasted beside it. -/
theorem created_then_cancelled : ∃ s t,
    Run.run (State.step openDevice) (State.start openDevice twoDirectories "/")
      [.longClick 0, .item .copy] = some s ∧
    Run.run (State.step openDevice) s [.createDir, .ok "b".toList, .pasteMessage, .cancel] =
      some t ∧
      (∀ f ∈ t.main.files, f.name ≠ "b".toList) ∧ ¬ t.main.Truthful t.fs := by
  have htree := plainTree_twoDirectories
  have hmain := main_start openDevice twoDirectories "/" (f := ⟨"a", "/a", true⟩)
    (by decide +kernel)
  have hrun := run_copy openDevice (s := State.start openDevice twoDirectories "/") rfl
    (congrArg (·.files[0]?) hmain)
  have hpaste := View.currentPath_viewFiles openDevice twoDirectories ⟨[], "/"⟩
  obtain ⟨fs', hmade⟩ : ∃ fs', createDir openDevice twoDirectories "/" "b".toList = some fs' :=
    Option.isSome_iff_exists.mp (by decide +kernel)
  have hroot : Listable openDevice.toDisk twoDirectories "/" := ⟨by decide +kernel, rfl⟩
  have htrue : (State.start openDevice twoDirectories "/").main.Truthful twoDirectories :=
    (View.shows_viewFiles (v := ⟨[], "/"⟩) plainPath_root hroot).1.truthful htree
      (sane_start htree plainPath_root).main
  have hin : Run.Along (State.step openDevice) (fun _ e => e.Inside)
      (State.start openDevice twoDirectories "/") [.longClick 0, .item .copy] :=
    ⟨trivial, fun _ _ => ⟨trivial, fun _ _ => trivial⟩⟩
  obtain ⟨t, ht, -, -, -, hstale⟩ := cancel_leaves_stale plainPath_root htree plainPath_root hin
    hrun htrue rfl rfl rfl
    (hpaste.trans (View.currentPath_start openDevice twoDirectories "/").symm)
    (by decide +kernel) ((congrArg (createDir openDevice twoDirectories · _) hpaste).trans hmade)
  exact ⟨_, t, hrun, ht, hstale⟩

end

end HapAndroid.FileBrowser
