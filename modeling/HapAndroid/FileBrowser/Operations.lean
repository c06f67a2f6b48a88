import HapAndroid.FileBrowser.Browser
import HapAndroid.FileBrowser.Move

/-!
# What the operations of the file browser do

Path names without dots mean the list of their names (`spot`), and the browser only goes to such
path names.  Each operation is described by the nodes that it changes, and keeps the trees in which
every name is one that an entry can have.
-/

namespace HapAndroid.FileBrowser

open FileUtil (Disk copyFile moveFile)

/-! ## Path names without dots -/

/-- The names of a path name. -/
def spot (path : Text) : List Text := (JavaFile.new path).names

/-- A path name without dots that is not empty. -/
structure PlainPath (path : Text) : Prop where
  names : (JavaFile.new path).Plain
  ne_nil : (JavaFile.new path).getPath ≠ []

/-- The path name of an entry of a directory. -/
def entryPath (dir n : Text) : Text := ((JavaFile.new dir).child n).getPath

/-- An entry of a directory. -/
def Within (dir path : Text) : Prop := ∃ n, PlainName n ∧ path = entryPath dir n

section
variable {dir path : Text} {fs : Files} {disk : Disk}

theorem new_entryPath (dir n : Text) :
    JavaFile.new (entryPath dir n) = (JavaFile.new dir).child n := JavaFile.new_getPath _

theorem spot_entryPath {n : Text} (hn : PlainName n) :
    spot (entryPath dir n) = spot dir ++ [n] := by
  rw [spot, new_entryPath, JavaFile.names_child _ hn.1 hn.2.2.2]
  rfl

/-- One name more. -/
theorem PlainPath.concat {n : Text} (hdir : PlainPath dir) (hn : PlainName n)
    (hspot : spot path = spot dir ++ [n]) : PlainPath path := by
  refine ⟨fun m hm => ?_, JavaFile.getPath_ne_nil fun hnil => ?_⟩
  · rw [← spot, hspot] at hm
    rcases List.mem_append.mp hm with hm | hm
    · exact hdir.names m hm
    · exact List.mem_singleton.mp hm ▸ hn
  · rw [← spot, hspot] at hnil
    simp at hnil

theorem PlainPath.entryPath {n : Text} (hdir : PlainPath dir) (hn : PlainName n) :
    PlainPath (entryPath dir n) := hdir.concat hn (spot_entryPath hn)

/-- The names of a combined path name. -/
theorem spot_combinPath (path name : Text) :
    spot (combinPath path name) = spot path ++ components name := by
  change components _ = components _ ++ _
  rw [combinPath]
  split
  · next hlast =>
    obtain ⟨q, rfl⟩ := List.getLast?_eq_some_iff.mp hlast
    rw [List.append_nil, List.append_assoc, List.singleton_append, components_append,
      components_append]
    exact congrArg (· ++ _) (List.append_nil _).symm
  · rw [List.append_assoc, List.singleton_append, components_append]

theorem spot_combinPath_plain {n : Text} (hn : PlainName n) :
    spot (combinPath path n) = spot path ++ [n] := by
  rw [spot_combinPath, components_single hn.1 hn.2.2.2]

theorem PlainPath.path_eq (h : PlainPath path) : (JavaFile.new path).path = spot path :=
  h.names.path_eq

theorem PlainPath.combinPath {n : Text} (h : PlainPath path) (hn : PlainName n) :
    PlainPath (combinPath path n) := h.concat hn (spot_combinPath_plain hn)

theorem PlainPath.existsIn_iff (h : PlainPath path) :
    (JavaFile.new path).existsIn fs = true ↔ fs.node (spot path) ≠ none :=
  JavaFile.existsIn_iff_of_plain h.names h.ne_nil

/-- The directory above a directory. -/
theorem PlainPath.parent {parentPath : Text} (h : PlainPath path)
    (hparent : (JavaFile.new path).getParent = some parentPath) :
    PlainPath parentPath ∧ spot path ≠ [] ∧ spot parentPath = (spot path).dropLast := by
  rw [JavaFile.getParent] at hparent
  split at hparent
  · cases hparent
  · next hcond =>
    rw [Option.some.injEq] at hparent
    subst hparent
    obtain ⟨hne, hrel⟩ := not_or.mp hcond
    refine ⟨⟨?_, ?_⟩, hne, by rw [spot, JavaFile.new_getPath]; rfl⟩
    · rw [JavaFile.new_getPath]
      exact fun n hn => h.names n (List.mem_of_mem_dropLast hn)
    · rw [JavaFile.new_getPath]
      by_cases habs : (JavaFile.new path).absolute = true
      · have hparent : (JavaFile.new path).parent.absolute = true := habs
        rw [JavaFile.getPath, if_pos hparent]
        simp
      · refine JavaFile.getPath_ne_nil fun hnil => hrel ⟨Bool.eq_false_iff.mpr habs, ?_⟩
        have hlen := congrArg List.length hnil
        rw [JavaFile.parent, List.length_dropLast, List.length_nil] at hlen
        have hpos := List.length_pos_of_ne_nil hne
        omega

theorem PlainPath.lookup (h : PlainPath path) (hnode : fs.node (spot path) ≠ none) :
    (JavaFile.new path).lookup fs = some (spot path) :=
  JavaFile.lookup_of_plain h.names h.ne_nil hnode

theorem PlainPath.eq_spot (h : PlainPath path) {p : List Text}
    (hp : (JavaFile.new path).lookup fs = some p) : p = spot path :=
  (JavaFile.lookup_eq_path hp).trans h.path_eq

/-- A directory that can be listed. -/
def Listable (disk : Disk) (fs : Files) (path : Text) : Prop :=
  fs.node (spot path) = some .dir ∧ disk.list (spot path) = true

theorem listable_of_getFiles (h : PlainPath path) {es : List FileInfo}
    (hes : getFiles disk fs path = some es) : Listable disk fs path := by
  obtain ⟨files, hfiles, -⟩ := Option.map_eq_some_iff.mp hes
  obtain ⟨p, hp, hlist⟩ := Option.bind_eq_some_iff.mp hfiles
  split at hlist
  · next hdir =>
    obtain ⟨hdir, hread⟩ := Bool.and_eq_true_iff.mp hdir
    rw [h.eq_spot hp] at hdir hread
    exact ⟨fs.isDir_iff.mp hdir, hread⟩
  · cases hlist

theorem Listable.getFiles (hlist : Listable disk fs path) (h : PlainPath path) :
    ∃ es, getFiles disk fs path = some es := by
  have hp : (JavaFile.new path).lookup fs = some (spot path) :=
    h.lookup (by rw [hlist.1]; simp)
  rw [FileBrowser.getFiles, listFiles, hp, Option.bind_some,
    if_pos (by rw [fs.isDir_iff.mpr hlist.1, hlist.2]; rfl)]
  exact ⟨_, rfl⟩

/-- A listing depends on its directory only. -/
theorem getFiles_congr {fs' : Files} (htree : PlainTree fs) (htree' : PlainTree fs')
    (h : PlainPath path) (hdir : fs'.node (spot path) = fs.node (spot path))
    (hentries : ∀ n, fs'.node (spot path ++ [n]) = fs.node (spot path ++ [n])) :
    getFiles disk fs' path = getFiles disk fs path := by
  have hhalf : ∀ {gs gs' : Files}, PlainTree gs → PlainTree gs' →
      gs'.node (spot path) = gs.node (spot path) →
      (∀ n, gs'.node (spot path ++ [n]) = gs.node (spot path ++ [n])) → ∀ es,
      FileBrowser.getFiles disk gs path = some es →
        FileBrowser.getFiles disk gs' path = some es := by
    intro gs gs' hgs hgs' hdir hentries es hes
    obtain ⟨p, hp, hisdir, hread, hsorted, hmem⟩ := (getFiles_eq_some_iff hgs).mp hes
    obtain rfl := h.eq_spot hp
    have hnode := gs.isDir_iff.mp hisdir
    have hp' : (JavaFile.new path).lookup gs' = some (spot path) :=
      h.lookup (by rw [hdir, hnode]; simp)
    refine (getFiles_eq_some_iff hgs').mpr ⟨spot path, hp', gs'.isDir_iff.mpr (hdir ▸ hnode), hread,
      hsorted, fun e => (hmem e).trans (exists_congr fun n => ?_)⟩
    rw [FileTree.existsAt, FileTree.existsAt, entry, entry, FileTree.isDir, FileTree.isDir,
      hentries n]
  refine Option.ext fun es => ⟨hhalf htree' htree hdir.symm (fun n => (hentries n).symm) es,
    hhalf htree htree' hdir hentries es⟩

end

/-! ## What the operations do to the files -/

section
variable {d : Device} {fs fs' : Files}

/-- Components that are pushed are plain. -/
theorem plain_path (f : JavaFile) : ∀ n ∈ f.path, PlainName n := by
  have hfold : ∀ (ns p : List Text), (∀ n ∈ ns, n ≠ [] ∧ '/' ∉ n) → (∀ n ∈ p, PlainName n) →
      ∀ n ∈ ns.foldl follow p, PlainName n := by
    intro ns
    induction ns with
    | nil => exact fun p _ hp => hp
    | cons c ns ih =>
        intro p hns hp
        obtain ⟨hc, hns⟩ := List.forall_mem_cons.mp hns
        refine ih _ hns ?_
        rw [follow]
        split
        · exact hp
        · next hdot =>
          split
          · exact fun n hn => hp n (List.mem_of_mem_dropLast hn)
          · next hdots =>
            intro n hn
            rcases List.mem_append.mp hn with hn | hn
            · exact hp n hn
            · rw [List.mem_singleton.mp hn]
              exact ⟨hc.1, fun h => hdot (.inr h), hdots, hc.2⟩
  exact hfold f.names [] f.ok fun n hn => absurd hn List.not_mem_nil

/-- `createDir` makes one directory, where nothing was. -/
theorem createDir_eq_some {path text : Text} (h : createDir d fs path text = some fs') :
    fs.node (JavaFile.new (combinPath path (trim text))).path = none ∧
      ∀ q, fs'.node q =
        if q = (JavaFile.new (combinPath path (trim text))).path then some .dir else fs.node q := by
  rw [createDir] at h
  split at h
  · cases h
  · simp only at h
    split at h
    · cases h
    · next hexists =>
      obtain ⟨p, hp, hmk⟩ := Option.bind_eq_some_iff.mp h
      split at hmk
      · obtain rfl := JavaFile.lookup_eq_path hp
        rw [JavaFile.existsIn, hp] at hexists
        exact ⟨by simpa [FileTree.existsAt] using hexists, fs.node_mkdir hmk⟩
      · cases hmk

/-- `renameFile` moves a file to where nothing was. -/
theorem renameFile_eq_some {f : JavaFile} {path text : Text}
    (h : renameFile d fs f path text = some fs') :
    ∃ tar, (∀ n ∈ tar, PlainName n) ∧ fs.node tar = none ∧ ¬ f.path <+: tar ∧
      ∀ q, fs'.node q = fs.movedNode f.path tar q := by
  rw [renameFile] at h
  split at h
  · cases h
  · split at h
    · cases h
    · simp only at h
      split at h
      · cases h
      · next hexists =>
        obtain ⟨src, hsrc, h⟩ := Option.bind_eq_some_iff.mp h
        obtain ⟨tar, htar, h⟩ := Option.bind_eq_some_iff.mp h
        split at h
        · obtain rfl := JavaFile.lookup_eq_path hsrc
          rw [JavaFile.existsIn, htar] at hexists
          have habs : fs.node tar = none := by simpa [FileTree.existsAt] using hexists
          have hne : f.path ≠ tar := by
            rintro rfl
            exact (fs.rename_self h).2 habs
          obtain ⟨-, -, hout, hnode⟩ := fs.node_rename h hne
          refine ⟨tar, ?_, habs, hout, hnode⟩
          rw [JavaFile.lookup_eq_path htar]
          exact plain_path _
        · cases h

theorem node_delete (d : Device) (fs : Files) (path : Text) (q : List Text) :
    (delete d fs path).node q = fs.node q ∨ (delete d fs path).node q = none := by
  rw [delete]
  split
  · exact FileUtil.node_deleteBelow ..
  · exact .inl rfl

theorem node_delete_of_not_below {path : Text} {q : List Text}
    (hq : ¬ (JavaFile.new path).path <+: q) : (delete d fs path).node q = fs.node q := by
  rw [delete]
  split
  · next p hp =>
    rw [JavaFile.lookup_eq_path hp]
    exact FileUtil.node_deleteBelow_of_not_below hq fs
  · rfl

/-- A copy or a move changes nothing outside its target, and for a move its source. -/
theorem node_transfer {action : Action} {src tar q : List Text} (htar : ¬ tar <+: q)
    (hsrc : action = .move → ¬ src <+: q) :
    (transfer d action src tar fs).2.node q = fs.node q := by
  have hcopy := @FileUtil.node_copyFile_of_not_below d.toDisk d.depth src tar q htar fs
  cases action with
  | copy => exact hcopy
  | move =>
      rw [transfer, moveFile]
      split
      · next fs' hmove =>
        rw [hmove] at hcopy
        rw [← hcopy]
        exact FileUtil.node_deleteBelow_of_not_below (hsrc rfl) fs'
      · next fs' hmove =>
        rw [hmove] at hcopy
        exact hcopy

theorem plainTree_copyFile (disk : Disk) (depth : Nat) (src : List Text) {tar : List Text}
    (htree : PlainTree fs) (htar : ∀ n ∈ tar, PlainName n) :
    PlainTree (copyFile disk depth src tar fs).2 := by
  induction depth generalizing src tar fs with
  | zero => exact htree
  | succ depth ih =>
      rw [copyFile]
      split
      · refine htree.of_node fun q hq => ?_
        rcases FileUtil.node_write disk tar _ fs q with he | ⟨rfl, -⟩
        · exact .inl (he ▸ hq)
        · exact .inr htar
      · exact htree
      · have hmade : PlainTree (FileUtil.mkdir disk tar fs) := by
          refine htree.of_node fun q hq => ?_
          rcases FileUtil.node_mkdir disk tar fs q with he | ⟨rfl, -⟩
          · exact .inl (he ▸ hq)
          · exact .inr htar
        split
        · refine FileUtil.each_invariant (I := PlainTree) (fun c hc gs hgs => ?_) hmade
          obtain ⟨n, rfl, hn⟩ := fs.mem_children.mp hc
          rw [FileUtil.childOf_concat]
          refine ih _ hgs fun m hm => ?_
          rcases List.mem_append.mp hm with hm | hm
          · exact htar m hm
          · exact List.mem_singleton.mp hm ▸ htree.name hn
        · exact hmade
      · exact htree

theorem plainTree_transfer (d : Device) (action : Action) (src : List Text) {tar : List Text}
    (htree : PlainTree fs) (htar : ∀ n ∈ tar, PlainName n) :
    PlainTree (transfer d action src tar fs).2 := by
  have hcopy := plainTree_copyFile d.toDisk d.depth src htree htar
  cases action with
  | copy => exact hcopy
  | move =>
      rw [transfer, moveFile]
      split
      · next fs' hmove =>
        rw [hmove] at hcopy
        refine hcopy.of_node fun q hq => .inl ?_
        rcases FileUtil.node_deleteBelow d.toDisk (fs'.height + 1) src fs' q with he | he
        · exact he ▸ hq
        · exact absurd he hq
      · next fs' hmove =>
        rw [hmove] at hcopy
        exact hcopy

theorem plainTree_delete (path : Text) (htree : PlainTree fs) : PlainTree (delete d fs path) := by
  refine htree.of_node fun q hq => .inl ?_
  rcases node_delete d fs path q with he | he
  · exact he ▸ hq
  · exact absurd he hq

theorem plainTree_createDir {path text : Text} (h : createDir d fs path text = some fs')
    (htree : PlainTree fs) : PlainTree fs' := by
  obtain ⟨-, hnode⟩ := createDir_eq_some h
  refine htree.of_node fun q hq => ?_
  rw [hnode] at hq
  split at hq
  · next hq' => exact .inr (hq' ▸ plain_path _)
  · exact .inl hq

theorem plainTree_renameFile {f : JavaFile} {path text : Text}
    (h : renameFile d fs f path text = some fs') (htree : PlainTree fs) : PlainTree fs' := by
  obtain ⟨tar, htar, -, -, hnode⟩ := renameFile_eq_some h
  refine htree.of_node fun q hq => ?_
  rw [hnode, FileTree.movedNode] at hq
  split at hq
  · next hpre =>
    obtain ⟨r, rfl⟩ := hpre
    rw [List.drop_left] at hq
    refine .inr fun n hn => ?_
    rcases List.mem_append.mp hn with hn | hn
    · exact htar n hn
    · exact htree _ hq n (List.mem_append_right _ hn)
  · split at hq
    · exact absurd rfl hq
    · exact .inl hq

end

end HapAndroid.FileBrowser
