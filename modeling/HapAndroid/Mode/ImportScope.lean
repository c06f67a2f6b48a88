import HapAndroid.Mode.Transfer

/-!
# Where an import writes

The name of an imported mode is read from the file, which anyone can have made, and goes
into path names as it is.  The directory of that name is made, with the missing ones above
it, and the parts are written into it.  Nothing looks at slashes or at `..`.

A file reaches the application in two ways, as the result 21 of the file browser and with
an intent.  `import_confined_iff` has the imports that stay in the directory of one mode,
for both and for every state of the files.
-/

namespace HapAndroid

namespace MainActivity

/-- The two ways of a file into the application. -/
inductive Source where
  /-- The result 21 of the file browser. -/
  | chosen (path : Text)
  /-- The data of an intent. -/
  | viewed (u : Uri)

section
variable (ser : Serial) (fileExtension : Text → Text)

/-- The object of a file whose name is accepted. -/
def Source.object (fs : Files) : Source → Option MHP
  | .chosen path =>
      if (".mhp" : Text).isSuffixOf path then (fs.readFile (toPath fs path)).bind ser.read else none
  | .viewed u =>
      if fileExtension u.text = ("mhp" : Text) then
        (u.path.bind fun path => fs.readFile (toPath fs path)).bind ser.read
      else none

/-- The whole import: the screen after it. -/
def importFrom (env : Env) (a : MainActivity) : Source → MainActivity
  | .chosen path =>
      match importFile env ser a path with
      | none => a
      | some (a', task, job) => (runImport env a' task job).1
  | .viewed u =>
      match viewIntent env ser fileExtension a u with
      | none => a
      | some (task, job) => (runImport env a task job).1

/-- Whatever the storage and the cipher do, what changes is in the directory of the one
mode, which is an entry of the private directory. -/
def Confined (filePath : Text) (a : MainActivity) (src : Source) : Prop :=
  ∀ env : Env, env.filePath = filePath → ∀ q,
    (importFrom ser fileExtension env a src).dev.fs.node q ≠ a.dev.fs.node q →
      ∃ m name c, src.object ser fileExtension a.dev.fs = some m ∧ m.name = some name ∧
        toPath a.dev.fs (inDir filePath name) = toPath a.dev.fs filePath ++ [c] ∧
          toPath a.dev.fs filePath ++ [c] <+: q

end

/-! ## The files after an import -/

section
variable {ser : Serial} {fileExtension : Text → Text} {env : Env} {a : MainActivity}
  {src : Source}

theorem importFile_eq (fileExtension : Text → Text) (path : Text) :
    importFile env ser a path =
      (((Source.chosen path).object ser fileExtension a.dev.fs).bind (importTask env a)).map fun t =>
        ({ a with dev := ⟨a.dev.fs, rememberDir a.dev.sp (getParent path)⟩ }, t) := by
  rw [importFile, Source.object]
  split
  · simp only [Option.bind_eq_bind, Option.bind_assoc, Option.map_eq_bind]
    rfl
  · rfl

theorem viewIntent_eq (u : Uri) :
    viewIntent env ser fileExtension a u =
      ((Source.viewed u).object ser fileExtension a.dev.fs).bind (importTask env a) := by
  rw [viewIntent, Source.object]
  split
  · simp only [Option.bind_eq_bind, Option.bind_assoc]
  · rfl

/-- A file without an object, or whose object has no name, changes nothing. -/
theorem importFrom_nothing
    (h : ∀ m name, src.object ser fileExtension a.dev.fs = some m → m.name ≠ some name) :
    importFrom ser fileExtension env a src = a := by
  have htask : (src.object ser fileExtension a.dev.fs).bind (importTask env a) = none := by
    rw [Option.bind_eq_none_iff]
    intro m hm
    rw [importTask, Option.map_eq_none_iff]
    exact Option.eq_none_iff_forall_ne_some.mpr fun name => h m name hm
  cases src with
  | chosen path => rw [importFrom, importFile_eq fileExtension, htask, Option.map_none]
  | viewed u => rw [importFrom, viewIntent_eq, htask]

/-- An object with a name is imported by one task, whichever way it came. -/
theorem importFrom_object {m : MHP} {name : Text}
    (hobj : src.object ser fileExtension a.dev.fs = some m) (hname : m.name = some name) :
    ∃ b : MainActivity, b.dev.fs = a.dev.fs ∧ importFrom ser fileExtension env a src =
      (runImport env b (taskAt env b.i name) (.mhp m.connection m.get m.post)).1 := by
  have htask : importTask env a m =
      some (taskAt env a.i name, .mhp m.connection m.get m.post) := by
    rw [importTask, hname]
    rfl
  cases src with
  | chosen path =>
      refine ⟨{ a with dev := ⟨a.dev.fs, rememberDir a.dev.sp (getParent path)⟩ }, rfl, ?_⟩
      rw [importFrom, importFile_eq fileExtension, hobj, Option.bind_some, htask]
      rfl
  | viewed u =>
      refine ⟨a, rfl, ?_⟩
      rw [importFrom, viewIntent_eq, hobj, Option.bind_some, htask]

variable {m : MHP} {name : Text}

/-- Where the directory cannot be made, what was made on the way stays. -/
theorem importFrom_refused (hobj : src.object ser fileExtension a.dev.fs = some m)
    (hname : m.name = some name) {fs : Files}
    (hmk : mkdirs env.st a.dev.fs (inDir env.filePath name) = (false, fs)) :
    (importFrom ser fileExtension env a src).dev.fs = fs := by
  obtain ⟨b, hb, himport⟩ := @importFrom_object _ _ env _ _ _ _ hobj hname
  rw [himport, runImport_refused _ (by rwa [hb])]

/-- Where it is made, the parts are written after it. -/
theorem importFrom_made (hobj : src.object ser fileExtension a.dev.fs = some m)
    (hname : m.name = some name) {fs : Files}
    (hmk : mkdirs env.st a.dev.fs (inDir env.filePath name) = (true, fs)) :
    ∃ b : MainActivity, (importFrom ser fileExtension env a src).dev.fs =
      ((taskAt env b.i name).doMhp env.des env.st m.connection m.get m.post
        ⟨fs, putSlot b.dev.sp b.i name⟩).1.fs := by
  obtain ⟨b, hb, himport⟩ := @importFrom_object _ _ env _ _ _ _ hobj hname
  exact ⟨b, himport ▸ (runImport_made _ (by rwa [hb])).2⟩

/-- An import into an entry of a private directory that is there changes nothing outside
that entry. -/
theorem node_importFrom_outside (hobj : src.object ser fileExtension a.dev.fs = some m)
    (hname : m.name = some name) {c : Text}
    (hentry : toPath a.dev.fs (inDir env.filePath name) = toPath a.dev.fs env.filePath ++ [c])
    (hdir : a.dev.fs.node (toPath a.dev.fs env.filePath) = some .dir) {q : List Text}
    (hq : ¬ toPath a.dev.fs env.filePath ++ [c] <+: q) :
    (importFrom ser fileExtension env a src).dev.fs.node q = a.dev.fs.node q := by
  rcases hmk : mkdirs env.st a.dev.fs (inDir env.filePath name) with ⟨ok, fs⟩
  have hmade : fs.node q = a.dev.fs.node q := by
    refine (node_mkdirs hmk q).resolve_right ?_
    -- The directories above the entry are there already.
    rintro ⟨hpre, hnone, -⟩
    rw [hentry, List.prefix_concat_iff] at hpre
    rcases hpre with rfl | hpre
    · exact hq (List.prefix_refl _)
    · rw [a.dev.fs.dir_of_prefix hpre hdir] at hnone
      cases hnone
  cases ok with
  | false => rw [importFrom_refused hobj hname hmk, hmade]
  | true =>
      obtain ⟨b, hb⟩ := importFrom_made hobj hname hmk
      rw [hb, HPStart.doMhp_only _ _ _ _ _ _ _ ?_, hmade]
      rintro part hmem rfl
      refine hq ?_
      rw [toPath_partFile (plain_of_mem_parts part hmem)]
      refine List.IsPrefix.trans ?_ (List.prefix_append _ _)
      rw [← hentry]
      exact (toPath_mkdirs hmk (noDots_of_mkdirs hmk)).symm ▸ List.prefix_refl _

/-- What the preparation makes is there after the import, also when it fails. -/
theorem importFrom_keeps (hobj : src.object ser fileExtension a.dev.fs = some m)
    (hname : m.name = some name) {q : List Text}
    (hq : (mkdirs env.st a.dev.fs (inDir env.filePath name)).2.node q ≠ none) :
    (importFrom ser fileExtension env a src).dev.fs.node q ≠ none := by
  rcases hmk : mkdirs env.st a.dev.fs (inDir env.filePath name) with ⟨ok, fs⟩
  rw [hmk] at hq
  cases ok with
  | false => rwa [importFrom_refused hobj hname hmk]
  | true =>
      obtain ⟨b, hb⟩ := importFrom_made hobj hname hmk
      rw [hb]
      exact HPStart.doMhp_keeps _ _ _ _ _ _ _ hq

/-! ## Where the directories of a name are -/

variable {filePath : Text}

/-- In a confined import every missing directory that can be made for the name is in the
directory of the mode. -/
theorem Confined.missing (h : Confined ser fileExtension filePath a src)
    (hobj : src.object ser fileExtension a.dev.fs = some m) (hname : m.name = some name)
    (hfree : a.dev.fs.node (toPath a.dev.fs (inDir filePath name)) = none) {q : List Text}
    (hq : q <+: toPath a.dev.fs (inDir filePath name)) (hnone : a.dev.fs.node q = none)
    (hreach : a.dev.fs.Reaches Storage.sound.makes q) :
    ∃ c, toPath a.dev.fs (inDir filePath name) = toPath a.dev.fs filePath ++ [c] ∧
      toPath a.dev.fs filePath ++ [c] <+: q := by
  let env : Env := ⟨filePath, .bare, .plain, .sound⟩
  have hmade : (mkdirs env.st a.dev.fs (inDir env.filePath name)).2.node q = some .dir :=
    FileTree.mkdirs_made hfree hq hreach
  obtain ⟨m', name', c, hobj', hname', hentry, hpre⟩ := h env rfl q (by
    rw [hnone]
    exact importFrom_keeps hobj hname (by simp [hmade]))
  obtain rfl : m = m' := Option.some.inj (hobj.symm.trans hobj')
  obtain rfl : name = name' := Option.some.inj (hname.symm.trans hname')
  exact ⟨c, hentry, hpre⟩

/-- So the name leads to an entry of the private directory, which is there. -/
theorem Confined.entry (h : Confined ser fileExtension filePath a src)
    (hobj : src.object ser fileExtension a.dev.fs = some m) (hname : m.name = some name)
    (hblocked : ¬ a.dev.fs.Blocked (toPath a.dev.fs (inDir filePath name))) :
    (∃ c, toPath a.dev.fs (inDir filePath name) = toPath a.dev.fs filePath ++ [c]) ∧
      a.dev.fs.node (toPath a.dev.fs filePath) = some .dir := by
  rw [← stuck_sound_iff] at hblocked
  obtain ⟨hfree, hstuck⟩ := not_or.mp hblocked
  push Not at hfree hstuck
  obtain ⟨q, hq, hnone, hreach⟩ := hstuck
  obtain ⟨c, hentry, hpre⟩ := h.missing hobj hname hfree hq hnone hreach
  refine ⟨⟨c, hentry⟩, ?_⟩
  -- The step above the entry is passed too, and is not in the entry.
  have hup : toPath a.dev.fs filePath <+: q := (List.prefix_append _ _).trans hpre
  rcases hreach (toPath a.dev.fs filePath) hup with hdir | ⟨hmissing, -⟩
  · exact hdir
  · obtain ⟨c', -, hup'⟩ := h.missing hobj hname hfree (hup.trans hq) hmissing
      (hreach.above hup)
    exact absurd hup' FileTree.not_concat_prefix

/-- An import stays in the directory of one mode exactly when nothing can be made for its
name, or when the name leads to an entry of a private directory that is there. -/
theorem import_confined_iff (ser : Serial) (fileExtension : Text → Text) (filePath : Text)
    (a : MainActivity) (src : Source) :
    Confined ser fileExtension filePath a src ↔
      ∀ m name, src.object ser fileExtension a.dev.fs = some m → m.name = some name →
        a.dev.fs.Blocked (toPath a.dev.fs (inDir filePath name)) ∨
          (∃ c, toPath a.dev.fs (inDir filePath name) = toPath a.dev.fs filePath ++ [c]) ∧
            a.dev.fs.node (toPath a.dev.fs filePath) = some .dir := by
  constructor
  · intro h m name hobj hname
    exact or_iff_not_imp_left.mpr (h.entry hobj hname)
  · rintro h env rfl q hchanged
    by_cases hobject : ∀ m name, src.object ser fileExtension a.dev.fs = some m →
        m.name ≠ some name
    · rw [importFrom_nothing hobject] at hchanged
      exact absurd rfl hchanged
    · push Not at hobject
      obtain ⟨m, name, hobj, hname⟩ := hobject
      rcases h m name hobj hname with hblocked | ⟨⟨c, hentry⟩, hdir⟩
      · have hstuck : a.dev.fs.Stuck env.st.makes _ := hblocked.stuck
        have hsame := FileTree.mkdirs_unchanged_iff.mpr hstuck
        rcases hmk : mkdirs env.st a.dev.fs (inDir env.filePath name) with ⟨ok, fs⟩
        rw [← mkdirs, hmk] at hsame
        cases ok with
        | false => exact absurd ((importFrom_refused hobj hname hmk) ▸ hsame q) hchanged
        | true =>
            have hmade := (hsame _).symm.trans (mkdirs_dir hmk).2
            rw [(mkdirs_dir hmk).1] at hmade
            cases hmade
      · refine ⟨m, name, c, hobj, hname, hentry, ?_⟩
        by_contra hq
        exact hchanged (node_importFrom_outside hobj hname hentry hdir hq)

end

/-- A serialization of one object, whose name goes up one directory. -/
def upwardSerial : Serial := ⟨fun _ => [1], fun _ => some (mhpOf "../x" "")⟩

/-- A device with the private directory and a file to import. -/
def downloaded : MainActivity :=
  .blank (((FileTree.ofDirs [["d".toList]] : Files).writeFile ["a.mhp".toList] [1]).getD .bare)

/-- A part beside the private directory is not in the directory of a mode. -/
theorem not_confined_of_beside {src : Source}
    (h : (importFrom upwardSerial (fun _ => "mhp") .plain downloaded src).dev.fs.node
      ["x".toList, getHp] = some (.file [])) :
    ¬ Confined upwardSerial (fun _ => "mhp") "/d" downloaded src := by
  intro hconf
  obtain ⟨-, -, c, -, -, -, hpre⟩ := hconf .plain rfl _ (by rw [h]; decide +kernel)
  have hcons : ["d".toList, c] <+: ["x".toList, getHp] := hpre
  rw [List.cons_prefix_cons] at hcons
  exact absurd hcons.1 (by decide)

/-- The name leads beside the private directory, whichever way the file came. -/
theorem import_leaves :
    ¬ Confined upwardSerial (fun _ => "mhp") "/d" downloaded (.chosen "/a.mhp") ∧
      ¬ Confined upwardSerial (fun _ => "mhp") "/d" downloaded
        (.viewed ⟨"file:///a.mhp", some "/a.mhp".toList⟩) :=
  ⟨not_confined_of_beside (by decide +kernel), not_confined_of_beside (by decide +kernel)⟩

end MainActivity

end HapAndroid
