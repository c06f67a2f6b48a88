import HapAndroid.Byml.MainActivity

/-!
# Export and import

An exported mode is an MHP object: the name and the three parts, encrypted and
written as hexadecimal text, serialised to a file.  An import reads the object
and runs the `mhp` job, which makes the directory, writes the numbered
preference, and then decrypts and writes one part after the other.

An export followed by an import gives the files back.  A failed import leaves
things as they were only when it fails at the first directory it has to make: a
directory further on fails when its parents have been made, and a part that
cannot be decrypted is found when the directory and the preference have been
written.
-/

namespace HapAndroid

namespace MainActivity

variable (env : Env)

/-- Run the task of an import to its end: the screen after it and the result. -/
def runImport (a : MainActivity) (task : HPStart) (job : Job) : MainActivity × Result :=
  let pre := task.onPreExecute env.st a.dev
  let r := pre.1.doInBackground env.con env.des env.st pre.2.1 job
  match pre.1.onPostExecute r.2.2 with
  | .send (.imported name) => (appendMode { a with dev := r.1 } name, r.2.2)
  | _ => ({ a with dev := r.1 }, r.2.2)

/-- The preferences, the files, the counter and the list are as before. -/
structure Unchanged (a a' : MainActivity) : Prop where
  prefs : ∀ key, a'.dev.sp.get key = a.dev.sp.get key
  files : ∀ q, a'.dev.fs.node q = a.dev.fs.node q
  count : a'.i = a.i
  titles : a'.mData = a.mData

variable {env}

theorem importTask_eq_some {a : MainActivity} {m : MHP} {task : HPStart} {job : Job}
    (h : a.importTask env m = some (task, job)) :
    ∃ name, m.name = some name ∧ task = taskAt env a.i name ∧
      job = .mhp m.connection m.get m.post := by
  obtain ⟨name, hname, heq⟩ := Option.map_eq_some_iff.mp h
  cases heq
  exact ⟨name, hname, rfl, rfl⟩

/-! ## Failed imports -/

theorem runImport_refused {a : MainActivity} {name : Text} {fs : Files} (job : Job)
    (hmk : mkdirs env.st a.dev.fs (inDir env.filePath name) = (false, fs)) :
    runImport env a (taskAt env a.i name) job = ({ a with dev := ⟨fs, a.dev.sp⟩ }, .nothing) := by
  obtain ⟨fs', ⟨hmk', -⟩ | ⟨hmk', hpre, hdev⟩⟩ :=
    HPStart.onPreExecute_add (h := taskAt env a.i name) env.st a.dev rfl rfl
  · rw [taskAt, hmk] at hmk'
    cases hmk'
  · rw [taskAt, hmk] at hmk'
    cases hmk'
    rw [runImport, hpre, hdev]
    rfl

/-- When the directory is made, the job runs on a device that has it. -/
theorem runImport_made {a : MainActivity} {name : Text} {fs : Files} (job : Job)
    (hmk : mkdirs env.st a.dev.fs (inDir env.filePath name) = (true, fs)) :
    (runImport env a (taskAt env a.i name) job).2 =
        ((taskAt env a.i name).runJob env.con env.des env.st
          ⟨fs, putSlot a.dev.sp a.i name⟩ job).2.2 ∧
      (runImport env a (taskAt env a.i name) job).1.dev.fs =
        ((taskAt env a.i name).runJob env.con env.des env.st
          ⟨fs, putSlot a.dev.sp a.i name⟩ job).1.fs := by
  obtain ⟨fs', ⟨hmk', hpre, hdev⟩ | ⟨hmk', -⟩⟩ :=
    HPStart.onPreExecute_add (h := taskAt env a.i name) env.st a.dev rfl rfl
  · rw [taskAt, hmk] at hmk'
    cases hmk'
    rw [runImport, hpre, hdev]
    simp only [HPStart.doInBackground, taskAt, if_true]
    split
    · exact ⟨rfl, rfl⟩
    · exact ⟨rfl, rfl⟩
  · rw [taskAt, hmk] at hmk'
    cases hmk'

/-- An import that does not succeed leaves everything as it was exactly when not
even the first missing directory could be made. -/
theorem failed_import_unchanged_iff {a : MainActivity} {m : MHP} {name : Text} {task : HPStart}
    {job : Job} (hname : m.name = some name) (htask : a.importTask env m = some (task, job))
    (hfail : (runImport env a task job).2 ≠ .imported) :
    Unchanged a (runImport env a task job).1 ↔
      a.dev.fs.Stuck env.st.makes (toPath a.dev.fs (inDir env.filePath name)) := by
  obtain ⟨name', hname', rfl, rfl⟩ := importTask_eq_some htask
  have hsame : name = name' := Option.some.inj (hname.symm.trans hname')
  subst hsame
  rw [← FileTree.mkdirs_unchanged_iff, ← mkdirs]
  rcases hmk : mkdirs env.st a.dev.fs (inDir env.filePath name) with ⟨ok, fs⟩
  cases ok with
  | false =>
      rw [runImport_refused _ hmk]
      exact ⟨fun h => h.files, fun h => ⟨fun _ => rfl, h, rfl, rfl⟩⟩
  | true =>
      -- The directory was not there, and is not removed again.
      have hdir := mkdirs_dir hmk
      refine iff_of_false (fun hun => ?_) (fun hfs => ?_)
      · have hfiles := hun.files (toPath a.dev.fs (inDir env.filePath name))
        rw [(runImport_made _ hmk).2, hdir.1] at hfiles
        refine absurd hfiles (HPStart.doMhp_keeps _ env.des env.st _ _ _ _ ?_)
        rw [hdir.2]
        simp
      · have hnone := (hfs _).trans hdir.1
        rw [hdir.2] at hnone
        cases hnone

/-- An object with a name and one text for all parts. -/
def mhpOf (name part : Text) : MHP := ⟨some name, some part, some part, some part⟩

/-- A screen on a device where the directory of the mode exists. -/
def takenScreen : MainActivity := .blank (.ofDirs [[("d" : Text), ("a" : Text)]])

/-- The directory of the imported mode exists. -/
theorem failed_import_unchanged_taken :
    Unchanged takenScreen (runImport .plain takenScreen (taskAt .plain 0 "a")
      (.mhp (some []) (some []) (some []))).1 := by
  refine (@failed_import_unchanged_iff .plain takenScreen (mhpOf "a" []) "a" _ _ rfl rfl ?_).mpr ?_
  · decide +kernel
  · exact .inl (by decide +kernel)

/-- An import whose first part is not hexadecimal registers a mode without files. -/
theorem failed_import_changes :
    (runImport .plain (.blank .bare) (taskAt .plain 0 "a")
        (.mhp (some "zz") (some []) (some []))).2 ≠ .imported ∧
      (runImport .plain (.blank .bare) (taskAt .plain 0 "a")
        (.mhp (some "zz") (some []) (some []))).1.dev.sp.getString? (modeKey 0) =
          some ("a" : Text) ∧
      (MainActivity.blank .bare).dev.sp.getString? (modeKey 0) = none := by
  decide +kernel

/-! ## Round trip -/

/-- An export that reports success leaves the object in the file. -/
theorem exportMode_true {ser : Serial} {a : MainActivity} {path : Text} {fs : Files}
    (hpath : ∀ part ∈ parts,
      toPath a.dev.fs path ≠ toPath a.dev.fs (partFile env.filePath a.nowName part))
    (h : exportMode env ser a path = (true, fs)) :
    fs.readFile (toPath fs path) = some (ser.write (exportMhp env a.dev.fs a.nowName)) := by
  rw [exportMode] at h
  split at h
  · cases h
  · next fs1 m hobj =>
    obtain ⟨fs1', hopen, heq⟩ := Option.map_eq_some_iff.mp hobj
    obtain ⟨rfl, rfl⟩ := Prod.mk.inj heq
    -- The parts are read after the file was opened, and are not the file.
    have hpart : ∀ part ∈ parts, FileTool.readSDFile fs1' (partFile env.filePath a.nowName part) =
        FileTool.readSDFile a.dev.fs (partFile env.filePath a.nowName part) := by
      intro part hmem
      rw [FileTool.readSDFile, FileTool.readSDFile, FileTool.toPath_openWrite hopen,
        FileTool.node_openWrite_of_ne hopen (Ne.symm (hpath part hmem))]
    have hsame : exportMhp env fs1' a.nowName = exportMhp env a.dev.fs a.nowName := by
      simp only [exportMhp, hpart getHp (by decide), hpart postHp (by decide),
        hpart connectionHp (by decide)]
    rw [hsame] at h
    have hflag : (FileTool.writeBytes env.st (ser.write (exportMhp env a.dev.fs a.nowName)) path
        fs1').1 = true := by rw [h]
    have hwrite := FileTool.node_writeBytes_self hflag
    rw [← FileTool.toPath_writeBytes, h] at hwrite
    exact fs.readFile_eq_some.mpr hwrite

/-- One write of a part below the directory of its mode, when the file is not
there yet. -/
theorem node_writePart_new {filePath mName : Text} (s : Text) (fs : Files) (part : Text)
    (hpart : part ∈ parts) (hdir : fs.node (toPath fs (inDir filePath mName)) = some .dir)
    (hnew : fs.node (toPath fs (inDir filePath mName) ++ [part]) = none) (q : List Text) :
    (FileTool.writeSDFile .sound s (partFile filePath mName part) fs).2.node q =
      if q = toPath fs (inDir filePath mName) ++ [part] then some (.file (Utf8.encode s))
      else fs.node q := by
  have hpath : toPath fs (partFile filePath mName part) =
      toPath fs (inDir filePath mName) ++ [part] :=
    toPath_partFile (plain_of_mem_parts part hpart) filePath mName
  rw [FileTool.node_writeSDFile_sound s, hpath]
  · rw [hpath]; simp
  · rw [hpath, List.dropLast_concat]; exact hdir
  · rw [hpath]; exact hnew

/-- The `mhp` job in a new directory writes the three parts. -/
theorem doMhp_new_directory {task : HPStart} {des : Cipher} {d : Device}
    {connection get post : Option Text} {s : Text → Text}
    (hdir : d.fs.node (toPath d.fs (inDir task.filePath task.mName)) = some .dir)
    (hempty : ∀ n, d.fs.node (toPath d.fs (inDir task.filePath task.mName) ++ [n]) = none)
    (hc : DesUtils.decrypt des connection = some (s connectionHp))
    (hg : DesUtils.decrypt des get = some (s getHp))
    (hp : DesUtils.decrypt des post = some (s postHp)) :
    (task.doMhp des .sound connection get post d).2.2 = .imported ∧
      ∀ part ∈ parts, (task.doMhp des .sound connection get post d).1.fs.node
        (toPath d.fs (partFile task.filePath task.mName part)) =
          some (.file (Utf8.encode (s part))) := by
  have hother : ∀ {x y : Text}, x ≠ y → toPath d.fs (inDir task.filePath task.mName) ++ [x] ≠
      toPath d.fs (inDir task.filePath task.mName) ++ [y] := by
    intro x y hxy h
    exact hxy (List.cons.inj (List.append_cancel_left h)).1
  have hself : ∀ x : Text, toPath d.fs (inDir task.filePath task.mName) ≠
      toPath d.fs (inDir task.filePath task.mName) ++ [x] := by
    intro x
    simp
  -- The path of the directory is the same for every write.
  have hwrite : ∀ (str : Text) (fs : Files) (part : Text), part ∈ parts →
      toPath fs (inDir task.filePath task.mName) = toPath d.fs (inDir task.filePath task.mName) →
      fs.node (toPath d.fs (inDir task.filePath task.mName)) = some .dir →
      fs.node (toPath d.fs (inDir task.filePath task.mName) ++ [part]) = none → ∀ q,
      (FileTool.writeSDFile .sound str (partFile task.filePath task.mName part) fs).2.node q =
        if q = toPath d.fs (inDir task.filePath task.mName) ++ [part]
        then some (.file (Utf8.encode str)) else fs.node q := by
    intro str fs part hpart hsame hd hn
    rw [← hsame] at hd hn ⊢
    exact node_writePart_new str fs part hpart hd hn
  have h1 := hwrite (s connectionHp) d.fs connectionHp (by decide) rfl hdir (hempty _)
  have h2 := hwrite (s getHp) _ getHp (by decide) (FileTool.toPath_writeSDFile ..)
    (by rw [h1, if_neg (hself _)]; exact hdir)
    (by rw [h1, if_neg (hother (by decide))]; exact hempty _)
  have h3 := hwrite (s postHp) _ postHp (by decide)
    ((FileTool.toPath_writeSDFile ..).trans (FileTool.toPath_writeSDFile ..))
    (by rw [h2, if_neg (hself _), h1, if_neg (hself _)]; exact hdir)
    (by rw [h2, if_neg (hother (by decide)), h1, if_neg (hother (by decide))]; exact hempty _)
  simp only [HPStart.doMhp, HPStart.importPart, hc, hg, hp, Option.map_some, true_and]
  intro part hmem
  rw [toPath_partFile (plain_of_mem_parts part hmem), h3]
  by_cases hpost : part = postHp
  · rw [if_pos (by rw [hpost]), hpost]
  · rw [if_neg (hother hpost), h2]
    by_cases hget : part = getHp
    · rw [if_pos (by rw [hget]), hget]
    · have hconn : part = connectionHp := by
        simpa [parts, hpost, hget] using hmem
      rw [if_neg (hother hget), h1, hconn, if_pos rfl]

/-- An import whose parts can be decrypted writes them. -/
theorem runImport_parts {b : MainActivity} {name : Text} {connection get post : Option Text}
    {s : Text → Text} {fs : Files} (hst : env.st = .sound)
    (hmk : mkdirs env.st b.dev.fs (inDir env.filePath name) = (true, fs))
    (hc : DesUtils.decrypt env.des connection = some (s connectionHp))
    (hg : DesUtils.decrypt env.des get = some (s getHp))
    (hp : DesUtils.decrypt env.des post = some (s postHp)) :
    (runImport env b (taskAt env b.i name) (.mhp connection get post)).2 = .imported ∧
      ∀ part ∈ parts, (runImport env b (taskAt env b.i name) (.mhp connection get post)).1.dev.fs.node
        (toPath (runImport env b (taskAt env b.i name) (.mhp connection get post)).1.dev.fs
          (partFile env.filePath name part)) = some (.file (Utf8.encode (s part))) := by
  have hrun := runImport_made (.mhp connection get post) hmk
  have hdir := mkdirs_dir hmk
  have hpath := toPath_mkdirs hmk (noDots_of_mkdirs hmk)
  have hempty : ∀ n, fs.node (toPath b.dev.fs (inDir env.filePath name) ++ [n]) = none := by
    intro n
    rw [mkdirs_only hmk FileTree.not_concat_prefix]
    by_contra hn
    have hpar := b.dev.fs.parent hn
    rw [hdir.1] at hpar
    cases hpar
  rw [← hpath] at hdir hempty
  have hparts := @doMhp_new_directory (taskAt env b.i name) env.des
    ⟨fs, putSlot b.dev.sp b.i name⟩ connection get post s hdir.2 hempty hc hg hp
  rw [hrun.1, hrun.2, hst]
  refine ⟨hparts.1, fun part hmem => ?_⟩
  rw [HPStart.runJob, HPStart.toPath_doMhp]
  exact hparts.2 part hmem

theorem importFile_of_read {ser : Serial} {b : MainActivity} {path name : Text}
    {data : List UInt8} {m : MHP} (hext : (".mhp" : Text).isSuffixOf path = true)
    (hdata : b.dev.fs.readFile (toPath b.dev.fs path) = some data) (hread : ser.read data = some m)
    (hname : m.name = some name) :
    importFile env ser b path =
      some ({ b with dev := ⟨b.dev.fs, rememberDir b.dev.sp (getParent path)⟩ },
        taskAt env b.i name, .mhp m.connection m.get m.post) := by
  rw [importFile, if_pos hext, hdata]
  simp only [Option.bind_eq_bind, Option.bind_some, hread, importTask, hname, Option.map_some]
  rfl

/-- A mode that is exported and imported has its files again, byte for byte.
The hexadecimal text of any bytes gives the bytes. -/
theorem export_import {ser : Serial} {a b : MainActivity} {path path' : Text} {fs : Files}
    {content : Text → List UInt8} (hst : env.st = .sound)
    (hdes : ∀ bs, env.des.decrypt (env.des.encrypt bs) = some bs)
    (hser : ser.read (ser.write (exportMhp env a.dev.fs a.nowName)) =
      some (exportMhp env a.dev.fs a.nowName))
    (hfiles : ∀ part ∈ parts,
      a.dev.fs.node (toPath a.dev.fs (partFile env.filePath a.nowName part)) =
        some (.file (content part)))
    (hvalid : ∀ part ∈ parts, Utf8.Valid (content part))
    (hpath : ∀ part ∈ parts,
      toPath a.dev.fs path ≠ toPath a.dev.fs (partFile env.filePath a.nowName part))
    (hexport : exportMode env ser a path = (true, fs))
    (hcopy : b.dev.fs.readFile (toPath b.dev.fs path') = fs.readFile (toPath fs path))
    (hext : (".mhp" : Text).isSuffixOf path' = true)
    (hmk : (mkdirs env.st b.dev.fs (inDir env.filePath a.nowName)).1 = true) :
    (∃ b' task job, importFile env ser b path' = some (b', task, job) ∧
      (runImport env b' task job).2 = .imported ∧
      ∀ part ∈ parts, (runImport env b' task job).1.dev.fs.node
        (toPath (runImport env b' task job).1.dev.fs
          (partFile env.filePath a.nowName part)) = some (.file (content part))) ∧
    ∀ bs, DesUtils.hexStr2ByteArr (DesUtils.byteArr2HexStr bs) = some bs := by
  refine ⟨?_, DesUtils.hexStr2ByteArr_byteArr2HexStr⟩
  rw [exportMode_true hpath hexport] at hcopy
  have hmade : mkdirs env.st b.dev.fs (inDir env.filePath a.nowName) =
      (true, (mkdirs env.st b.dev.fs (inDir env.filePath a.nowName)).2) := Prod.ext hmk rfl
  -- What the export wrote for a part decrypts to the text of its file.
  have hdec : ∀ part ∈ parts, DesUtils.decrypt env.des (some (DesUtils.encrypt env.des
      (FileTool.readSDFile a.dev.fs (partFile env.filePath a.nowName part)))) =
        some (Utf8.decode (content part)) := by
    intro part hmem
    rw [DesUtils.decrypt_encrypt hdes, FileTool.readSDFile_of_node (hfiles part hmem)]
  have himport := @runImport_parts env
    { b with dev := ⟨b.dev.fs, rememberDir b.dev.sp (getParent path')⟩ } a.nowName _ _ _
    (fun part => Utf8.decode (content part)) _ hst hmade (hdec connectionHp (by decide))
    (hdec getHp (by decide)) (hdec postHp (by decide))
  refine ⟨_, _, _, importFile_of_read hext hcopy hser rfl, himport.1, fun part hmem => ?_⟩
  rw [← (hvalid part hmem).encode_decode]
  exact himport.2 part hmem

/-- A screen where the mode `a` is clicked, whose files hold their own names. -/
def clickedScreen : MainActivity :=
  let fs : Files := .ofDirs [[("d" : Text), ("a" : Text)]]
  let write (part : Text) (fs : Files) : Files :=
    (FileTool.writeSDFile .sound part (partFile "/d" "a" part) fs).2
  { MainActivity.blank (parts.foldr write fs) with nowName := "a" }

/-- A serialization of one object. -/
def oneSerial : Serial :=
  ⟨fun _ => [1], fun _ => some (exportMhp .plain clickedScreen.dev.fs "a")⟩

/-- A screen on another device, with the exported file. -/
def otherScreen : MainActivity := .blank ((FileTree.bare.writeFile [("a.mhp" : Text)] [1]).getD .bare)

theorem export_import_other_device :
    ∃ b' task job, importFile .plain oneSerial otherScreen "/a.mhp" = some (b', task, job) ∧
      (runImport .plain b' task job).2 = .imported ∧
      ∀ part ∈ parts, (runImport .plain b' task job).1.dev.fs.node
        (toPath (runImport .plain b' task job).1.dev.fs (partFile "/d" "a" part)) =
          some (.file (Utf8.encode part)) := by
  have h := @export_import .plain oneSerial clickedScreen otherScreen "/a.mhp" "/a.mhp" _ Utf8.encode
    rfl (fun _ => rfl) rfl (by decide +kernel) (fun part _ => Utf8.valid_encode part)
    (by decide +kernel) rfl (by decide +kernel) (by decide +kernel) (by decide +kernel)
  exact h.1

end MainActivity

end HapAndroid
