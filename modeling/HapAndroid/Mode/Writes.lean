import HapAndroid.Lib.Durable
import HapAndroid.Mode.Refinement

/-!
# The writes of an operation

Every operation on the list of modes changes the device by one write after the other: a commit of
the preferences, a directory that is made, a file that is filled, renamed or removed.  The process
can be killed between any two of them, and while a file is being filled.

`writes` lists them in the order of the code.  `complete_writes` says that together they are what
the operation does, so a prefix of them is what a killed operation has done.  A rename that the
system refuses writes nothing: the editor then saves the texts under the new name, in a directory
that is not there.
-/

namespace HapAndroid

/-- A change of the device that is there when it has been made. -/
inductive Write where
  /-- `sp.edit().putString(key, value).commit()`. -/
  | commit (key value : Text)
  /-- One directory is made. -/
  | mkdir (path : List Text)
  /-- A file is opened for writing and filled. -/
  | store (path : List Text) (data : List UInt8)
  | rename (src dst : List Text)
  | remove (path : List Text)

namespace Write

/-- The files after a write.  What the system refuses changes nothing. -/
def files (fs : Files) : Write → Files
  | .commit _ _ => fs
  | .mkdir p => (fs.mkdir p).getD fs
  | .store p data => (fs.writeFile p data).getD fs
  | .rename src dst => (fs.rename src dst).getD fs
  | .remove p => (fs.delete p).getD fs

/-- The key and the value of a commit. -/
def entry : Write → Option (Text × Text)
  | .commit key value => some (key, value)
  | _ => none

/-- Put an entry into the preferences. -/
def putEntry (sp : Prefs) (c : Text × Text) : Prefs := sp.putString c.1 c.2

/-- The device after a write. -/
def apply (d : Device) (w : Write) : Device := ⟨w.files d.fs, w.entry.elim d.sp (putEntry d.sp)⟩

/-- A file can be left with some of its bytes.  The other writes are made at once. -/
def tear : Write → Nat → Option Write
  | .store p data, n => some (.store p (data.take n))
  | _, _ => none

/-- The paths a write can change. -/
def Touches : Write → List Text → Prop
  | .commit _ _, _ => False
  | .mkdir p, q => q = p
  | .store p _, q => q = p
  | .rename src dst, q => src <+: q ∨ dst <+: q
  | .remove p, q => q = p

theorem node_files {w : Write} {q : List Text} (h : ¬ w.Touches q) (fs : Files) :
    (w.files fs).node q = fs.node q := by
  cases w with
  | commit key value => rfl
  | mkdir p =>
      cases hp : fs.mkdir p with
      | none => simp [files, hp]
      | some fs' => simp [files, hp, fs.node_mkdir hp, show q ≠ p from h]
  | store p data =>
      cases hp : fs.writeFile p data with
      | none => simp [files, hp]
      | some fs' => simp [files, hp, fs.node_writeFile hp, show q ≠ p from h]
  | rename src dst =>
      cases hp : fs.rename src dst with
      | none => simp [files, hp]
      | some fs' =>
          rw [files, hp, Option.getD_some]
          by_cases hne : src = dst
          · subst hne
            rw [(fs.rename_self hp).1]
          · obtain ⟨hsrc, hdst⟩ := not_or.mp h
            rw [(fs.node_rename hp hne).2.2.2, FileTree.movedNode, if_neg hdst, if_neg hsrc]
  | remove p =>
      cases hp : fs.delete p with
      | none => simp [files, hp]
      | some fs' => simp [files, hp, fs.node_delete hp, show q ≠ p from h]

/-- A torn write touches what the whole one touches. -/
theorem touches_of_tear {w v : Write} {n : Nat} (h : w.tear n = some v) {q : List Text} :
    v.Touches q → w.Touches q := by
  cases w with
  | store p data =>
      cases h
      exact id
  | _ => cases h

/-- A torn write is no commit. -/
theorem entry_of_tear {w v : Write} {n : Nat} (h : w.tear n = some v) : v.entry = none := by
  cases w with
  | store p data =>
      cases h
      rfl
  | _ => cases h

end Write

/-- The device after some writes. -/
def Device.perform (d : Device) (ws : List Write) : Device := Durable.perform Write.apply d ws

namespace Device

@[simp] theorem perform_nil (d : Device) : d.perform [] = d := rfl

@[simp] theorem perform_cons (d : Device) (w : Write) (ws : List Write) :
    d.perform (w :: ws) = (w.apply d).perform ws := rfl

@[simp] theorem perform_append (d : Device) (ws vs : List Write) :
    d.perform (ws ++ vs) = (d.perform ws).perform vs :=
  Durable.perform_append ..

/-- The preferences see the commits only. -/
theorem sp_perform (d : Device) (ws : List Write) :
    (d.perform ws).sp = Durable.perform Write.putEntry d.sp (ws.filterMap Write.entry) :=
  @Durable.view_perform _ _ Write.apply _ _ Device.sp Write.putEntry Write.entry
    (fun _ _ => rfl) ws d

theorem node_perform {ws : List Write} {q : List Text} (h : ∀ w ∈ ws, ¬ w.Touches q) (d : Device) :
    (d.perform ws).fs.node q = d.fs.node q :=
  Durable.perform_induction (I := fun e : Device => e.fs.node q = d.fs.node q)
    (fun w hw e he => (Write.node_files (h w hw) e.fs).trans he) rfl

end Device

/-! ## Files -/

/-- The directories that are missing on a path below `done`, as far as they can be made. -/
def missing (may : List Text → Bool) (fs : Files) : List Text → List Text → List (List Text)
  | _, [] => []
  | done, n :: rest =>
      match fs.node (done ++ [n]) with
      | some .dir => missing may fs (done ++ [n]) rest
      | some _ => []
      | none =>
          if may (done ++ [n]) then (done ++ [n]) :: missing may fs (done ++ [n]) rest else []
termination_by structural _ todo => todo

theorem mem_missing {may : List Text → Bool} {fs : Files} {p : List Text} :
    ∀ {todo done : List Text}, p ∈ missing may fs done todo →
      p <+: done ++ todo ∧ fs.node p = none
  | [], done, h => by cases h
  | n :: rest, done, h => by
      have hrest : p ∈ missing may fs (done ++ [n]) rest →
          p <+: done ++ n :: rest ∧ fs.node p = none := by
        intro hp
        obtain ⟨hpre, hnone⟩ := mem_missing hp
        exact ⟨by simpa using hpre, hnone⟩
      rw [missing] at h
      split at h
      · exact hrest h
      · cases h
      · next hnone =>
        split at h
        · rcases List.mem_cons.mp h with rfl | h
          · exact ⟨⟨rest, by simp⟩, hnone⟩
          · exact hrest h
        · cases h

/-- Only what stands below the directory is asked for. -/
theorem missing_congr {may : List Text → Bool} {fs fs' : Files} : ∀ {todo done : List Text},
    (∀ q, done <+: q → q ≠ done → fs.node q = fs'.node q) →
      missing may fs done todo = missing may fs' done todo
  | [], _, _ => rfl
  | n :: rest, done, h => by
      have hrest : ∀ q, done ++ [n] <+: q → q ≠ done ++ [n] → fs.node q = fs'.node q := by
        intro q hq _
        refine h q ((List.prefix_append done [n]).trans hq) ?_
        rintro rfl
        exact FileTree.not_concat_prefix hq
      rw [missing, missing, missing_congr hrest, h _ (List.prefix_append done [n]) (by simp)]

/-- Making the missing directories is what `mkdirs` does. -/
theorem perform_missing {may : List Text → Bool} (sp : Prefs) :
    ∀ (todo : List Text) {fs : Files} {done : List Text}, fs.node done = some .dir →
      Device.perform ⟨fs, sp⟩ ((missing may fs done todo).map .mkdir) =
        ⟨(fs.ensureDir may done todo).2, sp⟩
  | [], fs, done, _ => rfl
  | n :: rest, fs, done, hd => by
      rw [missing, FileTree.ensureDir]
      split
      · next hdir =>
        rw [hdir]
        exact perform_missing sp rest hdir
      · next x hx hnode =>
        rw [hnode]
        cases x with
        | dir => exact absurd rfl hx
        | file data => rfl
        | locked => rfl
      · next hnone =>
        rw [hnone]
        cases hmay : may (done ++ [n]) with
        | false => rfl
        | true =>
            obtain ⟨u, hu⟩ := fs.put_isSome .dir (p := done ++ [n]) (by simp)
              (by rwa [List.dropLast_concat]) (by simp [hnone])
            have hmk : fs.mkdir (done ++ [n]) = some u := by
              rw [FileTree.mkdir, if_neg (by simp [FileTree.existsAt, hnone])]
              exact hu
            have hbelow : missing may fs (done ++ [n]) rest = missing may u (done ++ [n]) rest := by
              refine missing_congr fun q _ hne => ?_
              rw [fs.node_put hu, if_neg hne]
            have hstep : (Write.mkdir (done ++ [n])).apply ⟨fs, sp⟩ = ⟨u, sp⟩ := by
              simp [Write.apply, Write.files, Write.entry, hmk]
            simp only [if_true, hu, List.map_cons, Device.perform_cons, hstep, hbelow]
            exact perform_missing sp rest (by rw [fs.node_put hu, if_pos rfl])

/-- The writes of `mkdirs`. -/
def mkdirsWrites (st : Storage) (fs : Files) (name : Text) : List Write :=
  if fileExists fs name then [] else (missing st.makes fs [] (toPath fs name)).map .mkdir

theorem perform_mkdirsWrites (st : Storage) (d : Device) (name : Text) :
    d.perform (mkdirsWrites st d.fs name) = ⟨(mkdirs st d.fs name).2, d.sp⟩ := by
  rw [mkdirsWrites, mkdirs, FileTree.mkdirs, fileExists]
  split
  · rfl
  · exact perform_missing d.sp _ d.fs.root

namespace FileTool

/-- The writes of `writeBytes` to a path. -/
def storeWrites (st : Storage) (data : List UInt8) (path : List Text) : List Write :=
  match st.write path with
  | .refused => []
  | .done => [.store path data]
  | .cut n => [.store path (data.take n)]

theorem perform_storeWrites (st : Storage) (data : List UInt8) {fileName : Text} {d : Device}
    {path : List Text} (hpath : toPath d.fs fileName = path) :
    d.perform (storeWrites st data path) = ⟨(writeBytes st data fileName d.fs).2, d.sp⟩ := by
  subst hpath
  rw [storeWrites, writeBytes]
  cases st.write (toPath d.fs fileName) with
  | refused => rfl
  | done =>
      simp only [Device.perform_cons, Device.perform_nil, Write.apply, Write.files, Write.entry]
      cases d.fs.writeFile (toPath d.fs fileName) data <;> rfl
  | cut n => rfl

/-- The writes of `writeSDFile`. -/
def writeSDWrites (st : Storage) (str : Text) (path : List Text) : List Write :=
  storeWrites st (Utf8.encode str) path

theorem perform_writeSDWrites (st : Storage) (str : Text) {fileName : Text} {d : Device}
    {path : List Text} (hpath : toPath d.fs fileName = path) :
    d.perform (writeSDWrites st str path) = ⟨(writeSDFile st str fileName d.fs).2, d.sp⟩ :=
  perform_storeWrites st _ hpath

/-- The writes of `copyFile`. -/
def copyWrites (st : Storage) (fromFile toFile : Text) (fs : Files) : List Write :=
  match fs.readFile (toPath fs fromFile) with
  | some data =>
      storeWrites st (if toPath fs fromFile = toPath fs toFile then [] else data) (toPath fs toFile)
  | none => []

theorem perform_copyWrites (st : Storage) (fromFile toFile : Text) (d : Device) :
    d.perform (copyWrites st fromFile toFile d.fs) =
      ⟨(copyFile st fromFile toFile d.fs).2, d.sp⟩ := by
  rw [copyWrites, copyFile]
  cases d.fs.readFile (toPath d.fs fromFile) with
  | some data => exact perform_storeWrites st _ rfl
  | none => rfl

/-- The writes that empty a directory. -/
def entryWrites (fileName : Text) : Files → List (List Text) → List Write
  | _, [] => []
  | fs, f :: l =>
      (if isDirectory fs fileName then [.remove f] else []) ++
        entryWrites fileName (deleteEntry fileName fs f) l

/-- The writes of `deleteSDFile`. -/
def deleteWrites (fs : Files) (fileName : Text) : List Write :=
  if fileExists fs fileName then
    (if isDirectory fs fileName then entryWrites fileName fs (fs.children (toPath fs fileName))
      else []) ++
      if fileExists (emptied fs fileName) fileName then [.remove (toPath fs fileName)] else []
  else []

/-- A deletion that reports success has removed its path. -/
theorem node_deleteSDFile_of_true {fs : Files} {fileName : Text}
    (h : (deleteSDFile fs fileName).1 = true) :
    (deleteSDFile fs fileName).2.node (toPath fs fileName) = none := by
  rw [deleteSDFile] at h ⊢
  split at h
  · next hex =>
    rw [if_pos hex]
    rcases toPath_emptied fs fileName fileName with hsame | hdead
    · rw [deleteFile, hsame] at h ⊢
      split at h
      · next hd => rw [FileTree.node_delete _ hd, if_pos rfl]
      · cases h
    · rw [deleteFile_dead hdead] at h
      cases h
  · cases h

theorem perform_entryWrites (fileName : Text) (sp : Prefs) : ∀ (l : List (List Text)) (fs : Files),
    Device.perform ⟨fs, sp⟩ (entryWrites fileName fs l) = ⟨l.foldl (deleteEntry fileName) fs, sp⟩
  | [], _ => rfl
  | f :: l, fs => by
      have hentry : Device.perform ⟨fs, sp⟩ (if isDirectory fs fileName then [.remove f] else []) =
          ⟨deleteEntry fileName fs f, sp⟩ := by
        rw [deleteEntry]
        split
        · rfl
        · rfl
      rw [entryWrites, Device.perform_append, hentry, List.foldl_cons]
      exact perform_entryWrites fileName sp l _

theorem perform_deleteWrites (fileName : Text) (d : Device) :
    d.perform (deleteWrites d.fs fileName) = ⟨(deleteSDFile d.fs fileName).2, d.sp⟩ := by
  have hempty : d.perform (if isDirectory d.fs fileName then
      entryWrites fileName d.fs (d.fs.children (toPath d.fs fileName)) else []) =
        ⟨emptied d.fs fileName, d.sp⟩ := by
    rw [emptied]
    split
    · exact perform_entryWrites fileName d.sp _ d.fs
    · rfl
  rw [deleteWrites, deleteSDFile]
  split
  · rw [Device.perform_append, hempty, deleteFile]
    split
    · next hex =>
      rw [toPath_emptied_of_exists hex]
      cases h : (emptied d.fs fileName).delete (toPath d.fs fileName) <;>
        simp [Write.apply, Write.files, Write.entry, h]
    · next hex =>
      rw [FileTree.delete, dif_neg fun h => hex h.2.1]
      rfl
  · rfl

end FileTool

/-! ## Tasks -/

namespace HPStart

/-- The writes of `onPreExecute`. -/
def preWrites (h : HPStart) (st : Storage) (d : Device) : List Write :=
  if h.isAdd && !h.isSave then
    mkdirsWrites st d.fs (inDir h.filePath h.mName) ++
      if (mkdirs st d.fs (inDir h.filePath h.mName)).1 then [.commit (modeKey h.ipos) h.mName]
      else []
  else []

theorem perform_preWrites (h : HPStart) (st : Storage) (d : Device) :
    d.perform (h.preWrites st d) = (h.onPreExecute st d).2.1 := by
  rw [preWrites, onPreExecute]
  split
  · rw [Device.perform_append, perform_mkdirsWrites]
    rcases mkdirs st d.fs (inDir h.filePath h.mName) with ⟨ok, fs⟩
    cases ok with
    | false => rfl
    | true => rfl
  · rfl

/-- The writes of one part of a mode. -/
def filledWrites (h : HPStart) (st : Storage) (fs : Files) (part s : Text) : List Write :=
  FileTool.writeSDWrites st s (toPath fs (partFile h.filePath h.mName part))

theorem perform_filledWrites (h : HPStart) (st : Storage) (part s : Text) {fs : Files} {d : Device}
    (hfs : ∀ name, toPath d.fs name = toPath fs name) :
    d.perform (h.filledWrites st fs part s) =
      ⟨(FileTool.writeSDFile st s (partFile h.filePath h.mName part) d.fs).2, d.sp⟩ :=
  FileTool.perform_writeSDWrites st s (hfs _)

/-- The writes of an imported part and of what comes after it. -/
def importWrites (h : HPStart) (des : Cipher) (st : Storage) (fs : Files) :
    List (Option Text × Text) → List Write
  | [] => []
  | (p, part) :: rest =>
      match DesUtils.decrypt des p with
      | none => []
      | some s => h.filledWrites st fs part s ++ importWrites h des st fs rest

/-- The writes of the jobs. -/
def jobWrites (h : HPStart) (con : Context) (des : Cipher) (st : Storage) (d : Device) :
    Job → List Write
  | .start =>
      if isDirectory d.fs (inDir h.filePath h.mName) then
        FileTool.writeSDWrites st
          (cfgText con d.sp ((startFiles h.filePath h.mName).map (FileTool.readSDFile d.fs)))
          (toPath d.fs (inDir h.filePath runCfg))
      else []
  | .save s1 s2 s3 =>
      h.filledWrites st d.fs connectionHp s1 ++ h.filledWrites st d.fs getHp s2 ++
        h.filledWrites st d.fs postHp s3
  | .mhp connection get post =>
      h.importWrites des st d.fs [(connection, connectionHp), (get, getHp), (post, postHp)]
  | .sh =>
      FileTool.writeSDWrites st
        (SuperUser.replaceCode con (FileTool.readSDFile d.fs (inDir h.filePath h.mName)) d.sp)
        (toPath d.fs (inDir h.filePath (runSh h.mName)))

theorem perform_jobWrites (h : HPStart) (con : Context) (des : Cipher) (st : Storage) (d : Device)
    (job : Job) : d.perform (h.jobWrites con des st d job) = (h.runJob con des st d job).1 := by
  -- The three parts are written one after the other, to the paths they had at the beginning.
  have h1 := fun s => @perform_filledWrites h st connectionHp s d.fs d fun _ => rfl
  have h2 := fun s fs (hfs : ∀ name, toPath fs name = toPath d.fs name) =>
    h.perform_filledWrites st getHp s (d := ⟨fs, d.sp⟩) hfs
  have h3 := fun s fs (hfs : ∀ name, toPath fs name = toPath d.fs name) =>
    h.perform_filledWrites st postHp s (d := ⟨fs, d.sp⟩) hfs
  cases job with
  | start =>
      simp only [jobWrites, runJob, doStart]
      split
      · exact FileTool.perform_writeSDWrites st _ rfl
      · rfl
  | save s1 s2 s3 =>
      rw [jobWrites, Device.perform_append, Device.perform_append, h1, h2 _ _ (by simp),
        h3 _ _ (by simp)]
      rfl
  | mhp connection get post =>
      simp only [jobWrites, importWrites, runJob, doMhp, importPart]
      cases DesUtils.decrypt des connection with
      | none => rfl
      | some s1 =>
          cases DesUtils.decrypt des get with
          | none => simp [h1]
          | some s2 =>
              cases DesUtils.decrypt des post with
              | none =>
                  simp only [Device.perform_append, h1]
                  rw [h2 _ _ (by simp)]
                  rfl
              | some s3 =>
                  simp only [Device.perform_append, h1]
                  rw [h2 _ _ (by simp), h3 _ _ (by simp)]
                  rfl
  | sh => exact FileTool.perform_writeSDWrites st _ rfl

/-- The writes of a task that is executed. -/
def taskWrites (h : HPStart) (con : Context) (des : Cipher) (st : Storage) (d : Device)
    (job : Job) : List Write :=
  let pre := h.onPreExecute st d
  h.preWrites st d ++ if pre.1.isContinue then pre.1.jobWrites con des st pre.2.1 job else []

theorem perform_taskWrites (h : HPStart) (con : Context) (des : Cipher) (st : Storage) (d : Device)
    (job : Job) :
    d.perform (h.taskWrites con des st d job) =
      ((h.onPreExecute st d).1.doInBackground con des st (h.onPreExecute st d).2.1 job).1 := by
  simp only [taskWrites, Device.perform_append, perform_preWrites, doInBackground]
  split
  · exact perform_jobWrites ..
  · rfl

end HPStart

/-! ## The preferences -/

/-- The commits of the loop that moves the slots down. -/
def shiftCommits (sp : Prefs) : Nat → Nat → List (Text × Text)
  | _, 0 => []
  | a, n + 1 =>
      (modeKey a, slot sp (a + 1)) :: shiftCommits (putSlot sp a (slot sp (a + 1))) (a + 1) n

/-- A part of the loop moves a part of the slots. -/
theorem perform_take_shiftCommits : ∀ (n m a : Nat) (sp : Prefs),
    Durable.perform Write.putEntry sp ((shiftCommits sp a n).take m) = shiftDown sp a (min m n)
  | 0, m, a, sp => by
      rw [shiftCommits, List.take_nil, Nat.min_zero]
      rfl
  | n + 1, 0, a, sp => by
      rw [List.take_zero, Nat.zero_min]
      rfl
  | n + 1, m + 1, a, sp => by
      rw [shiftCommits, List.take_succ_cons, Durable.perform_cons, Nat.succ_min_succ, shiftDown]
      exact perform_take_shiftCommits n m (a + 1) _

theorem length_shiftCommits : ∀ (n a : Nat) (sp : Prefs), (shiftCommits sp a n).length = n
  | 0, _, _ => rfl
  | n + 1, a, sp => by rw [shiftCommits, List.length_cons, length_shiftCommits n]

/-- Some commits as writes. -/
def commits (cs : List (Text × Text)) : List Write := cs.map fun c => .commit c.1 c.2

@[simp] theorem filterMap_commits (cs : List (Text × Text)) :
    (commits cs).filterMap Write.entry = cs := by
  rw [commits, List.filterMap_map]
  exact List.filterMap_some

theorem perform_commits (cs : List (Text × Text)) (d : Device) :
    d.perform (commits cs) = ⟨d.fs, Durable.perform Write.putEntry d.sp cs⟩ := by
  induction cs generalizing d with
  | nil => rfl
  | cons c cs ih => exact ih _

namespace MainActivity

/-- The commits of `d_7`. -/
def deleteCommits (sp : Prefs) (i nowI : Nat) : List (Text × Text) :=
  if i ≠ nowI + 1 then
    (slot sp nowI, []) :: shiftCommits (sp.putString (slot sp nowI) []) nowI (i - nowI)
  else [(modeKey nowI, [])]

theorem perform_deleteCommits (sp : Prefs) (i nowI : Nat) :
    Durable.perform Write.putEntry sp (deleteCommits sp i nowI) = deleteSlots sp i nowI := by
  rw [deleteCommits, deleteSlots]
  split
  · have hall := perform_take_shiftCommits (i - nowI) (i - nowI) nowI
      (sp.putString (slot sp nowI) [])
    rw [List.take_of_length_le (by rw [length_shiftCommits]), Nat.min_self] at hall
    exact hall
  · rfl

variable (env : Env)

/-! ## The start -/

/-- The writes of `install_init`. -/
def installWrites (d : Device) : List Write :=
  if fileExists d.fs (inDir env.filePath SuperUser.version) then []
  else
    let cmd (sh : Text) : Text :=
      ("cd " : Text) ++ env.filePath ++ ("\nsh ./" : Text) ++ sh ++ ['\n']
    commits [("_start", cmd "start.sh"), ("_stop", cmd "stop.sh"), ("_status", cmd "status.sh")]

/-- The writes of `copyPart`. -/
def copyPartWrites (part : Text) (fs : Files) : List Write :=
  FileTool.copyWrites env.st (partFile env.filePath modeName part)
    (partFile env.filePath defaultMode part) fs

/-- The writes that make the default mode. -/
def defaultWrites (fs : Files) : List Write :=
  let fs0 := (FileTool.deleteSDFile fs (inDir env.filePath defaultMode)).2
  FileTool.deleteWrites fs (inDir env.filePath defaultMode) ++
    mkdirsWrites env.st fs0 (inDir env.filePath defaultMode) ++
    match mkdirs env.st fs0 (inDir env.filePath defaultMode) with
    | (false, _) => []
    | (true, fs1) =>
        let c1 := copyPart env getHp fs1
        let c2 := copyPart env postHp c1.2
        let c3 := copyPart env connectionHp c2.2
        copyPartWrites env getHp fs1 ++
          if c1.1 then copyPartWrites env postHp c1.2 ++
            if c2.1 then copyPartWrites env connectionHp c2.2 ++
              if c3.1 then [.commit (modeKey 0) defaultMode] else []
            else []
          else []

/-- The writes of `onCreate`. -/
def startWrites (d : Device) : List Write :=
  match installInit env d with
  | none => []
  | some inst =>
      installWrites env d ++
        if (load env inst.1 inst.1.sp.keys.length 0 []).1 = 0 ∧ inst.2 = false then
          defaultWrites env inst.1.fs
        else []

theorem perform_installWrites {d : Device} {inst : Device × Bool}
    (h : installInit env d = some inst) : d.perform (installWrites env d) = inst.1 := by
  obtain ⟨-, -, rfl⟩ := Option.map_eq_some_iff.mp h
  rw [installWrites]
  split
  · rfl
  · rfl

theorem perform_copyPartWrites (part : Text) (d : Device) :
    d.perform (copyPartWrites env part d.fs) = ⟨(copyPart env part d.fs).2, d.sp⟩ :=
  FileTool.perform_copyWrites ..

theorem perform_defaultWrites (d : Device) :
    d.perform (defaultWrites env d.fs) =
      match makeDefault env d.fs with
      | .made fs => ⟨fs, putSlot d.sp 0 defaultMode⟩
      | .skipped fs => ⟨fs, d.sp⟩
      | .failed fs => ⟨fs, d.sp⟩ := by
  rw [defaultWrites, makeDefault, Device.perform_append, Device.perform_append,
    FileTool.perform_deleteWrites]
  have hmade := perform_mkdirsWrites env.st
    ⟨(FileTool.deleteSDFile d.fs (inDir env.filePath defaultMode)).2, d.sp⟩
    (inDir env.filePath defaultMode)
  simp only at hmade ⊢
  rw [hmade]
  rcases mkdirs env.st (FileTool.deleteSDFile d.fs (inDir env.filePath defaultMode)).2
      (inDir env.filePath defaultMode) with ⟨ok, fs1⟩
  cases ok with
  | false => rfl
  | true =>
      have hcopy : ∀ part fs, Device.perform ⟨fs, d.sp⟩ (copyPartWrites env part fs) =
          ⟨(copyPart env part fs).2, d.sp⟩ :=
        fun part fs => perform_copyPartWrites env part ⟨fs, d.sp⟩
      simp only [Device.perform_append]
      rw [hcopy]
      by_cases h1 : (copyPart env getHp fs1).1
      · rw [if_pos h1, if_pos h1, Device.perform_append, hcopy]
        by_cases h2 : (copyPart env postHp (copyPart env getHp fs1).2).1
        · rw [if_pos h2, if_pos h2, Device.perform_append, hcopy]
          split
          · rfl
          · rfl
        · rw [if_neg h2, if_neg h2]
          rfl
      · rw [if_neg h1, if_neg h1]
        rfl

theorem perform_startWrites (d : Device) :
    d.perform (startWrites env d) = (onCreate env d).dev := by
  rw [startWrites, onCreate]
  cases hinst : installInit env d with
  | none => rfl
  | some inst =>
    simp only [Device.perform_append, perform_installWrites env hinst, loadModes]
    split
    · next h =>
      rw [perform_defaultWrites, h.1]
      cases makeDefault env inst.1.fs with
      | made fs => rw [dev_restoreNow]; rfl
      | skipped fs => rw [dev_restoreNow]
      | failed fs => rfl
    · rw [dev_restoreNow]; rfl

/-! ## The operations -/

/-- The writes of an operation on the list of modes. -/
def writes (a : MainActivity) : Op → List Write
  | .add name s1 s2 s3 =>
      match a.openAdd env name with
      | none => []
      | some e => e.saveTask.taskWrites env.con env.des env.st a.dev (.save s1 s2 s3)
  | .importMode dir name connection get post =>
      let d : Device := ⟨a.dev.fs, rememberDir a.dev.sp dir⟩
      let task := taskAt env a.i name
      let pre := task.onPreExecute env.st d
      let r := pre.1.doInBackground env.con env.des env.st pre.2.1 (.mhp connection get post)
      commits (dir.elim [] fun p => [(("IPath" : Text), p)]) ++
        task.taskWrites env.con env.des env.st d (.mhp connection get post) ++
        -- The message 2.
        if r.2.2 = .imported then [.commit (modeKey a.i) name] else []
  | .rename k name =>
      match a.mData[k]? with
      | none => []
      | some title =>
          match renameTo a.dev.fs (inDir env.filePath title) (inDir env.filePath name) with
          | none => []
          | some _ =>
              [.rename (toPath a.dev.fs (inDir env.filePath title))
                  (toPath a.dev.fs (inDir env.filePath name)),
                .commit (modeKey k) name]
  | .delete k =>
      match a.mData[k]? with
      | none => []
      | some title =>
          commits (deleteCommits a.dev.sp a.i k) ++
            FileTool.deleteWrites a.dev.fs (inDir env.filePath title)
  | .restart => startWrites env a.dev

variable {env}

theorem dev_onActivityResult (a : MainActivity) (r : ActivityResult) :
    (a.onActivityResult r).dev = a.dev := by
  rw [onActivityResult]
  split
  · rfl
  · split
    · rfl
    · rfl

theorem add_writes {a : MainActivity} {name s1 s2 s3 : Text} {s : System}
    (h : Run.run (System.step env) { app := a }
      [.openAdd name, .saveAdd 0 s1 s2 s3, .addResult 0] = some s) :
    a.dev.perform (writes env a (.add name s1 s2 s3)) = s.app.dev := by
  obtain ⟨t, h1, h⟩ := Run.run_cons_eq_some.mp h
  obtain ⟨u, h2, h⟩ := Run.run_cons_eq_some.mp h
  obtain ⟨v, h3, h⟩ := Run.run_cons_eq_some.mp h
  rw [Run.run_nil, Option.some.injEq] at h
  subst h
  obtain ⟨e, he, rfl⟩ := Option.map_eq_some_iff.mp h1
  cases System.step_cases h2 with
  | saveAdd _ _ _ _ e' hk hsave hcont ht =>
    obtain rfl : e = e' := Option.some.inj hk
    subst ht
    cases System.step_cases h3 with
    | addResult _ e' hk ht =>
      subst ht
      rw [dev_onActivityResult, writes, he]
      exact HPStart.perform_taskWrites ..

theorem import_writes {a : MainActivity} {dir : Option Text} {name : Text}
    {connection get post : Option Text} {s : System}
    (h : Run.run (System.step env) { app := a }
      [.beginImport dir ⟨some name, get, post, connection⟩, .finishImport 0] = some s) :
    a.dev.perform (writes env a (.importMode dir name connection get post)) = s.app.dev := by
  obtain ⟨t, h1, h⟩ := Run.run_cons_eq_some.mp h
  obtain ⟨u, h2, h⟩ := Run.run_cons_eq_some.mp h
  rw [Run.run_nil, Option.some.injEq] at h
  subst h
  have hdir : a.dev.perform (commits (dir.elim [] fun p => [(("IPath" : Text), p)])) =
      ⟨a.dev.fs, rememberDir a.dev.sp dir⟩ := by
    cases dir with
    | none => rfl
    | some p => rfl
  simp only [System.step, System.beginImport, importTask, Option.map_some] at h1
  split at h1
  · cases h1
    simp only [System.step, System.finishImport, List.nil_append, List.getElem?_cons_zero] at h2
    split at h2
    · next n hsend =>
      cases h2
      simp only [writes, Device.perform_append, hdir, HPStart.perform_taskWrites]
      rw [HPStart.onPostExecute.eq_def] at hsend
      split at hsend
      · split at hsend <;> cases hsend
      · next himported =>
        split at hsend
        · cases hsend
          rw [if_pos himported]
          obtain ⟨fs, ⟨hmk, htask, hdev⟩ | ⟨-, htask, -⟩⟩ :=
            HPStart.onPreExecute_add (h := taskAt env a.i name) env.st
              ⟨a.dev.fs, rememberDir a.dev.sp dir⟩ rfl rfl
          · rw [htask]
            rfl
          · rw [htask]
            rfl
        · cases hsend
      · cases hsend
    · cases h2
  · cases h1

/-- The writes of an operation are what it does to the device. -/
theorem complete_writes {a a' : MainActivity} {op : Op} (h : complete env a op = some a') :
    a.dev.perform (writes env a op) = a'.dev := by
  cases op with
  | add name s1 s2 s3 =>
      rw [complete] at h
      split at h
      · next s hrun =>
        split at h
        · cases h
          exact add_writes hrun
        · cases h
      · cases h
  | importMode dir name connection get post =>
      rw [complete] at h
      split at h
      · next s hrun =>
        split at h
        · cases h
          exact import_writes hrun
        · cases h
      · cases h
  | rename k name =>
      cases complete_cases h with
      | rename _ _ title hk hfs hsp hi htitles =>
          rw [writes, hk]
          simp only [hfs]
          rw [renameTo] at hfs
          simp only [Device.perform_cons, Device.perform_nil, Write.apply, Write.files, Write.entry,
            hfs, Option.getD_some, Option.elim_none, Option.elim_some]
          exact congrArg (Device.mk _) hsp.symm
  | delete k =>
      cases complete_cases h with
      | delete _ title hk hfs hsp hi htitles =>
          rw [writes, hk]
          simp only [Device.perform_append, perform_commits, perform_deleteCommits]
          refine (FileTool.perform_deleteWrites (inDir env.filePath title) ⟨a.dev.fs, _⟩).trans ?_
          show Device.mk _ _ = _
          rw [← hfs, ← hsp]
  | restart =>
      cases complete_cases h with
      | restart ha hinst hi =>
          rw [ha]
          exact perform_startWrites env a.dev

/-! ## What an operation can write -/

/-- A path that `deleteSDFile` removes. -/
def Removes (dir p : List Text) : Prop := p = dir ∨ ∃ m, p = dir ++ [m]

theorem removes_of_mem {fs : Files} {fileName : Text} {w : Write}
    (h : w ∈ FileTool.deleteWrites fs fileName) :
    ∃ p, Removes (toPath fs fileName) p ∧ w = .remove p := by
  have hentry : ∀ (l : List (List Text)) (fs : Files), w ∈ FileTool.entryWrites fileName fs l →
      ∃ p ∈ l, w = .remove p := by
    intro l
    induction l with
    | nil => exact fun _ hw => by cases hw
    | cons f l ih =>
        intro fs hw
        rcases List.mem_append.mp hw with hw | hw
        · split at hw
          · exact ⟨f, List.mem_cons_self .., List.mem_singleton.mp hw⟩
          · cases hw
        · obtain ⟨p, hp, rfl⟩ := ih _ hw
          exact ⟨p, List.mem_cons_of_mem f hp, rfl⟩
  rw [FileTool.deleteWrites] at h
  split at h
  · rcases List.mem_append.mp h with h | h
    · split at h
      · obtain ⟨p, hp, rfl⟩ := hentry _ fs h
        obtain ⟨m, rfl, -⟩ := fs.mem_children.mp hp
        exact ⟨_, .inr ⟨m, rfl⟩, rfl⟩
      · cases h
    · split at h
      · exact ⟨_, .inl rfl, List.mem_singleton.mp h⟩
      · cases h
  · cases h

theorem store_of_mem {st : Storage} {data : List UInt8} {path : List Text} {w : Write}
    (h : w ∈ FileTool.storeWrites st data path) : ∃ data, w = .store path data := by
  rw [FileTool.storeWrites] at h
  split at h
  · cases h
  · exact ⟨_, List.mem_singleton.mp h⟩
  · exact ⟨_, List.mem_singleton.mp h⟩

/-- The writes that make a mode: its directory with the missing ones above it, its slot, its
parts. -/
inductive Creates (filePath : Text) (fs : Files) (i : Nat) (name : Text) : Write → Prop where
  | dir {p : List Text} (hp : p <+: toPath fs (inDir filePath name)) (hnone : fs.node p = none) :
      Creates filePath fs i name (.mkdir p)
  | slot : Creates filePath fs i name (.commit (modeKey i) name)
  | part {part : Text} (hpart : part ∈ parts) (data : List UInt8) :
      Creates filePath fs i name (.store (toPath fs (partFile filePath name part)) data)

/-- Directories are made only where nothing has the name yet. -/
theorem creates_of_mem_mkdirsWrites {st : Storage} {filePath : Text} {fs : Files} {i : Nat}
    {name : Text} {w : Write} (h : w ∈ mkdirsWrites st fs (inDir filePath name)) :
    fs.node (toPath fs (inDir filePath name)) = none ∧ Creates filePath fs i name w := by
  rw [mkdirsWrites] at h
  split at h
  · cases h
  · next hfree =>
    obtain ⟨p, hp, rfl⟩ := List.mem_map.mp h
    obtain ⟨hpre, hnone⟩ := mem_missing hp
    exact ⟨(fs.existsAt_eq_false_iff).mp (Bool.eq_false_iff.mpr hfree),
      .dir (by simpa using hpre) hnone⟩

/-- A part is written to the path it had before the directory was made. -/
theorem creates_of_mem_filledWrites {h : HPStart} {st : Storage} {fs fs' : Files} {i : Nat}
    {part s : Text} {w : Write}
    (hfs : toPath fs' (inDir h.filePath h.mName) = toPath fs (inDir h.filePath h.mName))
    (hpart : part ∈ parts) (hw : w ∈ h.filledWrites st fs' part s) :
    Creates h.filePath fs i h.mName w := by
  have hplain := plain_of_mem_parts part hpart
  obtain ⟨data, rfl⟩ := store_of_mem hw
  rw [toPath_partFile hplain, hfs, ← toPath_partFile hplain]
  exact .part hpart data

theorem creates_of_mem_importWrites {h : HPStart} {des : Cipher} {st : Storage} {fs fs' : Files}
    {i : Nat} {w : Write}
    (hfs : toPath fs' (inDir h.filePath h.mName) = toPath fs (inDir h.filePath h.mName)) :
    ∀ {ps : List (Option Text × Text)}, (∀ p ∈ ps, p.2 ∈ parts) →
      w ∈ h.importWrites des st fs' ps → Creates h.filePath fs i h.mName w
  | [], _, hw => by cases hw
  | (p, part) :: ps, hps, hw => by
      rw [HPStart.importWrites] at hw
      split at hw
      · cases hw
      · rcases List.mem_append.mp hw with hw | hw
        · exact creates_of_mem_filledWrites hfs (hps _ (List.mem_cons_self ..)) hw
        · exact creates_of_mem_importWrites hfs (fun q hq => hps q (List.mem_cons_of_mem _ hq)) hw

/-- The jobs that fill a new mode. -/
def Fills : Job → Prop
  | .save _ _ _ => True
  | .mhp _ _ _ => True
  | _ => False

theorem creates_of_mem_jobWrites {h : HPStart} {con : Context} {des : Cipher} {st : Storage}
    {d : Device} {job : Job} (hjob : Fills job) {fs : Files} {i : Nat} {w : Write}
    (hfs : toPath d.fs (inDir h.filePath h.mName) = toPath fs (inDir h.filePath h.mName))
    (hw : w ∈ h.jobWrites con des st d job) : Creates h.filePath fs i h.mName w := by
  cases job with
  | save s1 s2 s3 =>
      rw [HPStart.jobWrites, List.mem_append, List.mem_append] at hw
      rcases hw with (hw | hw) | hw
      · exact creates_of_mem_filledWrites hfs (by simp [parts]) hw
      · exact creates_of_mem_filledWrites hfs (by simp [parts]) hw
      · exact creates_of_mem_filledWrites hfs (by simp [parts]) hw
  | mhp connection get post => exact creates_of_mem_importWrites hfs (by simp [parts]) hw
  | start => exact hjob.elim
  | sh => exact hjob.elim

/-- A task for a new mode writes something only if nothing has its name. -/
theorem creates_of_mem_taskWrites {h : HPStart} {con : Context} {des : Cipher} {st : Storage}
    {d : Device} {job : Job} (hjob : Fills job) (ha : h.isAdd = true) (hs : h.isSave = false)
    {w : Write} (hw : w ∈ h.taskWrites con des st d job) :
    d.fs.node (toPath d.fs (inDir h.filePath h.mName)) = none ∧
      Creates h.filePath d.fs h.ipos h.mName w := by
  rw [HPStart.taskWrites, HPStart.preWrites, ha, hs] at hw
  simp only [Bool.not_false, Bool.and_true, if_true, List.append_assoc] at hw
  rcases List.mem_append.mp hw with hw | hw
  · exact creates_of_mem_mkdirsWrites hw
  · obtain ⟨fs, ⟨hmk, htask, hdev⟩ | ⟨hmk, htask, hdev⟩⟩ := HPStart.onPreExecute_add st d ha hs
    · refine ⟨(mkdirs_dir hmk).1, ?_⟩
      rw [hmk, htask, hdev] at hw
      rcases List.mem_append.mp hw with hw | hw
      · rw [List.mem_singleton.mp hw]
        exact .slot
      · split at hw
        · exact creates_of_mem_jobWrites hjob (toPath_mkdirs hmk (noDots_of_mkdirs hmk)) hw
        · cases hw
    · rw [hmk, htask] at hw
      cases hw

/-- The name of the mode that an operation makes. -/
def created : Op → Option Text
  | .add name _ _ _ => some name
  | .importMode _ name _ _ _ => some name
  | _ => none

/-- A key that is neither that of a slot nor one that a start reads under another type. -/
def KeyApart (key : Text) : Prop := (∀ k, key ≠ modeKey k) ∧ key ∉ typedKeys

/-- The keys that the operations write besides the slots. -/
def otherKeys : List Text := ["_start", "_stop", "_status", "IPath"]

theorem keyApart_of_mem {key : Text} (h : key ∈ otherKeys) : KeyApart key := by
  have hall : ∀ k ∈ otherKeys, k.head? ≠ some 'm' ∧ k ∉ typedKeys := by decide
  exact ⟨ne_modeKey (hall key h).1, (hall key h).2⟩

/-- What an operation can write. -/
inductive OpWrite (env : Env) (a : MainActivity) : Op → Write → Prop where
  | path {dir : Option Text} {name key value : Text} {connection get post : Option Text}
      (hkey : KeyApart key) :
      OpWrite env a (.importMode dir name connection get post) (.commit key value)
  | create {o : Op} {name : Text} {w : Write} (ho : created o = some name)
      (hfree : a.dev.fs.node (toPath a.dev.fs (inDir env.filePath name)) = none)
      (h : Creates env.filePath a.dev.fs a.i name w) : OpWrite env a o w
  | rename {k : Nat} {name title : Text} {fs : Files} {w : Write} (hk : a.mData[k]? = some title)
      (hfs : renameTo a.dev.fs (inDir env.filePath title) (inDir env.filePath name) = some fs)
      (hw : w = .rename (toPath a.dev.fs (inDir env.filePath title))
          (toPath a.dev.fs (inDir env.filePath name)) ∨
        w = .commit (modeKey k) name) : OpWrite env a (.rename k name) w
  | unlist {k : Nat} {title : Text} {c : Text × Text} (hk : a.mData[k]? = some title)
      (hc : c ∈ deleteCommits a.dev.sp a.i k) : OpWrite env a (.delete k) (.commit c.1 c.2)
  | remove {k : Nat} {title : Text} {p : List Text} (hk : a.mData[k]? = some title)
      (hp : Removes (toPath a.dev.fs (inDir env.filePath title)) p) :
      OpWrite env a (.delete k) (.remove p)
  | install {key value : Text} (hkey : KeyApart key) :
      OpWrite env a .restart (.commit key value)
  | clear {p : List Text} (hnone : readBack a.dev.sp = [])
      (hp : Removes (toPath a.dev.fs (inDir env.filePath defaultMode)) p) :
      OpWrite env a .restart (.remove p)
  | default {fs : Files} {w : Write} (hnone : readBack a.dev.sp = [])
      (h : Creates env.filePath fs 0 defaultMode w) : OpWrite env a .restart w

theorem creates_of_mem_defaultWrites {fs : Files} {w : Write} (h : w ∈ defaultWrites env fs) :
    (∃ p, Removes (toPath fs (inDir env.filePath defaultMode)) p ∧ w = .remove p) ∨
      ∃ fs, Creates env.filePath fs 0 defaultMode w := by
  have hcopy : ∀ part ∈ parts, ∀ fs, w ∈ copyPartWrites env part fs →
      ∃ fs, Creates env.filePath fs 0 defaultMode w := by
    intro part hpart fs hw
    rw [copyPartWrites, FileTool.copyWrites] at hw
    split at hw
    · obtain ⟨data, rfl⟩ := store_of_mem hw
      exact ⟨fs, .part hpart data⟩
    · cases hw
  rw [defaultWrites, List.append_assoc] at h
  rcases List.mem_append.mp h with h | h
  · exact .inl (removes_of_mem h)
  · refine .inr ?_
    rcases List.mem_append.mp h with h | h
    · exact ⟨_, (creates_of_mem_mkdirsWrites h).2⟩
    · split at h
      · cases h
      · rcases List.mem_append.mp h with h | h
        · exact hcopy getHp (by simp [parts]) _ h
        · split at h
          · rcases List.mem_append.mp h with h | h
            · exact hcopy postHp (by simp [parts]) _ h
            · split at h
              · rcases List.mem_append.mp h with h | h
                · exact hcopy connectionHp (by simp [parts]) _ h
                · split at h
                  · rw [List.mem_singleton.mp h]
                    exact ⟨fs, .slot⟩
                  · cases h
              · cases h
          · cases h

theorem opWrite_start {a : MainActivity} {w : Write} (h : w ∈ startWrites env a.dev) :
    OpWrite env a .restart w := by
  rw [startWrites] at h
  split at h
  · cases h
  next inst hinit =>
  rcases List.mem_append.mp h with h | h
  · rw [installWrites] at h
    split at h
    · cases h
    · obtain ⟨c, hc, rfl⟩ := List.mem_map.mp h
      simp only [List.mem_cons, List.not_mem_nil, or_false] at hc
      rcases hc with rfl | rfl | rfl
      · exact .install (keyApart_of_mem (by simp [otherKeys]))
      · exact .install (keyApart_of_mem (by simp [otherKeys]))
      · exact .install (keyApart_of_mem (by simp [otherKeys]))
  · split at h
    · next hempty =>
      obtain rfl := installInit_of_marker hinit hempty.2
      have hnone : readBack a.dev.sp = [] := by
        have hlen := hempty.1
        rw [load_eq, Nat.zero_add] at hlen
        exact List.eq_nil_of_length_eq_zero hlen
      rcases creates_of_mem_defaultWrites h with ⟨p, hp, rfl⟩ | ⟨fs, hw⟩
      · exact .clear hnone hp
      · exact .default hnone hw
    · cases h

/-- Every write of an operation is one of these. -/
theorem opWrite_of_mem {a : MainActivity} {o : Op} {w : Write} (h : w ∈ writes env a o) :
    OpWrite env a o w := by
  cases o with
  | add name s1 s2 s3 =>
      simp only [writes, openAdd] at h
      split at h
      · cases h
      · next e he =>
        split at he
        · cases he
        · cases he
          have hfills : Fills (.save s1 s2 s3) := trivial
          obtain ⟨hfree, hw⟩ := creates_of_mem_taskWrites hfills rfl rfl h
          exact .create rfl hfree hw
  | importMode dir name connection get post =>
      simp only [writes] at h
      rcases List.mem_append.mp h with h | h
      · rcases List.mem_append.mp h with h | h
        · cases dir with
          | none => cases h
          | some p =>
              rw [List.mem_singleton.mp h]
              exact .path (keyApart_of_mem (by simp [otherKeys]))
        · have hfills : Fills (.mhp connection get post) := trivial
          obtain ⟨hfree, hw⟩ := creates_of_mem_taskWrites hfills rfl rfl h
          exact .create rfl hfree hw
      · split at h
        · next himported =>
          rw [List.mem_singleton.mp h]
          refine .create rfl ?_ .slot
          obtain ⟨fs, ⟨hmk, -, -⟩ | ⟨-, htask, -⟩⟩ :=
            HPStart.onPreExecute_add (h := taskAt env a.i name) env.st
              ⟨a.dev.fs, rememberDir a.dev.sp dir⟩ rfl rfl
          · exact (mkdirs_dir hmk).1
          · rw [htask] at himported
            cases himported
        · cases h
  | rename k name =>
      simp only [writes] at h
      split at h
      · cases h
      · next title hk =>
        split at h
        · cases h
        · next fs hfs =>
          refine .rename hk hfs ?_
          rcases List.mem_cons.mp h with h | h
          · exact .inl h
          · exact .inr (List.mem_singleton.mp h)
  | delete k =>
      simp only [writes] at h
      split at h
      · cases h
      · next title hk =>
        rcases List.mem_append.mp h with h | h
        · obtain ⟨c, hc, rfl⟩ := List.mem_map.mp h
          exact .unlist hk hc
        · obtain ⟨p, hp, rfl⟩ := removes_of_mem h
          exact .remove hk hp
  | restart => exact opWrite_start h

end MainActivity

end HapAndroid
