import HapAndroid.Tool.HPStart

/-!
# What a finished save or import has written

`HPStart` writes the three parts of a mode one after the other and drops the
flags of the writes.  The result `"1"` of a save and `"3"` of an import therefore
say nothing about the files.  `result_honest_iff` has the condition under which
they do: every part can be opened and is taken whole, or stands there already.
-/

namespace HapAndroid

/-! ## One write -/

/-- A file can be opened for writing: its directory is there, and it is absent or
an ordinary file. -/
def Opens (fs : Files) (p : List Text) : Prop :=
  p ≠ [] ∧ fs.node p.dropLast = some .dir ∧ ∀ x, fs.node p = some x → ∃ data, x = .file data

/-- A file that is asked to hold some bytes will: it can be opened and the storage
takes them all, or the storage refuses and the bytes are there already. -/
def Takes (st : Storage) (fs : Files) (p : List Text) (data : List UInt8) : Prop :=
  match st.write p with
  | .refused => fs.node p = some (.file data)
  | .cut n => Opens fs p ∧ data.length ≤ n
  | .done => Opens fs p

theorem opens_iff {fs : Files} {p : List Text} (data : List UInt8) :
    Opens fs p ↔ ∃ fs', fs.writeFile p data = some fs' := by
  constructor
  · rintro ⟨hne, hpar, hfree⟩
    exact fs.writeFile_isSome data hne hpar hfree
  · rintro ⟨fs', h⟩
    obtain ⟨hlocked, hput⟩ := fs.writeFile_eq_some h
    obtain ⟨hne, hpar, hdir⟩ := (fs.put_eq_some hput).1
    refine ⟨hne, hpar, fun x hx => ?_⟩
    cases x with
    | dir => exact absurd hx hdir
    | file data => exact ⟨data, rfl⟩
    | locked => exact absurd hx hlocked

/-- An ordinary file can be opened. -/
theorem opens_of_file {fs : Files} {p : List Text} {data : List UInt8}
    (h : fs.node p = some (.file data)) : Opens fs p := by
  cases p using List.reverseRecOn with
  | nil => simp [fs.root] at h
  | append_singleton p n =>
      refine ⟨by simp, ?_, fun x hx => ⟨data, ?_⟩⟩
      · rw [List.dropLast_concat]
        exact fs.parent (by rw [h]; simp)
      · rw [h, Option.some.injEq] at hx
        exact hx.symm

theorem takes_congr {st : Storage} {fs fs' : Files} {p : List Text} {data : List UInt8}
    (hp : fs'.node p = fs.node p) (hpar : fs'.node p.dropLast = fs.node p.dropLast) :
    Takes st fs' p data ↔ Takes st fs p data := by
  simp only [Takes, Opens, hp, hpar]

/-- After a write the file holds the bytes exactly if it takes them. -/
theorem node_writeBytes_iff {st : Storage} {fs : Files} {name : Text} {data : List UInt8} :
    (FileTool.writeBytes st data name fs).2.node (toPath fs name) = some (.file data) ↔
      Takes st fs (toPath fs name) data := by
  -- A file that cannot be opened is not an ordinary file, so it does not hold the bytes.
  have hclosed : ∀ data', fs.writeFile (toPath fs name) data' = none →
      (fs.node (toPath fs name) = some (.file data) ↔ Opens fs (toPath fs name)) := by
    intro data' hnone
    have hnot : ¬ Opens fs (toPath fs name) := fun h => by
      obtain ⟨fs', hfs⟩ := (opens_iff data').mp h
      rw [hnone] at hfs
      cases hfs
    exact iff_of_false (fun h => hnot (opens_of_file h)) hnot
  simp only [FileTool.writeBytes, Takes]
  cases st.write (toPath fs name) with
  | refused => exact Iff.rfl
  | done =>
      dsimp only
      cases hfs : fs.writeFile (toPath fs name) data with
      | none => exact hclosed data hfs
      | some fs' =>
          refine iff_of_true ?_ ((opens_iff _).mpr ⟨fs', hfs⟩)
          exact (fs.node_writeFile hfs _).trans (if_pos rfl)
  | cut n =>
      dsimp only
      cases hfs : fs.writeFile (toPath fs name) (data.take n) with
      | none =>
          refine (hclosed _ hfs).trans ⟨fun h => ?_, And.left⟩
          obtain ⟨fs', hfs'⟩ := (opens_iff (data.take n)).mp h
          rw [hfs] at hfs'
          cases hfs'
      | some fs' =>
          have hopen := (opens_iff _).mpr ⟨fs', hfs⟩
          rw [Option.getD_some, fs.node_writeFile hfs, if_pos rfl, Option.some.injEq,
            Node.file.injEq, List.take_eq_self_iff]
          exact (and_iff_right hopen).symm

/-! ## Several writes -/

/-- Write some texts to files, one after the other, whatever becomes of them. -/
def writeAll (st : Storage) : List (Text × Text) → Files → Files
  | [], fs => fs
  | (name, str) :: rest, fs => writeAll st rest (FileTool.writeSDFile st str name fs).2

/-- What is none of the files is unchanged. -/
theorem node_writeAll_of_ne {st : Storage} {ws : List (Text × Text)} {fs : Files} {q : List Text}
    (hq : ∀ w ∈ ws, q ≠ toPath fs w.1) : (writeAll st ws fs).node q = fs.node q := by
  induction ws generalizing fs with
  | nil => rfl
  | cons w ws ih =>
      obtain ⟨hw, hrest⟩ := List.forall_mem_cons.mp hq
      refine (ih fun w' hw' => ?_).trans (FileTool.node_writeBytes_of_ne st _ fs hw)
      rw [FileTool.toPath_writeSDFile]
      exact hrest w' hw'

/-- After writing files none of which is the directory of another, each holds its
text exactly if it would have taken it at the start. -/
theorem node_writeAll_iff {st : Storage} {ws : List (Text × Text)} {fs : Files}
    (hnodup : (ws.map fun w => toPath fs w.1).Nodup)
    (hdir : ∀ w ∈ ws, ∀ w' ∈ ws, toPath fs w.1 ≠ (toPath fs w'.1).dropLast) :
    (∀ w ∈ ws, (writeAll st ws fs).node (toPath fs w.1) = some (.file (Utf8.encode w.2))) ↔
      ∀ w ∈ ws, Takes st fs (toPath fs w.1) (Utf8.encode w.2) := by
  induction ws generalizing fs with
  | nil => simp
  | cons w ws ih =>
      obtain ⟨hnot, hnodup⟩ := List.nodup_cons.mp hnodup
      have hne : ∀ w' ∈ ws, toPath fs w'.1 ≠ toPath fs w.1 := fun w' hw' heq =>
        hnot (List.mem_map.mpr ⟨w', hw', heq⟩)
      have hfirst : (writeAll st (w :: ws) fs).node (toPath fs w.1) =
          (FileTool.writeSDFile st w.2 w.1 fs).2.node (toPath fs w.1) :=
        node_writeAll_of_ne fun w' hw' => by
          rw [FileTool.toPath_writeSDFile]
          exact (hne w' hw').symm
      rw [List.forall_mem_cons, List.forall_mem_cons, hfirst]
      refine and_congr node_writeBytes_iff ?_
      have hrest := @ih (FileTool.writeSDFile st w.2 w.1 fs).2
      simp only [FileTool.toPath_writeSDFile] at hrest
      refine (hrest hnodup fun a ha b hb =>
        hdir a (List.mem_cons_of_mem _ ha) b (List.mem_cons_of_mem _ hb)).trans ?_
      refine forall₂_congr fun w' hw' => takes_congr ?_ ?_
      · exact FileTool.node_writeBytes_of_ne st _ fs (hne w' hw')
      · exact FileTool.node_writeBytes_of_ne st _ fs
          (hdir w (List.mem_cons_self ..) w' (List.mem_cons_of_mem _ hw')).symm

/-! ## The results of a task -/

namespace HPStart

/-- The files of the three parts with the texts they are to hold. -/
def partWrites (h : HPStart) (ts : List Text) : List (Text × Text) :=
  (parts.map (partFile h.filePath h.mName)).zip ts

/-- The texts a job is to leave in the three parts: the given ones, or the decrypted
ones if they can all be decrypted. -/
def jobTexts (des : Cipher) : Job → Option (List Text)
  | .save s1 s2 s3 => some [s1, s2, s3]
  | .mhp connection get post =>
      (DesUtils.decrypt des connection).bind fun s1 =>
        (DesUtils.decrypt des get).bind fun s2 =>
          (DesUtils.decrypt des post).map fun s3 => [s1, s2, s3]
  | .start => none
  | .sh => none

/-- A task that ends with `"1"` or `"3"` has left its texts in the three parts. -/
def Honest (h : HPStart) (con : Context) (des : Cipher) (st : Storage) (d : Device) (job : Job) :
    Prop :=
  (h.doInBackground con des st d job).2.2 = .saved ∨
      (h.doInBackground con des st d job).2.2 = .imported →
    ∃ ts, jobTexts des job = some ts ∧ ∀ w ∈ h.partWrites ts,
      (h.doInBackground con des st d job).1.fs.node (toPath d.fs w.1) =
        some (.file (Utf8.encode w.2))

/-- Each part takes the text the job has for it. -/
def AllTake (h : HPStart) (des : Cipher) (st : Storage) (d : Device) (job : Job) : Prop :=
  ∀ ts, jobTexts des job = some ts →
    ∀ w ∈ h.partWrites ts, Takes st d.fs (toPath d.fs w.1) (Utf8.encode w.2)

section result
variable (h : HPStart) (con : Context) (des : Cipher) (st : Storage) (d : Device) (job : Job)

/-- A job ends with `"1"` or `"3"` exactly if it has texts for the parts, and it has
then tried to write them all. -/
theorem runJob_cases :
    (∃ ts, jobTexts des job = some ts ∧ ts.length = 3 ∧
        ((h.runJob con des st d job).2.2 = .saved ∨ (h.runJob con des st d job).2.2 = .imported) ∧
        (h.runJob con des st d job).1.fs = writeAll st (h.partWrites ts) d.fs) ∨
      (jobTexts des job = none ∧ (h.runJob con des st d job).2.2 ≠ .saved ∧
        (h.runJob con des st d job).2.2 ≠ .imported) := by
  cases job with
  | start =>
      refine .inr ⟨rfl, ?_⟩
      simp only [runJob, doStart]
      split <;> simp
  | sh => exact .inr ⟨rfl, by simp [runJob, doSh]⟩
  | save s1 s2 s3 => exact .inl ⟨_, rfl, rfl, .inl rfl, rfl⟩
  | mhp connection get post =>
      simp only [runJob, doMhp, importPart, jobTexts]
      cases DesUtils.decrypt des connection with
      | none => exact .inr ⟨rfl, by simp⟩
      | some s1 =>
          cases DesUtils.decrypt des get with
          | none => exact .inr ⟨rfl, by simp⟩
          | some s2 =>
              cases DesUtils.decrypt des post with
              | none => exact .inr ⟨rfl, by simp⟩
              | some s3 => exact .inl ⟨_, rfl, rfl, .inr rfl, rfl⟩

/-- The paths of the parts are entries of one directory. -/
theorem paths_partWrites {ts : List Text} (hts : ts.length = 3) :
    (h.partWrites ts).map (fun w => toPath d.fs w.1) =
      parts.map fun part => toPath d.fs (inDir h.filePath h.mName) ++ [part] := by
  have hfst : (h.partWrites ts).map Prod.fst = parts.map (partFile h.filePath h.mName) :=
    List.map_fst_zip (by simp [hts, parts])
  calc (h.partWrites ts).map (fun w => toPath d.fs w.1)
      = ((h.partWrites ts).map Prod.fst).map (toPath d.fs) := by rw [List.map_map]; rfl
    _ = parts.map fun part => toPath d.fs (partFile h.filePath h.mName part) := by
        rw [hfst, List.map_map]
        rfl
    _ = parts.map fun part => toPath d.fs (inDir h.filePath h.mName) ++ [part] :=
        List.map_congr_left fun part hpart => toPath_partFile (plain_of_mem_parts part hpart) _ _

/-- The results are honest exactly if the task does not go on or each part takes its
text. -/
theorem result_honest_iff :
    h.Honest con des st d job ↔ (h.isContinue = true → h.AllTake des st d job) := by
  rw [Honest, doInBackground]
  cases hcont : h.isContinue with
  | false => simp
  | true =>
      rw [if_pos rfl]
      rcases runJob_cases h con des st d job with ⟨ts, hts, hlen, hres, hfs⟩ | ⟨hts, hres⟩
      · have hpaths := paths_partWrites h d hlen
        have hmem : ∀ w ∈ h.partWrites ts, ∃ part ∈ parts,
            toPath d.fs w.1 = toPath d.fs (inDir h.filePath h.mName) ++ [part] := fun w hw => by
          have hw' : toPath d.fs w.1 ∈ (h.partWrites ts).map fun w => toPath d.fs w.1 :=
            List.mem_map.mpr ⟨w, hw, rfl⟩
          rw [hpaths] at hw'
          obtain ⟨part, hpart, heq⟩ := List.mem_map.mp hw'
          exact ⟨part, hpart, heq.symm⟩
        have hnodup : ((h.partWrites ts).map fun w => toPath d.fs w.1).Nodup := by
          rw [hpaths]
          refine List.Nodup.map (fun a b hab => ?_) (by decide)
          simpa using hab
        have hdir : ∀ w ∈ h.partWrites ts, ∀ w' ∈ h.partWrites ts,
            toPath d.fs w.1 ≠ (toPath d.fs w'.1).dropLast := by
          intro w hw w' hw'
          obtain ⟨part, -, heq⟩ := hmem w hw
          obtain ⟨part', -, heq'⟩ := hmem w' hw'
          rw [heq, heq', List.dropLast_concat]
          simp
        have hiff := @node_writeAll_iff st _ d.fs hnodup hdir
        simp only [hts, Option.some.injEq, AllTake, hfs, hres, forall_const, exists_eq_left',
          forall_eq']
        exact hiff
      · simp [hts, hres, AllTake]

end result

/-- A task for a mode whose directory is not there. -/
def orphanSave : HPStart := ⟨"/f", "m", false, 0, true, true, true⟩

/-- It reports that the mode was saved, and nothing was written. -/
theorem save_reported_not_written :
    (orphanSave.doInBackground .bare .plain .sound ⟨.bare, .empty⟩ (.save "a" "b" "c")).2.2 =
        .saved ∧
      orphanSave.onPostExecute .saved = .send (.saved "m") ∧
      (orphanSave.doInBackground .bare .plain .sound ⟨.bare, .empty⟩
        (.save "a" "b" "c")).1.fs.node ["f".toList, "m".toList, connectionHp] = none ∧
      ¬ orphanSave.Honest .bare .plain .sound ⟨.bare, .empty⟩ (.save "a" "b" "c") := by
  have hnone : (orphanSave.doInBackground .bare .plain .sound ⟨.bare, .empty⟩
      (.save "a" "b" "c")).1.fs.node ["f".toList, "m".toList, connectionHp] = none := by
    decide +kernel
  refine ⟨rfl, rfl, hnone, fun hon => ?_⟩
  obtain ⟨ts, hts, hall⟩ := hon (.inl rfl)
  cases hts
  have hfirst := hall _ (List.mem_cons_self ..)
  have hpath : toPath .bare (partFile orphanSave.filePath orphanSave.mName connectionHp) =
      ["f".toList, "m".toList, connectionHp] := by decide +kernel
  dsimp only at hfirst
  rw [hpath, hnone] at hfirst
  cases hfirst

end HPStart

end HapAndroid
