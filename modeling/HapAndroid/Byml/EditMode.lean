import HapAndroid.Lib.Run
import HapAndroid.Tool.HPStart

/-!
# `Edit_mode`

The editor for the three parts of a mode.  It is opened for a listed mode or,
with `is_add`, for a new one, in both cases with the index of the mode's
numbered preference.  Pressing save starts a task; the first task of a new mode
makes the directory and writes the preference.  The editor ends when a task
reports that it saved, or when the user goes back, and tells the caller by a
result code whether a mode was renamed (19) or added (20).

A `Session` follows one editor opened for a new mode through its save presses.
The editor takes a pressed save for a successful one: `is_save` is set whether or
not the directory could be made, and the next press skips the registration.
-/

namespace HapAndroid

/-- What an activity returns to the one that opened it. -/
structure ActivityResult where
  code : Int
  title : Text
  iN : Nat
deriving DecidableEq

/-- The state of the editor. -/
structure EditMode where
  filePath : Text
  mName : Text
  i : Nat
  isAdd : Bool
  isSave : Bool := false
  isRename : Bool := false
  /-- The task created last. -/
  hs : HPStart

namespace EditMode

/-- `onCreate`.  The first task is created before the intent is read, and is
never executed. -/
def onCreate (filePath mName : Text) (i : Nat) (isAdd : Bool) : EditMode where
  filePath := filePath
  mName := mName
  i := i
  isAdd := isAdd
  hs := { filePath := [], mName := [], isAdd := false }

/-- The task a save press creates. -/
def saveTask (e : EditMode) : HPStart where
  filePath := e.filePath
  mName := e.mName
  isAdd := e.isAdd
  ipos := e.i
  isSave := e.isSave
  hasHandler := true

/-- Press save: the editor, whose `hs` is the task now running, and the
device. -/
def pressSave (e : EditMode) (st : Storage) (d : Device) : EditMode × Device :=
  let pre := e.saveTask.onPreExecute st d
  ({ e with hs := pre.1, isSave := true }, pre.2.1)

/-- Confirm the rename dialog.  The flag says whether a task was started: when
the directory cannot be renamed and nothing has the new name, the texts are
saved under it, by a task without a handler. -/
def pressRename (e : EditMode) (st : Storage) (d : Device) (newName : Text) :
    EditMode × Device × Bool :=
  match renameTo d.fs (inDir e.filePath e.mName) (inDir e.filePath newName) with
  | some fs => ({ e with isRename := true, mName := newName }, ⟨fs, putSlot d.sp e.i newName⟩, false)
  | none =>
      if fileExists d.fs (inDir e.filePath newName) then (e, d, false)
      else
        let task : HPStart :=
          { filePath := e.filePath, mName := newName, isAdd := e.isAdd, ipos := e.i }
        let pre := task.onPreExecute st d
        ({ e with hs := pre.1, isSave := true }, pre.2.1, true)

theorem pressRename_of_some {e : EditMode} (st : Storage) {d : Device} {newName : Text} {fs : Files}
    (h : renameTo d.fs (inDir e.filePath e.mName) (inDir e.filePath newName) = some fs) :
    e.pressRename st d newName =
      ({ e with isRename := true, mName := newName }, ⟨fs, putSlot d.sp e.i newName⟩, false) := by
  rw [pressRename, h]

theorem isRename_pressRename_of_none {e : EditMode} (st : Storage) {d : Device} {newName : Text}
    (h : renameTo d.fs (inDir e.filePath e.mName) (inDir e.filePath newName) = none) :
    (e.pressRename st d newName).1.isRename = e.isRename := by
  simp only [pressRename, h]
  split
  · rfl
  · rfl

/-- The result set when the editor is closed, by message 0 or by the user. -/
def close (e : EditMode) : ActivityResult where
  code :=
    if e.isAdd && e.isSave && e.hs.isContinue then 20
    else if e.isRename && e.hs.isContinue then 19
    else -1
  title := e.mName
  iN := e.i

/-- The first press for a new mode registers it, or leaves a stopped task. -/
theorem pressSave_first {e : EditMode} (st : Storage) (d : Device) (ha : e.isAdd = true)
    (hs : e.isSave = false) :
    ∃ fs, (mkdirs st d.fs (inDir e.filePath e.mName) = (true, fs) ∧
        (e.pressSave st d).2 = ⟨fs, putSlot d.sp e.i e.mName⟩) ∨
      (mkdirs st d.fs (inDir e.filePath e.mName) = (false, fs) ∧
        (e.pressSave st d).2 = ⟨fs, d.sp⟩ ∧ (e.pressSave st d).1.hs.isContinue = false) := by
  obtain ⟨fs, ⟨hmk, -, hd⟩ | ⟨hmk, hh, hd⟩⟩ :=
    HPStart.onPreExecute_add (h := e.saveTask) st d ha hs
  · exact ⟨fs, Or.inl ⟨hmk, hd⟩⟩
  · refine ⟨fs, Or.inr ⟨hmk, hd, ?_⟩⟩
    rw [pressSave, hh]

/-- A later press starts a task and changes nothing. -/
theorem pressSave_again {e : EditMode} (st : Storage) (d : Device) (hs : e.isSave = true) :
    e.pressSave st d = ({ e with hs := e.saveTask, isSave := true }, d) := by
  rw [pressSave, HPStart.onPreExecute_other st d (Or.inr hs)]

theorem close_code_eq_added {e : EditMode} :
    e.close.code = 20 ↔ e.isAdd = true ∧ e.isSave = true ∧ e.hs.isContinue = true := by
  rw [← Bool.and_eq_true, ← Bool.and_eq_true, ← Bool.and_assoc]
  rw [close]
  cases e.isAdd && e.isSave && e.hs.isContinue with
  | true => simp
  | false =>
      cases e.isRename && e.hs.isContinue with
      | true => simp
      | false => simp

end EditMode

/-! ## Sessions -/

/-- One editor with the device and the tasks that have not ended. -/
structure Session where
  edit : EditMode
  dev : Device
  tasks : List (HPStart × Job) := []
  /-- The result, once the editor has ended. -/
  result : Option ActivityResult := none

namespace Session

/-- What can happen in a session.  Each task sees the storage as it is when it
runs. -/
inductive Event where
  | press (st : Storage) (s1 s2 s3 : Text)
  /-- A task runs and reports. -/
  | complete (k : Nat) (st : Storage)
  | back

/-- A session opened for a new mode. -/
def start (filePath mName : Text) (i : Nat) (d : Device) : Session where
  edit := .onCreate filePath mName i true
  dev := d

section

variable (con : Context) (des : Cipher)

/-- One event.  Nothing happens in an editor that has ended. -/
def step (s : Session) (e : Event) : Option Session :=
  if s.result.isSome then none
  else
    match e with
    | .press st s1 s2 s3 =>
        let p := s.edit.pressSave st s.dev
        some { s with edit := p.1, dev := p.2, tasks := s.tasks ++ [(p.1.hs, .save s1 s2 s3)] }
    | .complete k st =>
        match s.tasks[k]? with
        | none => none
        | some (h, job) =>
            let r := h.doInBackground con des st s.dev job
            let s' := { s with dev := r.1, tasks := s.tasks.eraseIdx k }
            match h.onPostExecute r.2.2 with
            | .none => some s'
            | .send _ => some { s' with result := some s.edit.close }
            | .crash => none
    | .back => some { s with result := some s.edit.close }

/-- What an event does.  Only a press touches the editor's fields and the
preferences. -/
inductive StepCases (s t : Session) : Event → Prop where
  | press (st : Storage) (s1 s2 s3 : Text) (hedit : t.edit = (s.edit.pressSave st s.dev).1)
      (hdev : t.dev = (s.edit.pressSave st s.dev).2) (hres : t.result = none) :
      StepCases s t (.press st s1 s2 s3)
  | complete (k : Nat) (st : Storage) (htasks : s.tasks ≠ []) (hedit : t.edit = s.edit)
      (hsp : t.dev.sp = s.dev.sp) (hres : ∀ r, t.result = some r → r = t.edit.close) :
      StepCases s t (.complete k st)
  | back (hedit : t.edit = s.edit) (hdev : t.dev = s.dev) (htasks : t.tasks = s.tasks)
      (hres : t.result = some t.edit.close) : StepCases s t .back

theorem step_cases {s t : Session} {e : Event} (h : step con des s e = some t) :
    StepCases s t e := by
  rw [step.eq_def] at h
  split at h
  · cases h
  · next hopen =>
    have hnone : s.result = none := Option.not_isSome_iff_eq_none.mp hopen
    cases e with
    | press st s1 s2 s3 =>
        cases h
        exact .press st s1 s2 s3 rfl rfl hnone
    | complete k st =>
        cases htask : s.tasks[k]? with
        | none => simp [htask] at h
        | some task =>
            obtain ⟨hp, job⟩ := task
            have htasks : s.tasks ≠ [] := by
              intro hnil
              simp [hnil] at htask
            simp only [htask] at h
            have hsp := hp.sp_doInBackground con des st s.dev job
            split at h
            · cases h
              refine .complete k st htasks rfl hsp ?_
              intro r hr
              rw [hnone] at hr
              cases hr
            · cases h
              refine .complete k st htasks rfl hsp ?_
              intro r hr
              cases hr
              rfl
            · cases h
    | back =>
        cases h
        exact .back rfl rfl rfl rfl

/-! ## What the presses have done -/

/-- The presses of a session so far. -/
structure Seen where
  presses : Nat
  /-- Whether the first one made the directory. -/
  made : Bool

/-- Take note of an event of a session that starts on a device. -/
def see (filePath mName : Text) (d : Device) (a : Seen) : Event → Seen
  | .press st _ _ _ =>
      if a.presses = 0 then ⟨1, (mkdirs st d.fs (inDir filePath mName)).1⟩
      else ⟨a.presses + 1, a.made⟩
  | _ => a

def seen (filePath mName : Text) (d : Device) (es : List Event) : Seen :=
  es.foldl (see filePath mName d) ⟨0, false⟩

/-- A session follows its presses. -/
structure Tracks (filePath mName : Text) (i : Nat) (d : Device) (s : Session) (a : Seen) :
    Prop where
  opened : s.edit.filePath = filePath ∧ s.edit.mName = mName ∧ s.edit.i = i ∧ s.edit.isAdd = true
  isSave : s.edit.isSave = decide (a.presses ≠ 0)
  unpressed : a.presses = 0 → s.dev = d ∧ s.tasks = []
  made : a.presses ≠ 0 → a.made = true → s.dev.sp.getString? (modeKey i) = some mName
  failed : a.presses ≠ 0 → a.made = false →
    s.dev.sp = d.sp ∧ s.edit.hs.isContinue = decide (2 ≤ a.presses)
  result : ∀ r, s.result = some r → r = s.edit.close

theorem tracks_start (filePath mName : Text) (i : Nat) (d : Device) :
    Tracks filePath mName i d (start filePath mName i d) ⟨0, false⟩ where
  opened := ⟨rfl, rfl, rfl, rfl⟩
  isSave := rfl
  unpressed _ := ⟨rfl, rfl⟩
  made h := absurd rfl h
  failed h := absurd rfl h
  result r hr := by cases hr

theorem tracks_first_press {filePath mName : Text} {i : Nat} {d : Device} {s t : Session}
    {a : Seen} {st : Storage} {s1 s2 s3 : Text} (hR : Tracks filePath mName i d s a)
    (hfirst : a.presses = 0) (hedit : t.edit = (s.edit.pressSave st s.dev).1)
    (hdev : t.dev = (s.edit.pressSave st s.dev).2) (hres : t.result = none) :
    Tracks filePath mName i d t (see filePath mName d a (.press st s1 s2 s3)) := by
  obtain ⟨hd, -⟩ := hR.unpressed hfirst
  have hsave : s.edit.isSave = false := by
    rw [hR.isSave, hfirst]
    rfl
  obtain ⟨hpath, hname, hi, hadd⟩ := hR.opened
  have hpress := EditMode.pressSave_first st s.dev hadd hsave
  rw [hpath, hname, hi, ← hdev, ← hedit, hd] at hpress
  simp only [see, if_pos hfirst]
  refine ⟨?_, ?_, ?_, ?_, ?_, ?_⟩
  · rw [hedit]; exact hR.opened
  · rw [hedit]; rfl
  · intro h; cases h
  · intro _ hmade
    obtain ⟨fs, ⟨-, hdev'⟩ | ⟨hmk, -, -⟩⟩ := hpress
    · rw [hdev']
      exact Prefs.getString?_putString_self ..
    · simp [hmk] at hmade
  · intro _ hmade
    obtain ⟨fs, ⟨hmk, -⟩ | ⟨-, hdev', hstop⟩⟩ := hpress
    · simp [hmk] at hmade
    · rw [hdev']
      exact ⟨rfl, hstop⟩
  · intro r hr
    rw [hres] at hr
    cases hr

theorem tracks_later_press {filePath mName : Text} {i : Nat} {d : Device} {s t : Session}
    {a : Seen} {st : Storage} {s1 s2 s3 : Text} (hR : Tracks filePath mName i d s a)
    (hlater : a.presses ≠ 0) (hedit : t.edit = (s.edit.pressSave st s.dev).1)
    (hdev : t.dev = (s.edit.pressSave st s.dev).2) (hres : t.result = none) :
    Tracks filePath mName i d t (see filePath mName d a (.press st s1 s2 s3)) := by
  have hsave : s.edit.isSave = true := by
    rw [hR.isSave]
    exact decide_eq_true hlater
  rw [EditMode.pressSave_again st s.dev hsave] at hedit hdev
  simp only [see, if_neg hlater]
  refine ⟨?_, ?_, ?_, ?_, ?_, ?_⟩
  · rw [hedit]; exact hR.opened
  · rw [hedit]; exact (decide_eq_true (Nat.succ_ne_zero _)).symm
  · intro h; cases h
  · intro _ hmade
    rw [hdev]
    exact hR.made hlater hmade
  · intro _ hmade
    have htwo : 2 ≤ a.presses + 1 := by omega
    rw [hdev, hedit]
    exact ⟨(hR.failed hlater hmade).1, (decide_eq_true htwo).symm⟩
  · intro r hr
    rw [hres] at hr
    cases hr

theorem tracks_step {filePath mName : Text} {i : Nat} {d : Device} (s : Session) (e : Event)
    (t : Session) (a : Seen) (_ : True) (hR : Tracks filePath mName i d s a)
    (h : step con des s e = some t) : Tracks filePath mName i d t (see filePath mName d a e) := by
  cases step_cases con des h with
  | press st s1 s2 s3 hedit hdev hres =>
      by_cases hfirst : a.presses = 0
      · exact tracks_first_press hR hfirst hedit hdev hres
      · exact tracks_later_press hR hfirst hedit hdev hres
  | complete k st htasks hedit hsp hres =>
      have hpressed : a.presses ≠ 0 := fun h0 => htasks (hR.unpressed h0).2
      exact
        { opened := by rw [hedit]; exact hR.opened
          isSave := by rw [hedit]; exact hR.isSave
          unpressed := fun h0 => absurd h0 hpressed
          made := by rw [hsp]; exact hR.made
          failed := by rw [hsp, hedit]; exact hR.failed
          result := hres }
  | back hedit hdev htasks hres =>
      exact
        { opened := by rw [hedit]; exact hR.opened
          isSave := by rw [hedit]; exact hR.isSave
          unpressed := by rw [hdev, htasks]; exact hR.unpressed
          made := by rw [hdev]; exact hR.made
          failed := by rw [hdev, hedit]; exact hR.failed
          result := by
            intro r hr
            rw [hres, Option.some.injEq] at hr
            exact hr.symm }

theorem tracks_run {filePath mName : Text} {i : Nat} {d : Device} {es : List Event} {s : Session}
    (h : Run.run (step con des) (start filePath mName i d) es = some s) :
    Tracks filePath mName i d s (seen filePath mName d es) :=
  Run.run_simulates (tracks_step con des) es (fun _ _ => trivial)
    (tracks_start filePath mName i d) h

/-- A session that reports an added mode has registered it, exactly when the
first press made the directory, or there was no second one, or the preference
held the name before. -/
theorem added_registered_iff {filePath mName : Text} {i : Nat} {d : Device} {es : List Event}
    {s : Session} {r : ActivityResult}
    (hrun : Run.run (step con des) (start filePath mName i d) es = some s)
    (hend : s.result = some r) :
    (r.code = 20 → s.dev.sp.getString? (modeKey i) = some mName) ↔
      (seen filePath mName d es).made = true ∨ (seen filePath mName d es).presses ≤ 1 ∨
        d.sp.getString? (modeKey i) = some mName := by
  have hR := tracks_run con des hrun
  have hr := hR.result r hend
  generalize seen filePath mName d es = a at hR
  rw [hr, EditMode.close_code_eq_added, hR.isSave, decide_eq_true_iff]
  by_cases hpressed : a.presses = 0
  · constructor
    · intro _
      exact Or.inr (Or.inl (by omega))
    · intro _ hcode
      exact absurd hpressed hcode.2.1
  · cases hmade : a.made with
    | true =>
        constructor
        · intro _
          exact Or.inl rfl
        · intro _ _
          exact hR.made hpressed hmade
    | false =>
        obtain ⟨hsp, hcont⟩ := hR.failed hpressed hmade
        rw [hsp, hcont, decide_eq_true_iff]
        constructor
        · intro h
          by_cases htwo : 2 ≤ a.presses
          · exact Or.inr (Or.inr (h ⟨hR.opened.2.2.2, hpressed, htwo⟩))
          · exact Or.inr (Or.inl (by omega))
        · rintro (h | h | h) hcode
          · cases h
          · omega
          · exact h

end

/-- One press whose directory is made. -/
theorem added_registered_after_press :
    ∃ s r, Run.run (step .bare .plain) (start "/d" "a" 0 ⟨.bare, .empty⟩)
        [.press .sound [] [] [], .back] = some s ∧
      s.result = some r ∧ r.code = 20 ∧ s.dev.sp.getString? (modeKey 0) = some ("a" : Text) := by
  refine ⟨_, _, rfl, rfl, by decide, ?_⟩
  have h := @added_registered_iff .bare .plain "/d" "a" 0 ⟨.bare, .empty⟩
    [.press .sound [] [] [], .back] _ _ rfl rfl
  exact h.mpr (by decide) (by decide)

/-- On a full storage, two presses report a mode that is not registered. -/
theorem added_unregistered_on_full_storage :
    ∃ s r, Run.run (step .bare .plain) (start "/d" "a" 0 ⟨.bare, .empty⟩)
        [.press .full [] [] [], .complete 0 .full, .press .full [] [] [], .complete 0 .full] =
          some s ∧
      s.result = some r ∧ r.code = 20 ∧ s.dev.sp.getString? (modeKey 0) = none :=
  ⟨_, _, rfl, rfl, by decide, by decide⟩

end Session

end HapAndroid
