import HapAndroid.Byml.MainActivity

/-!
# The main screen with its tasks and editors

Adding and importing a mode take several steps, and other steps can come between
them.  An import begins on the main screen with its directory and its numbered
preference, runs in the background, and is reported by a message.  A new mode
begins with an editor that captures the counter, is registered when it is saved,
and is reported by a result.  `System` is the main screen together with the
imports that have begun and the editors that are open, and `step` performs one
event in it.  An event whose file operations fail is not a step.

`step_cases` says what each event does.
-/

namespace HapAndroid

/-- The main screen, the begun imports and the editors open for new modes. -/
structure System where
  app : MainActivity
  imports : List (HPStart × Job) := []
  adds : List EditMode := []

namespace System

/-- One step of adding, importing or deleting. -/
inductive Event where
  /-- An MHP object was read, from a file in `dir` chosen in the file browser or
  from an intent.  The task prepares. -/
  | beginImport (dir : Option Text) (m : MHP)
  /-- The task runs and its message arrives. -/
  | finishImport (k : Nat)
  /-- The name of a new mode is confirmed. -/
  | openAdd (name : Text)
  /-- The save button of an editor is pressed and the task runs. -/
  | saveAdd (k : Nat) (s1 s2 s3 : Text)
  /-- The result of an editor arrives. -/
  | addResult (k : Nat)
  /-- An entry of the list is clicked and its deletion confirmed. -/
  | delete (k : Nat)

variable (env : Env)

def beginImport (s : System) (dir : Option Text) (m : MHP) : Option System :=
  match s.app.importTask env m with
  | none => none
  | some (task, job) =>
      let pre := task.onPreExecute env.st
        ⟨s.app.dev.fs, MainActivity.rememberDir s.app.dev.sp dir⟩
      if pre.1.isContinue then
        some { s with
          app := { s.app with dev := pre.2.1 }
          imports := s.imports ++ [(pre.1, job)] }
      else none

def finishImport (s : System) (k : Nat) : Option System :=
  match s.imports[k]? with
  | none => none
  | some (task, job) =>
      let r := task.doInBackground env.con env.des env.st s.app.dev job
      match task.onPostExecute r.2.2 with
      | .send (.imported name) =>
          some { s with
            app := MainActivity.appendMode { s.app with dev := r.1 } name
            imports := s.imports.eraseIdx k }
      | _ => none

def openAdd (s : System) (name : Text) : Option System :=
  (s.app.openAdd env name).map fun e => { s with adds := s.adds ++ [e] }

def saveAdd (s : System) (k : Nat) (s1 s2 s3 : Text) : Option System :=
  match s.adds[k]? with
  | none => none
  | some e =>
      if e.isSave then none
      else
        let p := e.pressSave env.st s.app.dev
        if p.1.hs.isContinue then
          let r := p.1.hs.doInBackground env.con env.des env.st p.2 (.save s1 s2 s3)
          some { s with app := { s.app with dev := r.1 }, adds := s.adds.set k p.1 }
        else none

def addResult (s : System) (k : Nat) : Option System :=
  s.adds[k]?.map fun e =>
    { s with app := s.app.onActivityResult e.close, adds := s.adds.eraseIdx k }

def delete (s : System) (k : Nat) : Option System :=
  match s.app.onChildClick k with
  | none => none
  | some a =>
      let r := a.deleteMode env
      if r.1 then some { s with app := r.2 } else none

/-- One event. -/
def step (s : System) : Event → Option System
  | .beginImport dir m => beginImport env s dir m
  | .finishImport k => finishImport env s k
  | .openAdd name => openAdd env s name
  | .saveAdd k s1 s2 s3 => saveAdd env s k s1 s2 s3
  | .addResult k => addResult s k
  | .delete k => delete env s k

/-! ## What the events do -/

/-- What an event does. -/
inductive StepCases (s t : System) : Event → Prop where
  | beginImport (dir : Option Text) (m : MHP) (name : Text) (fs : Files)
      (hname : m.name = some name)
      (hmk : mkdirs env.st s.app.dev.fs (inDir env.filePath name) = (true, fs))
      (ht : t =
        { s with
          app := { s.app with
            dev := ⟨fs, putSlot (MainActivity.rememberDir s.app.dev.sp dir) s.app.i name⟩ }
          imports := s.imports ++
            [(MainActivity.taskAt env s.app.i name, .mhp m.connection m.get m.post)] }) :
      StepCases s t (.beginImport dir m)
  | finishImport (k : Nat) (task : HPStart) (job : Job) (d : Device)
      (hk : s.imports[k]? = some (task, job))
      (hd : d = (task.doInBackground env.con env.des env.st s.app.dev job).1)
      (ht : t =
        { s with
          app := MainActivity.appendMode { s.app with dev := d } task.mName
          imports := s.imports.eraseIdx k }) :
      StepCases s t (.finishImport k)
  | openAdd (name : Text) (hne : name ≠ [])
      (hfree : fileExists s.app.dev.fs (inDir env.filePath name) = false)
      (ht : t = { s with adds := s.adds ++ [.onCreate env.filePath name s.app.i true] }) :
      StepCases s t (.openAdd name)
  | saveAdd (k : Nat) (s1 s2 s3 : Text) (e : EditMode) (hk : s.adds[k]? = some e)
      (hsave : e.isSave = false)
      (hcont : (e.pressSave env.st s.app.dev).1.hs.isContinue = true)
      (ht : t =
        { s with
          app := { s.app with
            dev := ((e.pressSave env.st s.app.dev).1.hs.doInBackground env.con env.des env.st
              (e.pressSave env.st s.app.dev).2 (.save s1 s2 s3)).1 }
          adds := s.adds.set k (e.pressSave env.st s.app.dev).1 }) :
      StepCases s t (.saveAdd k s1 s2 s3)
  | addResult (k : Nat) (e : EditMode) (hk : s.adds[k]? = some e)
      (ht : t =
        { s with app := s.app.onActivityResult e.close, adds := s.adds.eraseIdx k }) :
      StepCases s t (.addResult k)
  | delete (k : Nat) (title : Text) (hk : s.app.mData[k]? = some title)
      (ht : t =
        { s with
          app := (MainActivity.deleteMode env { s.app with nowI := k, nowName := title }).2 }) :
      StepCases s t (.delete k)

variable {env}

theorem beginImport_cases {s t : System} {dir : Option Text} {m : MHP}
    (h : beginImport env s dir m = some t) : StepCases env s t (.beginImport dir m) := by
  rw [beginImport, MainActivity.importTask] at h
  cases hname : m.name with
  | none => simp [hname] at h
  | some name =>
      simp only [hname, Option.map_some] at h
      split at h
      · next hcont =>
        have hpre := HPStart.onPreExecute_add (h := MainActivity.taskAt env s.app.i name) env.st
          ⟨s.app.dev.fs, MainActivity.rememberDir s.app.dev.sp dir⟩ rfl rfl
        obtain ⟨fs, ⟨hmk, htask, hdev⟩ | ⟨-, htask, -⟩⟩ := hpre
        · refine .beginImport dir m name fs hname hmk ?_
          rw [← Option.some.inj h]
          rw [htask, hdev]
          rfl
        · rw [htask] at hcont
          cases hcont
      · cases h

theorem finishImport_cases {s t : System} {k : Nat} (h : finishImport env s k = some t) :
    StepCases env s t (.finishImport k) := by
  rw [finishImport] at h
  cases hk : s.imports[k]? with
  | none => simp [hk] at h
  | some p =>
      obtain ⟨task, job⟩ := p
      simp only [hk] at h
      split at h
      · next name hpost =>
        have hname : name = task.mName := by
          rw [HPStart.onPostExecute.eq_def] at hpost
          split at hpost
          · split at hpost <;> cases hpost
          · split at hpost
            · cases hpost
              rfl
            · cases hpost
          · cases hpost
        refine .finishImport k task job _ hk rfl ?_
        rw [← Option.some.inj h, hname]
      · cases h

theorem openAdd_cases {s t : System} {name : Text} (h : openAdd env s name = some t) :
    StepCases env s t (.openAdd name) := by
  rw [openAdd, MainActivity.openAdd] at h
  split at h
  · cases h
  · next hok =>
    rw [not_or] at hok
    refine .openAdd name ?_ (by simpa using hok.2) (Option.some.inj h).symm
    rintro rfl
    exact hok.1 (by decide)

theorem saveAdd_cases {s t : System} {k : Nat} {s1 s2 s3 : Text}
    (h : saveAdd env s k s1 s2 s3 = some t) : StepCases env s t (.saveAdd k s1 s2 s3) := by
  rw [saveAdd] at h
  cases hk : s.adds[k]? with
  | none => simp [hk] at h
  | some e =>
      simp only [hk] at h
      split at h
      · cases h
      · next hsave =>
        split at h
        · next hcont =>
          exact .saveAdd k s1 s2 s3 e hk (Bool.eq_false_iff.mpr hsave) hcont
            (Option.some.inj h).symm
        · cases h

theorem addResult_cases {s t : System} {k : Nat} (h : addResult s k = some t) :
    StepCases env s t (.addResult k) := by
  rw [addResult, Option.map_eq_some_iff] at h
  obtain ⟨e, hk, ht⟩ := h
  exact .addResult k e hk ht.symm

theorem delete_cases {s t : System} {k : Nat} (h : delete env s k = some t) :
    StepCases env s t (.delete k) := by
  rw [delete, MainActivity.onChildClick] at h
  cases hk : s.app.mData[k]? with
  | none => simp [hk] at h
  | some title =>
      simp only [hk, Option.map_some] at h
      split at h
      · exact .delete k title hk (Option.some.inj h).symm
      · cases h

theorem step_cases {s t : System} {e : Event} (h : step env s e = some t) :
    StepCases env s t e := by
  cases e with
  | beginImport dir m => exact beginImport_cases h
  | finishImport k => exact finishImport_cases h
  | openAdd name => exact openAdd_cases h
  | saveAdd k s1 s2 s3 => exact saveAdd_cases h
  | addResult k => exact addResult_cases h
  | delete k => exact delete_cases h

end System

end HapAndroid
