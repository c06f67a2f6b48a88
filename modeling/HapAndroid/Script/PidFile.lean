import HapAndroid.Lib.Run
import HapAndroid.Tool.HPStart

/-!
# `start.sh`, `stop.sh` and the file of process ids

`start.sh` runs the proxy, which writes its process id to `haproxy.pid` when it
comes up.  `stop.sh` sends a signal to every id in that file.  A mode start runs
the stop command first and the start command after it.  Nothing removes the file,
so it outlives the process it names, and the system may give the id to another
program.

The model is the process table and the file, changed by the two scripts and by
processes coming and going.  A signal changes nothing by itself: the exit it may
cause is an event of its own.  `signals_only_hap_iff` says for which runs every
signal goes to the proxy.
-/

namespace HapAndroid.PidFile

inductive Program where
  | hap
  | other
deriving DecidableEq

/-- The processes by id, the lines of `haproxy.pid`, and the number of mode starts
between their two commands. -/
structure State where
  proc : Nat → Option Program
  pidFile : List Nat
  starting : Nat

/-- No proxy has been started and no file written. -/
def State.fresh : State := ⟨fun _ => none, [], 0⟩

def State.setProc (s : State) (pid : Nat) (x : Option Program) : State :=
  { s with proc := fun q => if q = pid then x else s.proc q }

theorem State.proc_setProc (s : State) (pid : Nat) (x : Option Program) (q : Nat) :
    (s.setProc pid x).proc q = if q = pid then x else s.proc q := rfl

inductive Event where
  /-- The user stops the proxy: `stop.sh`. -/
  | stop
  /-- The first command of a mode start: `stop.sh`. -/
  | startStop
  /-- The second command of a mode start: `start.sh`, with the id of the proxy when
  it comes up. -/
  | startHaP (pid : Option Nat)
  | hapExit (pid : Nat)
  | otherStart (pid : Nat)
  | otherExit (pid : Nat)
deriving DecidableEq

/-- `stop.sh`: the ids it passes to `kill`, line by line. -/
def stopSh (s : State) : List Nat := if s.pidFile ≠ [] then s.pidFile else []

/-- `start.sh`: the proxy comes up under a free id and writes it, or it does not. -/
def startSh (s : State) : Option Nat → Option State
  | none => some s
  | some pid =>
      if s.proc pid = none then some { s.setProc pid (some .hap) with pidFile := [pid] } else none

/-- One event; `none` when it is not possible. -/
def step (s : State) : Event → Option State
  | .stop => some s
  | .startStop => some { s with starting := s.starting + 1 }
  | .startHaP pid =>
      if s.starting = 0 then none else startSh { s with starting := s.starting - 1 } pid
  | .hapExit pid => if s.proc pid = some .hap then some (s.setProc pid none) else none
  | .otherStart pid => if s.proc pid = none then some (s.setProc pid (some .other)) else none
  | .otherExit pid => if s.proc pid = some .other then some (s.setProc pid none) else none

/-- Whether an event runs `stop.sh`. -/
def Event.runsStop : Event → Bool
  | .stop | .startStop => true
  | _ => false

/-- The ids that are signalled. -/
def kills (s : State) (e : Event) : List Nat := if e.runsStop then stopSh s else []

/-- Every signal goes to the proxy. -/
def SignalsHap (s : State) (e : Event) : Prop := ∀ pid ∈ kills s e, s.proc pid = some .hap

instance (s : State) (e : Event) : Decidable (SignalsHap s e) :=
  inferInstanceAs (Decidable (∀ pid ∈ kills s e, s.proc pid = some .hap))

/-! ## The commands of a mode start -/

/-- The commands the installation stores in the preferences. -/
def stopScript (filePath : Text) : Text :=
  ("cd " : Text) ++ filePath ++ ("\nsh ./stop.sh\n" : Text)

def startScript (filePath : Text) : Text :=
  ("cd " : Text) ++ filePath ++ ("\nsh ./start.sh\n" : Text)

/-- What a task does to the processes when the proxy comes up like this. -/
def eventsOf (filePath : Text) (pid : Option Nat) : Effect → Option Event
  | .shell cmd =>
      if cmd = stopScript filePath then some .startStop
      else if cmd = startScript filePath then some (.startHaP pid) else none
  | _ => none

theorem startScript_ne_stopScript (filePath : Text) : startScript filePath ≠ stopScript filePath := by
  intro h
  have hlit := List.append_cancel_left h
  exact absurd hlit (by decide)

/-- Of what a mode start does only the two commands count. -/
theorem filterMap_eventsOf {filePath text stop start : Text} {pid : Option Nat} {e f : Event}
    (hstop : eventsOf filePath pid (.shell stop) = some e)
    (hstart : eventsOf filePath pid (.shell start) = some f) :
    [Effect.progress 20, .line text, .progress 40, .progress 50, .shell stop, .progress 60,
      .progress 70, .shell start, .progress 80, .progress 100].filterMap (eventsOf filePath pid) =
        [e, f] := by
  have hprogress : ∀ n, eventsOf filePath pid (.progress n) = none := fun _ => rfl
  have hline : eventsOf filePath pid (.line text) = none := rfl
  simp only [List.filterMap_cons, List.filterMap_nil, hprogress, hline, hstop, hstart]

/-- With those preferences a mode start runs `stop.sh` and then `start.sh`. -/
theorem eventsOf_doStart {h : HPStart} {con : Context} {st : Storage} {d : Device}
    (hdir : isDirectory d.fs (inDir h.filePath h.mName) = true)
    (hstop : HPStart.stopCmd h.filePath d.sp = stopScript h.filePath)
    (hstart : HPStart.startCmd h.filePath d.sp = startScript h.filePath) (pid : Option Nat) :
    (HPStart.doStart h con st d).2.1.filterMap (eventsOf h.filePath pid) =
      [.startStop, .startHaP pid] := by
  have hfirst : eventsOf h.filePath pid (.shell (stopScript h.filePath)) = some .startStop :=
    if_pos rfl
  have hsecond : eventsOf h.filePath pid (.shell (startScript h.filePath)) = some (.startHaP pid) := by
    rw [eventsOf, if_neg (startScript_ne_stopScript _), if_pos rfl]
  rw [HPStart.doStart, if_pos hdir, hstop, hstart]
  exact filterMap_eventsOf hfirst hsecond

/-! ## What the events say about the named process -/

/-- What has happened to the process the file names. -/
inductive Named where
  /-- No start has succeeded. -/
  | never
  | running (pid : Nat)
  /-- It has exited, and no start has succeeded since. -/
  | gone
deriving DecidableEq

def Named.next (w : Named) : Event → Named
  | .startHaP (some pid) => .running pid
  | .hapExit pid => if w = .running pid then .gone else w
  | _ => w

/-- The state agrees with the history of the named process. -/
def Named.Describes (s : State) : Named → Prop
  | .never => s.pidFile = []
  | .running pid => s.pidFile = [pid] ∧ s.proc pid = some .hap
  | .gone => ∃ pid, s.pidFile = [pid] ∧ s.proc pid ≠ some .hap

theorem Named.Describes.setProc {s : State} {w : Named} (h : w.Describes s) {pid : Nat}
    {x : Option Program} (hpid : s.proc pid ≠ some .hap) (hx : x ≠ some .hap) :
    w.Describes (s.setProc pid x) := by
  cases w with
  | never => exact h
  | running p =>
      have hne : p ≠ pid := by
        rintro rfl
        exact hpid h.2
      refine ⟨h.1, ?_⟩
      rw [State.proc_setProc, if_neg hne]
      exact h.2
  | gone =>
      obtain ⟨p, hfile, hp⟩ := h
      refine ⟨p, hfile, ?_⟩
      rw [State.proc_setProc]
      split
      · exact hx
      · exact hp

theorem Named.Describes.hapExit {s : State} {w : Named} (h : w.Describes s) (pid : Nat) :
    (w.next (.hapExit pid)).Describes (s.setProc pid none) := by
  cases w with
  | never => exact h
  | running p =>
      by_cases hp : p = pid
      · subst hp
        simp only [next, if_true]
        exact ⟨p, h.1, by simp [State.proc_setProc]⟩
      · simp only [next, running.injEq, hp, if_false]
        refine ⟨h.1, ?_⟩
        rw [State.proc_setProc, if_neg hp]
        exact h.2
  | gone =>
      obtain ⟨p, hfile, hp⟩ := h
      refine ⟨p, hfile, ?_⟩
      rw [State.proc_setProc]
      split
      · simp
      · exact hp

/-- Every event keeps the agreement. -/
theorem Named.Describes.step {s t : State} {w : Named} {e : Event} (h : w.Describes s)
    (hstep : PidFile.step s e = some t) : (w.next e).Describes t := by
  cases e with
  | stop => cases hstep; exact h
  | startStop => cases hstep; cases w <;> exact h
  | startHaP pid =>
      simp only [PidFile.step] at hstep
      split at hstep
      · cases hstep
      · cases pid with
        | none => cases hstep; cases w <;> exact h
        | some pid =>
            simp only [startSh] at hstep
            split at hstep
            · cases hstep
              exact ⟨rfl, by simp [State.proc_setProc]⟩
            · cases hstep
  | hapExit pid =>
      simp only [PidFile.step] at hstep
      split at hstep
      · cases hstep; exact h.hapExit pid
      · cases hstep
  | otherStart pid =>
      simp only [PidFile.step] at hstep
      split at hstep
      · next hfree => cases hstep; exact h.setProc (by simp [hfree]) (by simp)
      · cases hstep
  | otherExit pid =>
      simp only [PidFile.step] at hstep
      split at hstep
      · next hother => cases hstep; exact h.setProc (by simp [hother]) (by simp)
      · cases hstep

/-- A run of `stop.sh` signals the proxy exactly when the named process has not
gone. -/
theorem Named.Describes.signals_iff {s : State} {w : Named} (h : w.Describes s) (e : Event) :
    SignalsHap s e ↔ (e.runsStop = true → w ≠ .gone) := by
  unfold SignalsHap kills
  cases e.runsStop with
  | false => simp
  | true =>
      cases w with
      | never =>
          have hfile : s.pidFile = [] := h
          simp [stopSh, hfile]
      | running pid => simp [stopSh, h.1, h.2]
      | gone =>
          obtain ⟨pid, hfile, hpid⟩ := h
          simp [stopSh, hfile, hpid]

/-- `stop.sh` is never run between an exit of the process the file names and the
next start that succeeds. -/
def StopsInTime (es : List Event) : Prop :=
  Run.Folds Named.next (fun w e => e.runsStop = true → w ≠ .gone) .never es

/-- In a run from the fresh state every signal goes to the proxy, exactly when it
stops in time. -/
theorem signals_only_hap_iff {es : List Event} {s : State}
    (hrun : Run.run step .fresh es = some s) :
    Run.Along step SignalsHap .fresh es ↔ StopsInTime es :=
  Run.along_iff_folds (R := fun s w => w.Describes s) (fun _ _ _ _ h hstep => h.step hstep)
    (fun _ e _ h => h.signals_iff e) es rfl hrun

/-- A mode is started and stopped, the proxy exits, and a start succeeds. -/
def restart : List Event :=
  [.startStop, .startHaP (some 5), .otherStart 7, .stop, .startStop, .hapExit 5,
    .startHaP (some 5), .stop]

theorem restart_signals_only_hap : Run.Along step SignalsHap .fresh restart :=
  (@signals_only_hap_iff restart _ rfl).mpr (by simp [StopsInTime, Run.Folds, restart, Named.next, Event.runsStop])

/-- After a mode start the proxy exits, its id goes to another program, and the user stops the
proxy. -/
def reused : List Event :=
  [.startStop, .startHaP (some 5), .hapExit 5, .otherStart 5, .stop]

/-- The run begins with the two commands of a mode start, and its last signal goes to the other
program. -/
theorem reused_signals_other :
    (∀ (h : HPStart) (con : Context) (st : Storage) (d : Device),
      isDirectory d.fs (inDir h.filePath h.mName) = true →
      HPStart.stopCmd h.filePath d.sp = stopScript h.filePath →
      HPStart.startCmd h.filePath d.sp = startScript h.filePath →
      (HPStart.doStart h con st d).2.1.filterMap (eventsOf h.filePath (some 5)) = reused.take 2) ∧
    (Run.run step .fresh reused).isSome = true ∧ ¬ Run.Along step SignalsHap .fresh reused := by
  refine ⟨fun h con st d hdir hstop hstart => eventsOf_doStart hdir hstop hstart _, rfl,
    fun h => ?_⟩
  have hstop := @Run.Along.event _ _ step _ .stop [] (reused.take 4) _ _ h rfl
  have hother := hstop 5 (List.mem_singleton_self 5)
  cases hother

end HapAndroid.PidFile
