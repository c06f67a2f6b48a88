import HapAndroid.Lib.Run
import HapAndroid.Tool.HPStart

/-!
# How a task reports

A task shows its lines in a dialog on the UI thread.  A line does not travel with its
event: the background puts it in the field `t_line` and publishes the event 520, and
the UI thread appends what the field then holds and empties it.  Two threads fill the
field, the background of the task and the shell with its callback `rline`.

A line that is reported while another still stands in the field takes its place, and
the earlier one is never shown.  `shown_eq_iff` says that this is the only way to lose
a line.  The task has a dialog here (`is_toast`); without one nothing is appended.
-/

namespace HapAndroid.Reporting

/-- What is published to the UI thread. -/
inductive Event where
  /-- A percentage. -/
  | percent (n : Nat)
  /-- 520: there is a line. -/
  | line
deriving DecidableEq

/-- The field, the events on their way and the texts appended to the dialog. -/
structure State where
  /-- `none` is the `null` it starts with. -/
  t_line : Option Text
  events : List Event
  dialog : List Text
deriving DecidableEq

/-- A new task. -/
def init : State := ⟨none, [], []⟩

/-- What the threads do. -/
inductive Act where
  /-- `doInBackground` reports a line. -/
  | report (line : Text)
  /-- The shell calls `rline`. -/
  | rline (line : Text)
  /-- `publishProgress` with a percentage. -/
  | publish (percent : Nat)
  /-- `onProgressUpdate` for the next event. -/
  | update
deriving DecidableEq

/-- `"\t" + t_line.replace("\n", "\n\t")`. -/
def indented (line : Text) : Text :=
  '\t' :: Pattern.replace (Pattern.literal ['\n']) ['\n', '\t'] line

/-- `t_line = line; publishProgress(520)`. -/
def State.put (s : State) (line : Text) : State :=
  { s with t_line := some line, events := s.events ++ [.line] }

/-- One act.  The UI thread does nothing without an event. -/
def step (s : State) : Act → Option State
  | .report line => some (s.put line)
  | .rline line =>
      match s.t_line with
      -- `synchronized (t_line)` throws, and `Shell.run` drops the exception.
      | none => some s
      | some _ => some (s.put line)
  | .publish percent => some { s with events := s.events ++ [.percent percent] }
  | .update =>
      match s.events with
      | [] => none
      | .percent _ :: events => some { s with events := events }
      | .line :: events => s.t_line.map fun t_line => ⟨some [], events, s.dialog ++ [indented t_line]⟩

/-- The line an act reports. -/
def Act.line? : Act → Option Text
  | .report line => some line
  | .rline line => some line
  | _ => none

/-- The non-empty lines that were reported, as the dialog shows them. -/
def wanted (acts : List Act) : List Text :=
  ((acts.filterMap Act.line?).filter (· ≠ [])).map indented

/-- The non-empty lines of the dialog. -/
def State.shown (s : State) : List Text := s.dialog.filter (· ≠ ['\t'])

/-- The text in the field. -/
def State.field (s : State) : Text := s.t_line.getD []

/-- A line is reported only while the field is empty, and by the shell only after the
task has reported one. -/
def FieldFree (s : State) : Act → Prop
  | .report _ => s.field = []
  | .rline line => s.field = [] ∧ (s.t_line = none → line = [])
  | _ => True

/-! ## One act -/

/-- Only the empty line is shown as a tabulator alone. -/
theorem indented_eq_tab_iff {line : Text} : indented line = ['\t'] ↔ line = [] := by
  constructor
  · intro h
    have hnil : Pattern.replace (Pattern.literal ['\n']) ['\n', '\t'] line = [] := by
      simpa [indented] using h
    cases line with
    | nil => rfl
    | cons c line =>
        rw [Pattern.replace, Pattern.replaceFrom] at hnil
        split at hnil
        · simp at hnil
        · simp at hnil
  · rintro rfl
    rfl

/-- A line as the dialog shows it, if it is not empty. -/
def visible (line : Text) : List Text := if line = [] then [] else [indented line]

theorem visible_nil : visible [] = [] := rfl

theorem wanted_report (line : Text) : wanted [.report line] = visible line := by
  by_cases h : line = [] <;> simp [wanted, Act.line?, visible, h]

theorem wanted_rline (line : Text) : wanted [.rline line] = visible line := by
  by_cases h : line = [] <;> simp [wanted, Act.line?, visible, h]

theorem wanted_cons (a : Act) (acts : List Act) : wanted (a :: acts) = wanted [a] ++ wanted acts := by
  cases h : a.line? with
  | none => simp [wanted, h]
  | some line => by_cases hl : line = [] <;> simp [wanted, h, hl]

/-- The lines of the dialog, and the one in the field. -/
def State.pending (s : State) : List Text := s.shown ++ visible s.field

/-- A line that is put in the field takes the place of the one there. -/
theorem pending_put (s : State) (line : Text) : (s.put line).pending = s.shown ++ visible line := rfl

/-- What an act can do: it puts a line in the field, it is a callback that throws, it
publishes a percentage, it shows the field, or it shows a percentage. -/
theorem step_cases {s t : State} {a : Act} (h : step s a = some t) :
    (∃ line, (a = .report line ∨ a = .rline line ∧ s.t_line ≠ none) ∧ t = s.put line) ∨
      (∃ line, a = .rline line ∧ s.t_line = none ∧ t = s) ∨
      (∃ n, a = .publish n ∧ t = { s with events := s.events ++ [.percent n] }) ∨
      (∃ line events, a = .update ∧ s.t_line = some line ∧ s.events = .line :: events ∧
        t = ⟨some [], events, s.dialog ++ [indented line]⟩) ∨
      ∃ n events, a = .update ∧ s.events = .percent n :: events ∧
        t = { s with events := events } := by
  cases a with
  | report line =>
      cases h
      exact .inl ⟨line, .inl rfl, rfl⟩
  | rline line =>
      cases hl : s.t_line with
      | none =>
          simp only [step, hl, Option.some.injEq] at h
          exact .inr (.inl ⟨line, rfl, rfl, h.symm⟩)
      | some old =>
          simp only [step, hl, Option.some.injEq] at h
          exact .inl ⟨line, .inr ⟨rfl, by simp⟩, h.symm⟩
  | publish n =>
      cases h
      exact .inr (.inr (.inl ⟨n, rfl, rfl⟩))
  | update =>
      simp only [step] at h
      split at h
      · cases h
      · next n events he =>
        exact .inr (.inr (.inr (.inr ⟨n, events, rfl, he, (Option.some.inj h).symm⟩)))
      · next events he =>
        obtain ⟨line, hl, rfl⟩ := Option.map_eq_some_iff.mp h
        exact .inr (.inr (.inr (.inl ⟨line, events, rfl, hl, he, rfl⟩)))

/-- A filled field has an event on its way. -/
def Announced (s : State) : Prop := s.field ≠ [] → .line ∈ s.events

theorem step_announced {s t : State} {a : Act} (h : Announced s) (hs : step s a = some t) :
    Announced t := by
  obtain ⟨line, -, rfl⟩ | ⟨line, -, -, rfl⟩ | ⟨n, -, rfl⟩ | ⟨line, events, -, -, -, rfl⟩ |
    ⟨n, events, -, he, rfl⟩ := step_cases hs
  · exact fun _ => by simp [State.put]
  · exact h
  · exact fun hl => List.mem_append_left _ (h hl)
  · exact fun hl => absurd rfl hl
  · intro hl
    have hmem := h hl
    rw [he] at hmem
    exact (List.mem_cons.mp hmem).resolve_left (by simp)

/-- An update moves the line of the field to the dialog. -/
theorem pending_update (events : List Event) {s : State} {line : Text} (h : s.t_line = some line) :
    State.pending ⟨some [], events, s.dialog ++ [indented line]⟩ = s.pending := by
  have hfield : s.field = line := by rw [State.field, h, Option.getD_some]
  rw [State.pending, State.pending, hfield]
  show (s.dialog ++ [indented line]).filter _ ++ visible [] = s.dialog.filter _ ++ visible line
  rw [visible_nil, List.append_nil, List.filter_append]
  by_cases hl : line = []
  · simp [hl, visible, indented_eq_tab_iff]
  · simp [hl, visible, indented_eq_tab_iff]

/-- An act that finds the field free adds its line. -/
theorem step_pending {s t : State} {a : Act} (hs : step s a = some t) (hfree : FieldFree s a) :
    t.pending = s.pending ++ wanted [a] := by
  have hempty : s.field = [] → s.pending = s.shown := fun h => by
    rw [State.pending, h, visible_nil, List.append_nil]
  obtain ⟨line, rfl | ⟨rfl, -⟩, rfl⟩ | ⟨line, rfl, hnull, rfl⟩ | ⟨n, rfl, rfl⟩ |
    ⟨line, events, rfl, hl, -, rfl⟩ | ⟨n, events, rfl, -, rfl⟩ := step_cases hs
  · rw [pending_put, wanted_report, hempty hfree]
  · rw [pending_put, wanted_rline, hempty hfree.1]
  · rw [wanted_rline, hfree.2 hnull, visible_nil, List.append_nil]
  · exact (List.append_nil _).symm
  · exact (pending_update events hl).trans (List.append_nil _).symm
  · exact (List.append_nil _).symm

theorem length_visible {line : Text} (h : line ≠ []) : (visible line).length = 1 := by
  rw [visible, if_neg h, List.length_singleton]

/-- An act that does not find the field free loses a line. -/
theorem step_pending_lost {s t : State} {a : Act} (hs : step s a = some t)
    (hlost : ¬ FieldFree s a) : t.pending.length < s.pending.length + (wanted [a]).length := by
  -- The line in the field, if there is one, counts in `s` and not in `t`.
  have hput : ∀ line, s.field ≠ [] →
      (s.put line).pending.length < s.pending.length + (visible line).length := by
    intro line hfull
    rw [pending_put, State.pending, List.length_append, List.length_append, length_visible hfull]
    omega
  obtain ⟨line, rfl | ⟨rfl, hset⟩, rfl⟩ | ⟨line, rfl, hnull, rfl⟩ | ⟨n, rfl, rfl⟩ |
    ⟨line, events, rfl, -, -, rfl⟩ | ⟨n, events, rfl, -, rfl⟩ := step_cases hs
  · rw [wanted_report]
    exact hput line hlost
  · rw [wanted_rline]
    exact hput line fun hempty => hlost ⟨hempty, fun hnull => absurd hnull hset⟩
  · have hline : line ≠ [] := by
      rintro rfl
      exact hlost ⟨by rw [State.field, hnull]; rfl, fun _ => rfl⟩
    rw [wanted_rline, length_visible hline]
    exact Nat.lt_succ_self _
  · exact absurd trivial hlost
  · exact absurd trivial hlost
  · exact absurd trivial hlost

/-! ## Whole runs -/

/-- In a run that always finds the field free no line is lost; in any other the count
falls short. -/
theorem run_pending {acts : List Act} {s t : State} (h : Run.run step s acts = some t) :
    (Run.Along step FieldFree s acts → t.pending = s.pending ++ wanted acts) ∧
      (¬ Run.Along step FieldFree s acts →
        t.pending.length < s.pending.length + (wanted acts).length) := by
  induction acts generalizing s with
  | nil =>
      cases h
      exact ⟨fun _ => (List.append_nil _).symm, fun hnot => absurd trivial hnot⟩
  | cons a acts ih =>
      obtain ⟨u, hu, hrun⟩ := Run.run_cons_eq_some.mp h
      obtain ⟨ihfree, ihlost⟩ := ih hrun
      rw [wanted_cons]
      by_cases hfree : FieldFree s a
      · have hone := step_pending hu hfree
        constructor
        · intro halong
          rw [ihfree (halong.2 u hu), hone, List.append_assoc]
        · intro hnot
          have hlost := ihlost fun halong => hnot (Run.along_cons hu hfree halong)
          rw [hone, List.length_append] at hlost
          rw [List.length_append]
          omega
      · have hone := step_pending_lost hu hfree
        refine ⟨fun halong => absurd halong.1 hfree, fun _ => ?_⟩
        rw [List.length_append]
        by_cases halong : Run.Along step FieldFree u acts
        · rw [ihfree halong, List.length_append]
          omega
        · have hlost := ihlost halong
          omega

theorem run_announced {acts : List Act} {s t : State} (hs : Announced s)
    (h : Run.run step s acts = some t) : Announced t :=
  Run.run_invariant (fun _ _ _ hs hstep => step_announced hs hstep) acts hs h

/-- Once every event has been handled, the dialog shows the reported lines exactly if
each was reported while the field was free. -/
theorem shown_eq_iff {acts : List Act} {s : State} (hrun : Run.run step init acts = some s)
    (hidle : s.events = []) : s.shown = wanted acts ↔ Run.Along step FieldFree init acts := by
  have hempty : s.field = [] := by
    by_contra hfull
    have hmem := run_announced (fun hl => absurd rfl hl) hrun hfull
    rw [hidle] at hmem
    cases hmem
  have hpending : s.pending = s.shown := by
    rw [State.pending, hempty, visible_nil, List.append_nil]
  obtain ⟨hfree, hlost⟩ := run_pending hrun
  rw [hpending] at hfree hlost
  constructor
  · intro heq
    by_contra hnot
    have := hlost hnot
    rw [heq] at this
    exact absurd this (by simp [init, State.pending, State.shown, State.field, visible])
  · exact fun halong => hfree halong

/-- Lines that are shown before the next one is reported are not lost. -/
theorem shown_in_turn :
    ∃ s, Run.run step init [.report "a", .update, .rline "b", .update] = some s ∧
      s.events = [] ∧ s.shown = wanted [.report "a", .update, .rline "b", .update] := by
  refine ⟨_, rfl, rfl, (shown_eq_iff rfl rfl).mpr ?_⟩
  refine Run.along_cons rfl rfl (Run.along_cons rfl trivial (Run.along_cons rfl ⟨rfl, ?_⟩
    (Run.along_cons rfl trivial trivial)))
  rintro ⟨⟩

/-! ## The lines of a task -/

/-- The acts of the background for the effects of a task, with the text of an exception
and the lines the shell reports for a command. -/
def actsOf (exception : Text) (output : Text → List Text) (effects : List Effect) : List Act :=
  effects.flatMap fun
    | .progress percent => [.publish percent]
    | .line text => [.report text]
    | .exception => [.report exception]
    | .shell cmd => (output cmd).map .rline

/-- The task that starts the mode `m`. -/
def startTask : HPStart := ⟨"/f", "m", false, 0, false, true, false⟩

/-- A device with the mode. -/
def withMode : Device :=
  ⟨((FileTree.bare.mkdir ["f".toList]).bind (·.mkdir ["f".toList, "m".toList])).getD .bare, .empty⟩

/-- The acts of that start when the start command answers, all before the UI thread gets
to its events. -/
def hastyStart : List Act :=
  actsOf [] (fun cmd => if cmd = HPStart.startCmd "/f" .empty then ["error".toList] else [])
      (startTask.doStart .bare .sound withMode).2.1 ++
    List.replicate 9 .update

/-- The line that names the mode is lost. -/
theorem start_line_lost :
    ∃ s, Run.run step init hastyStart = some s ∧ s.events = [] ∧
      s.shown = ["\terror".toList] ∧ (wanted hastyStart).length = 2 ∧
      s.shown ≠ wanted hastyStart := by
  have hlen : (wanted hastyStart).length = 2 := by decide +kernel
  refine ⟨⟨some [], [], [indented "error", ['\t']]⟩, by decide +kernel, rfl, by decide +kernel,
    hlen, fun h => ?_⟩
  rw [← h] at hlen
  exact absurd hlen (by decide +kernel)

end HapAndroid.Reporting
