import HapAndroid.Lib.Threads
import HapAndroid.Tool.HPInstall

/-!
# Launching shells through `Stmp`

A task that wants a command run makes a shell, puts it into the field `Stmp` of the `SuperUser` it
was given, and then starts and joins what it finds in the field.  The field is one for all tasks
that were given the same `SuperUser`: the background of every `HPStart` and every `HPInstall`.

A shell that is replaced in the field before its task has read it back is never started, and the
task starts the shell of the other one, or gets an exception because the other has started it
already.  `commands_run_iff` says that this is the only way to lose a command, and
`not_crashed_of_along` that it is the only way to the exception.  The exception ends the application
(`install_crashes`), except in a mode start at its start command, which catches everything and
returns as if the mode had been started (`start_lost`).

The tasks are threads here and all their interleavings are runs.  Android runs the `HPStart` tasks
one after the other, or from a pool before version 3; an installation has a thread of its own.
Joining changes nothing: it waits for the shell in the field, for a time, and what was run stays
run.
-/

namespace HapAndroid.Launches

/-- One use of the field: the command, and what the code around `start` catches. -/
structure Launch where
  cmd : Text
  /-- `catch (Exception e)`; otherwise only an interrupt is caught. -/
  catchesAll : Bool
deriving DecidableEq

/-- A shell, with the task that made it and the one that started it. -/
structure Shell (ι : Type) where
  maker : ι
  cmd : Text
  starter : Option ι
deriving DecidableEq

/-- The shells in the order they were made, and the field. -/
structure Shared (ι : Type) where
  shells : List (Shell ι)
  /-- The shell in `Stmp`, by its number. -/
  stmp : Option Nat
  /-- An exception was not caught. -/
  crashed : Bool

/-- Where a task is in its next launch. -/
inductive Pc where
  /-- Before it. -/
  | ready
  /-- It has put shell `k` into the field. -/
  | made (k : Nat)
  /-- It has read shell `k` from the field. -/
  | holding (k : Nat)
  /-- It waits. -/
  | joining
deriving DecidableEq

/-- A task: its launches from the next one on. -/
structure Task where
  todo : List Launch
  pc : Pc
deriving DecidableEq

inductive Act where
  /-- `Su.Stmp = Su.Shell(cmd, ...)`. -/
  | make
  /-- The field is read. -/
  | read
  /-- `start()` of what was read. -/
  | start
  /-- `join` is over. -/
  | joined
  /-- The task returns before its next launch. -/
  | quit
deriving DecidableEq

variable {ι : Type}

/-- The task after a launch. -/
def Task.next (l : Task) : Task := ⟨l.todo.tail, .ready⟩

/-- One act of a task. -/
def act (i : ι) (g : Shared ι) (l : Task) (a : Act) : Option (Shared ι × Task) :=
  if g.crashed then none
  else
    match a, l.pc, l.todo with
    | .make, .ready, launch :: _ =>
        some
          ({ g with shells := g.shells ++ [⟨i, launch.cmd, none⟩], stmp := some g.shells.length },
            { l with pc := .made g.shells.length })
    | .read, .made _, _ => g.stmp.map fun k => (g, { l with pc := .holding k })
    | .start, .holding k, launch :: _ =>
        match g.shells[k]? with
        | none => none
        | some sh =>
            if sh.starter = none then
              some ({ g with shells := g.shells.set k { sh with starter := some i } },
                { l with pc := .joining })
            -- `IllegalThreadStateException`.
            else if launch.catchesAll then some (g, l.next)
            else some ({ g with crashed := true }, l)
    | .joined, .joining, _ => some (g, l.next)
    | .quit, .ready, _ => some (g, { l with todo := [] })
    | _, _, _ => none

/-- All tasks with the field. -/
abbrev State (ι : Type) := Threads.Pool ι (Shared ι) Task

/-- Tasks that have not begun. -/
def start (launches : ι → List Launch) : State ι :=
  ⟨⟨[], none, false⟩, fun i => ⟨launches i, .ready⟩⟩

/-! ## The tasks of the application -/

/-- The launches of a job: a mode start stops the proxy and starts it, and catches everything around
its second launch only. -/
def jobLaunches (h : HPStart) (d : Device) : Job → List Launch
  | .start =>
      if isDirectory d.fs (inDir h.filePath h.mName) then
        [⟨HPStart.stopCmd h.filePath d.sp, false⟩, ⟨HPStart.startCmd h.filePath d.sp, true⟩]
      else []
  | .sh =>
      [⟨("cd " : Text) ++ h.filePath ++ ("\nsh ./" : Text) ++ HPStart.runSh h.mName ++ ['\n'],
        false⟩]
  | _ => []

/-- The command of a shell effect. -/
def command : Effect → Option Text
  | .shell cmd => some cmd
  | _ => none

/-- The launches are the commands that the job hands to a shell. -/
theorem jobLaunches_eq (h : HPStart) (con : Context) (des : Cipher) (st : Storage) (d : Device)
    (job : Job) :
    (jobLaunches h d job).map Launch.cmd =
      (h.runJob con des st d job).2.1.filterMap command := by
  cases job with
  | start =>
      simp only [jobLaunches, HPStart.runJob, HPStart.doStart]
      split
      · rfl
      · rfl
  | save s1 s2 s3 => rfl
  | mhp connection get post =>
      simp only [HPStart.runJob, HPStart.doMhp]
      split
      · rfl
      · split
        · rfl
        · split
          · rfl
          · rfl
  | sh => rfl

/-- The commands before the files of an installation are copied. -/
def preShell (h : HPInstall) : Text :=
  ("echo '正在执行安装前操作，下面的错误提示可忽略.\n'\n" : Text) ++ ("chmod 0777 " : Text) ++
    h.installPath.1 ++ ("\ncd " : Text) ++ h.installPath.1 ++
    ("\n./H-stop ./haproxy.pid\n" : Text) ++ ("sh ./stop.sh\nchmod 0777 " : Text) ++
    h.installPath.1 ++ ("/mode \n" : Text)

/-- The commands after it.  The control scripts are in them when they have been copied. -/
def permissionShell (h : HPInstall) (copied : List Copy) : Text :=
  (if 4 ≤ copied.length then
    HPInstall.controlScripts.flatMap fun script =>
      ("chmod 0777 " : Text) ++ inDir h.installPath script ++ ['\n']
  else []) ++
    ("chmod 777 " : Text) ++ inDir h.installPath HPInstall.program ++
    ("\necho '文件权限设置命令执行完成.'\n" : Text)

/-- The launches of an installation. -/
def installLaunches (h : HPInstall) (st : Storage) (assets : Assets) (d : Device) : List Launch :=
  match h.prepare st d.fs with
  | (false, _) => []
  | (true, fs) =>
      let r := Copy.performAll st assets h.copies fs
      ⟨preShell h, false⟩ ::
        if h.fromAssets && !r.2.1 then [] else [⟨permissionShell h r.1, false⟩]

/-- An installation that sets its marker has launched both, the second for what it copied. -/
theorem installLaunches_of_marked {h : HPInstall} {st : Storage} {assets : Assets} {d : Device}
    (hmarked : (h.run st assets d).marked = true) :
    installLaunches h st assets d =
      [⟨preShell h, false⟩, ⟨permissionShell h (h.run st assets d).copied, false⟩] := by
  rw [HPInstall.run] at hmarked ⊢
  rw [installLaunches]
  rcases hp : h.prepare st d.fs with ⟨ok, fs⟩
  cases ok with
  | false =>
      rw [hp] at hmarked
      cases hmarked
  | true =>
      rw [hp] at hmarked
      dsimp only at hmarked ⊢
      cases hassets : h.fromAssets with
      | false =>
          rw [if_neg Bool.false_ne_true, HPInstall.copied_finish]
          rfl
      | true =>
          rw [hassets, if_pos rfl] at hmarked
          rw [if_pos rfl]
          cases hall : (Copy.performAll st assets h.copies fs).2.1 with
          | false =>
              rw [hall] at hmarked
              cases hmarked
          | true =>
              rw [if_pos rfl, HPInstall.copied_finish]
              rfl

/-- An installation catches nothing around `start`. -/
theorem installLaunches_catch {h : HPInstall} {st : Storage} {assets : Assets} {d : Device}
    {launch : Launch} (hmem : launch ∈ installLaunches h st assets d) :
    launch.catchesAll = false := by
  rw [installLaunches] at hmem
  split at hmem
  · cases hmem
  · dsimp only at hmem
    rcases List.mem_cons.mp hmem with rfl | hmem
    · rfl
    · split at hmem
      · cases hmem
      · rw [List.mem_singleton.mp hmem]

/-- A device with a mode. -/
def modeDevice : Device := ⟨FileTree.ofDirs [[("d" : Text)], ["d", "a"]], .empty⟩

/-- The start of the mode. -/
def modeStart : HPStart := { filePath := "/d", mName := "a", isAdd := false }

theorem straight_packageDir : Straight "/d".toList := by decide

/-- The installation from the package. -/
def packageInstall : HPInstall := ⟨⟨"/d".toList, straight_packageDir⟩, "assets"⟩

/-- The mode is started during the installation. -/
def startAndInstall : Bool → List Launch
  | true => jobLaunches modeStart modeDevice .start
  | false => installLaunches packageInstall .sound (fun _ => some []) modeDevice

/-! ## What an act does -/

/-- What an act does to the field and the task. -/
inductive Step (i : ι) (g : Shared ι) (l : Task) : Act → Shared ι → Task → Prop where
  | make {launch : Launch} {rest : List Launch} (hpc : l.pc = .ready)
      (htodo : l.todo = launch :: rest) :
      Step i g l .make
        { g with shells := g.shells ++ [⟨i, launch.cmd, none⟩], stmp := some g.shells.length }
        { l with pc := .made g.shells.length }
  | read {j k : Nat} (hpc : l.pc = .made j) (hk : g.stmp = some k) :
      Step i g l .read g { l with pc := .holding k }
  | start {k : Nat} {sh : Shell ι} (hpc : l.pc = .holding k) (hk : g.shells[k]? = some sh)
      (hnew : sh.starter = none) :
      Step i g l .start { g with shells := g.shells.set k { sh with starter := some i } }
        { l with pc := .joining }
  | caught {k : Nat} {sh : Shell ι} (hpc : l.pc = .holding k) (hk : g.shells[k]? = some sh)
      (hold : sh.starter ≠ none) : Step i g l .start g l.next
  | crash {k : Nat} {sh : Shell ι} (hpc : l.pc = .holding k) (hk : g.shells[k]? = some sh)
      (hold : sh.starter ≠ none) : Step i g l .start { g with crashed := true } l
  | joined (hpc : l.pc = .joining) : Step i g l .joined g l.next
  | quit (hpc : l.pc = .ready) : Step i g l .quit g { l with todo := [] }

theorem step_of_act {i : ι} {g g' : Shared ι} {l l' : Task} {a : Act}
    (h : act i g l a = some (g', l')) : Step i g l a g' l' := by
  rw [act.eq_def] at h
  split at h
  · cases h
  · split at h
    · next hpc htodo =>
      cases h
      exact .make hpc htodo
    · next hpc =>
      obtain ⟨k, hk, heq⟩ := Option.map_eq_some_iff.mp h
      cases heq
      exact .read hpc hk
    · next hpc htodo =>
      split at h
      · cases h
      · next sh hk =>
        split at h
        · next hnew =>
          cases h
          exact .start hpc hk hnew
        · next hold =>
          split at h
          · cases h
            exact .caught hpc hk hold
          · cases h
            exact .crash hpc hk hold
    · next hpc =>
      cases h
      exact .joined hpc
    · next hpc =>
      cases h
      exact .quit hpc
    · cases h

variable [DecidableEq ι]

abbrev step : State ι → ι × Act → Option (State ι) := Threads.step act

/-- A step of a task leaves the others alone. -/
theorem step_cases {s t : State ι} {i : ι} {a : Act} (h : step s (i, a) = some t) :
    ∃ g l, Step i s.shared (s.own i) a g l ∧ t.shared = g ∧ t.own i = l ∧
      ∀ j, j ≠ i → t.own j = s.own j := by
  obtain ⟨hact, hsame⟩ := Threads.step_eq_some h
  exact ⟨_, _, step_of_act hact, rfl, rfl, hsame⟩

/-! ## Shells that are lost -/

/-- Shell `k` is not started and nobody can reach it. -/
structure Lost (k : Nat) (sh : Shell ι) (s : State ι) : Prop where
  shell : s.shared.shells[k]? = some sh
  unstarted : sh.starter = none
  unset : s.shared.stmp ≠ some k
  unheld : ∀ i, (s.own i).pc ≠ .holding k

theorem Lost.of_step {k : Nat} {sh : Shell ι} {s t : State ι} {e : ι × Act} (h : Lost k sh s)
    (hstep : step s e = some t) : Lost k sh t := by
  obtain ⟨i, a⟩ := e
  have hlt := (List.getElem?_eq_some_iff.mp h.shell).1
  obtain ⟨g, l, hs, hg, hl, hsame⟩ := step_cases hstep
  have hkeep : g.shells[k]? = some sh → g.stmp ≠ some k → l.pc ≠ .holding k → Lost k sh t := by
    intro hshells hstmp hpc
    subst hg
    exact ⟨hshells, h.unstarted, hstmp, Threads.forall_own (Q := fun _ l => l.pc ≠ .holding k)
      hl hsame hpc fun j _ => h.unheld j⟩
  cases hs with
  | make hpc htodo =>
      refine hkeep ?_ (fun heq => ?_) (by simp)
      · rw [List.getElem?_append_left hlt, h.shell]
      · cases heq
        exact Nat.lt_irrefl _ hlt
  | read hpc hj =>
      refine hkeep h.shell h.unset fun heq => ?_
      cases heq
      exact h.unset hj
  | @start m sh' hpc hm hnew =>
      refine hkeep ?_ h.unset (by simp)
      have hne : m ≠ k := by
        rintro rfl
        exact h.unheld i hpc
      rw [List.getElem?_set_ne hne, h.shell]
  | caught => exact hkeep h.shell h.unset (by simp [Task.next])
  | crash => exact hkeep h.shell h.unset (h.unheld i)
  | joined => exact hkeep h.shell h.unset (by simp [Task.next])
  | quit hpc => exact hkeep h.shell h.unset (by simp [hpc])

/-- A lost shell stays lost. -/
theorem Lost.of_run {k : Nat} {sh : Shell ι} {s t : State ι} {es : List (ι × Act)} (h : Lost k sh s)
    (hrun : Run.run step s es = some t) : Lost k sh t :=
  Run.run_invariant (fun _ _ _ h hstep => h.of_step hstep) es h hrun

/-! ## Launches that do not overlap -/

/-- No task replaces a shell in the field that has not been read. -/
def Alone (s : State ι) : ι × Act → Prop
  | (_, .make) => ∀ j k, (s.own j).pc ≠ .made k
  | _ => True

/-- A task is between making and starting shell `k`. -/
def Pc.Owes (pc : Pc) (k : Nat) : Prop := pc = .made k ∨ pc = .holding k

/-- Every task finds its own shell in the field, and every shell is started by its maker or is
about to be. -/
structure Own (s : State ι) : Prop where
  field : ∀ i k, (s.own i).pc = .made k → s.shared.stmp = some k
  owed : ∀ i k, (s.own i).pc.Owes k → ∃ cmd, s.shared.shells[k]? = some ⟨i, cmd, none⟩
  shells : ∀ k sh, s.shared.shells[k]? = some sh → sh.starter = some sh.maker ∨
    (s.own sh.maker).pc.Owes k

omit [DecidableEq ι] in
theorem own_start (launches : ι → List Launch) : Own (start launches) where
  field := fun i k h => by cases h
  owed := fun i k h => by rcases h with h | h <;> cases h
  shells := fun k sh h => by cases h

omit [DecidableEq ι] in
/-- A shell is owed by one task. -/
theorem Own.eq_of_owes {s : State ι} (h : Own s) {i j : ι} {k : Nat} (hi : (s.own i).pc.Owes k)
    (hj : (s.own j).pc.Owes k) : i = j := by
  obtain ⟨c, hc⟩ := h.owed i k hi
  obtain ⟨d, hd⟩ := h.owed j k hj
  cases hc.symm.trans hd
  rfl

omit [DecidableEq ι] in
/-- What a task has read from the field has not been started. -/
theorem Own.unstarted {s : State ι} (h : Own s) {i : ι} {k : Nat} {sh : Shell ι}
    (hpc : (s.own i).pc = .holding k) (hk : s.shared.shells[k]? = some sh) : sh.starter = none := by
  obtain ⟨cmd, hown⟩ := h.owed i k (.inr hpc)
  cases hk.symm.trans hown
  rfl

omit [DecidableEq ι] in
/-- What a step of task `i` has to keep. -/
theorem Own.of_parts {s t : State ι} {i : ι} {g : Shared ι} {l : Task} (h : Own s)
    (hg : t.shared = g) (hl : t.own i = l) (hsame : ∀ j, j ≠ i → t.own j = s.own j)
    (hfield : ∀ k, l.pc = .made k → g.stmp = some k)
    (hothers : ∀ j, j ≠ i → ∀ k, (s.own j).pc = .made k → g.stmp = some k)
    (howed : ∀ k, l.pc.Owes k → ∃ cmd, g.shells[k]? = some ⟨i, cmd, none⟩)
    (hkept : ∀ j, j ≠ i → ∀ k, (s.own j).pc.Owes k → g.shells[k]? = s.shared.shells[k]?)
    (hshells : ∀ k sh, g.shells[k]? = some sh → sh.starter = some sh.maker ∨
      sh.maker = i ∧ l.pc.Owes k ∨ sh.maker ≠ i ∧ (s.own sh.maker).pc.Owes k) : Own t := by
  subst hg
  refine ⟨?_, ?_, fun k sh hk => ?_⟩
  · exact Threads.forall_own (Q := fun _ l => ∀ k, l.pc = .made k → t.shared.stmp = some k)
      hl hsame hfield hothers
  · refine Threads.forall_own
      (Q := fun j l => ∀ k, l.pc.Owes k → ∃ cmd, t.shared.shells[k]? = some ⟨j, cmd, none⟩)
      hl hsame howed fun j hj k hk => ?_
    rw [hkept j hj k hk]
    exact h.owed j k hk
  · refine (hshells k sh hk).imp_right ?_
    rintro (⟨hi, howes⟩ | ⟨hi, howes⟩)
    · rwa [hi, hl]
    · rwa [hsame _ hi]

omit [DecidableEq ι] in
/-- Nothing but the task changes, which owes nothing. -/
theorem Own.of_idle {s t : State ι} {i : ι} {l : Task} (h : Own s)
    (hg : t.shared = s.shared) (hl : t.own i = l) (hsame : ∀ j, j ≠ i → t.own j = s.own j)
    (hbefore : ∀ k, ¬ (s.own i).pc.Owes k) (hafter : ∀ k, ¬ l.pc.Owes k) : Own t := by
  refine h.of_parts hg hl hsame (fun k hk => absurd (.inl hk) (hafter k))
    (fun j _ k hk => h.field j k hk) (fun k hk => absurd hk (hafter k)) (fun _ _ _ _ => rfl) ?_
  intro k sh hk
  refine (h.shells k sh hk).imp_right fun howes => .inr ⟨?_, howes⟩
  rintro rfl
  exact hbefore k howes

/-- Launches that do not overlap keep it. -/
theorem Own.of_step {s t : State ι} {e : ι × Act} (h : Own s) (halone : Alone s e)
    (hstep : step s e = some t) : Own t := by
  obtain ⟨i, a⟩ := e
  obtain ⟨g, l, hs, hg, hl, hsame⟩ := step_cases hstep
  cases hs with
  | @make launch rest hpc htodo =>
      refine h.of_parts hg hl hsame ?_ (fun j _ k hj => absurd hj (halone j k)) ?_ ?_ ?_
      · intro k hk
        cases hk
        rfl
      · rintro k (hk | hk)
        · cases hk
          exact ⟨launch.cmd, by simp⟩
        · cases hk
      · intro j _ k hj
        obtain ⟨cmd, hk⟩ := h.owed j k hj
        exact List.getElem?_append_left (List.getElem?_eq_some_iff.mp hk).1
      · intro k sh hk
        by_cases hlt : k < s.shared.shells.length
        · rw [List.getElem?_append_left hlt] at hk
          refine (h.shells k sh hk).imp_right fun howes => .inr ⟨?_, howes⟩
          rintro rfl
          rcases howes with howes | howes <;> cases hpc.symm.trans howes
        · obtain ⟨hlen, hlast⟩ := List.getElem?_eq_some_iff.mp hk
          rw [List.length_append, List.length_singleton] at hlen
          obtain rfl : k = s.shared.shells.length := by omega
          rw [List.getElem_concat_length] at hlast
          · subst hlast
            exact .inr (.inl ⟨rfl, .inl rfl⟩)
          · rfl
  | @read j m hpc hm =>
      -- What the task finds is its own shell.
      obtain rfl : j = m := Option.some.inj ((h.field i j hpc).symm.trans hm)
      refine h.of_parts hg hl hsame (fun k hk => by cases hk) (fun j _ k hk => h.field j k hk) ?_
        (fun _ _ _ _ => rfl) ?_
      · rintro k (hk | hk)
        · cases hk
        · cases hk
          exact h.owed i j (.inl hpc)
      · intro k sh hk
        refine (h.shells k sh hk).imp_right fun howes => ?_
        by_cases hmaker : sh.maker = i
        · refine .inl ⟨hmaker, ?_⟩
          rw [hmaker, hpc] at howes
          rcases howes with howes | howes
          · cases howes
            exact .inr rfl
          · cases howes
        · exact .inr ⟨hmaker, howes⟩
  | @start m sh hpc hm hnew =>
      obtain ⟨cmd, hown⟩ := h.owed i m (.inr hpc)
      cases hm.symm.trans hown
      have hother : ∀ j, j ≠ i → ∀ k, (s.own j).pc.Owes k → m ≠ k := by
        rintro j hj k hk rfl
        exact hj (h.eq_of_owes hk (.inr hpc))
      refine h.of_parts hg hl hsame (fun k hk => by cases hk) (fun j _ k hk => h.field j k hk)
        (fun k hk => by rcases hk with hk | hk <;> cases hk)
        (fun j hj k hk => List.getElem?_set_ne (hother j hj k hk)) ?_
      intro k sh hk
      by_cases hkm : m = k
      · subst hkm
        rw [List.getElem?_set_self (List.getElem?_eq_some_iff.mp hown).1] at hk
        cases hk
        exact .inl rfl
      · rw [List.getElem?_set_ne hkm] at hk
        refine (h.shells k sh hk).imp_right fun howes => .inr ⟨?_, howes⟩
        rintro rfl
        rcases howes with howes | howes
        · cases hpc.symm.trans howes
        · cases hpc.symm.trans howes
          exact hkm rfl
  | caught hpc hk hold => exact absurd (h.unstarted hpc hk) hold
  | crash hpc hk hold => exact absurd (h.unstarted hpc hk) hold
  | joined hpc =>
      refine h.of_idle hg hl hsame ?_ ?_
      · rintro k (hk | hk) <;> cases hpc.symm.trans hk
      · rintro k (hk | hk) <;> cases hk
  | quit hpc =>
      refine h.of_idle hg hl hsame ?_ ?_
      · rintro k (hk | hk) <;> cases hpc.symm.trans hk
      · rintro k (hk | hk) <;> cases hpc.symm.trans hk

/-- No task has an exception. -/
theorem Own.crashed_of_step {s t : State ι} {e : ι × Act} (h : Own s) (hstep : step s e = some t) :
    t.shared.crashed = s.shared.crashed := by
  obtain ⟨i, a⟩ := e
  obtain ⟨g, l, hs, hg, hl, hsame⟩ := step_cases hstep
  rw [hg]
  cases hs with
  | crash hpc hk hold => exact absurd (h.unstarted hpc hk) hold
  | make => rfl
  | read => rfl
  | start => rfl
  | caught => rfl
  | joined => rfl
  | quit => rfl

/-- An overlap loses a shell. -/
theorem Own.lost {s t : State ι} {e : ι × Act} (h : Own s) (halone : ¬ Alone s e)
    (hstep : step s e = some t) : ∃ k sh, Lost k sh t := by
  obtain ⟨i, a⟩ := e
  obtain ⟨g, l, hs, hg, hl, hsame⟩ := step_cases hstep
  cases hs with
  | @make launch rest hpc htodo =>
      simp only [Alone, ne_eq, not_forall, not_not] at halone
      obtain ⟨j, k, hj⟩ := halone
      obtain ⟨cmd, hk⟩ := h.owed j k (.inl hj)
      have hlt := (List.getElem?_eq_some_iff.mp hk).1
      refine ⟨k, ⟨j, cmd, none⟩, ⟨?_, rfl, ?_, ?_⟩⟩
      · rw [hg, List.getElem?_append_left hlt, hk]
      · rw [hg]
        intro heq
        cases heq
        exact Nat.lt_irrefl _ hlt
      · -- Whoever holds it is its maker, which has not read it.
        refine Threads.forall_own (Q := fun _ l => l.pc ≠ .holding k) hl hsame (by simp)
          fun m _ hm => ?_
        obtain rfl := h.eq_of_owes (.inr hm) (.inl hj)
        cases hj.symm.trans hm
  | read => exact absurd trivial halone
  | start => exact absurd trivial halone
  | caught => exact absurd trivial halone
  | crash => exact absurd trivial halone
  | joined => exact absurd trivial halone
  | quit => exact absurd trivial halone

theorem Own.lost_of_run : ∀ {es : List (ι × Act)} {s t : State ι}, Own s →
    ¬ Run.Along step Alone s es → Run.run step s es = some t → ∃ k sh, Lost k sh t
  | [], _, _, _, halong, _ => absurd trivial halong
  | e :: es, s, t, h, halong, hrun => by
      obtain ⟨u, hu, hrun⟩ := Run.run_cons_eq_some.mp hrun
      by_cases halone : Alone s e
      · refine (h.of_step halone hu).lost_of_run (fun hrest => halong ?_) hrun
        exact Run.along_cons hu halone hrest
      · obtain ⟨k, sh, hk⟩ := h.lost halone hu
        exact ⟨k, sh, hk.of_run hrun⟩

/-- Launches that do not overlap end without an exception. -/
theorem not_crashed_of_along {launches : ι → List Launch} {t : State ι} {es : List (ι × Act)}
    (halong : Run.Along step Alone (start launches) es)
    (hrun : Run.run step (start launches) es = some t) : t.shared.crashed = false := by
  have hstep : ∀ (s : State ι) e t, (Own s ∧ s.shared.crashed = false) → Alone s e →
      step s e = some t → Own t ∧ t.shared.crashed = false := fun s e t h halone hstep =>
    ⟨h.1.of_step halone hstep, (h.1.crashed_of_step hstep).trans h.2⟩
  exact (Run.run_invariant_of hstep es ⟨own_start launches, rfl⟩ halong hrun).2

/-- At the end of a run with no launch under way, every shell has been started, and by the task that
made it, exactly if no task replaced a shell in the field before it was read. -/
theorem commands_run_iff {launches : ι → List Launch} {t : State ι} {es : List (ι × Act)}
    (hrun : Run.run step (start launches) es = some t) (hend : ∀ i k, ¬ (t.own i).pc.Owes k) :
    (∀ sh ∈ t.shared.shells, sh.starter = some sh.maker) ↔
      Run.Along step Alone (start launches) es := by
  constructor
  · intro hall
    by_contra halong
    obtain ⟨k, sh, hk⟩ := (own_start launches).lost_of_run halong hrun
    cases hk.unstarted.symm.trans (hall sh (List.mem_of_getElem? hk.shell))
  · intro halong sh hsh
    have hown := Run.run_invariant_of (fun _ _ _ h halone hstep => h.of_step halone hstep) es
      (own_start launches) halong hrun
    obtain ⟨k, hk⟩ := List.mem_iff_getElem?.mp hsh
    exact (hown.shells k sh hk).resolve_right (hend sh.maker k)

/-- Each task makes its shell when the other has read its own. -/
def inTurn : List (Bool × Act) :=
  [(true, .make), (true, .read), (false, .make), (true, .start), (false, .read), (false, .start),
    (true, .joined), (false, .joined)]

theorem commands_run_in_turn : Run.Along step Alone (start startAndInstall) inTurn := by
  have hend : (Run.run step (start startAndInstall) inTurn).map (fun t =>
      (t.shared.shells.map fun sh => (sh.maker, sh.starter), (t.own true).pc, (t.own false).pc)) =
      some ([(true, some true), (false, some false)], .ready, .ready) := by decide +kernel
  obtain ⟨t, ht, hend⟩ := Option.map_eq_some_iff.mp hend
  obtain ⟨hshells, hpcs⟩ := Prod.mk.inj hend
  obtain ⟨htrue, hfalse⟩ := Prod.mk.inj hpcs
  refine (commands_run_iff ht ?_).mp fun sh hsh => ?_
  · rintro (_ | _) k hk
    · rw [hfalse] at hk
      rcases hk with hk | hk <;> cases hk
    · rw [htrue] at hk
      rcases hk with hk | hk <;> cases hk
  · have hmem := List.mem_map_of_mem (f := fun sh : Shell Bool => (sh.maker, sh.starter)) hsh
    rw [hshells] at hmem
    simp only [List.mem_cons, Prod.mk.injEq, List.not_mem_nil, or_false] at hmem
    rcases hmem with ⟨hm, hst⟩ | ⟨hm, hst⟩
    · rw [hm, hst]
    · rw [hm, hst]

/-! ## Two launches that overlap -/

/-- The shells that the field and the tasks name have been made. -/
structure Bounded (s : State ι) : Prop where
  field : ∀ k, s.shared.stmp = some k → k < s.shared.shells.length
  held : ∀ i k, (s.own i).pc = .holding k → k < s.shared.shells.length

omit [DecidableEq ι] in
theorem bounded_start (launches : ι → List Launch) : Bounded (start launches) where
  field := fun k h => by cases h
  held := fun i k h => by cases h

theorem Bounded.of_step {s t : State ι} {e : ι × Act} (h : Bounded s)
    (hstep : step s e = some t) : Bounded t := by
  obtain ⟨i, a⟩ := e
  obtain ⟨g, l, hs, hg, hl, hsame⟩ := step_cases hstep
  have hkeep : (∀ k, g.stmp = some k → k < g.shells.length) →
      s.shared.shells.length ≤ g.shells.length →
      (∀ k, l.pc = .holding k → k < g.shells.length) → Bounded t := by
    intro hfield hle hheld
    subst hg
    exact ⟨hfield, Threads.forall_own
      (Q := fun _ l => ∀ k, l.pc = .holding k → k < t.shared.shells.length)
      hl hsame hheld fun j _ k hj => (h.held j k hj).trans_le hle⟩
  cases hs with
  | make hpc htodo =>
      refine hkeep (fun k hk => ?_) ?_ (fun k hk => by cases hk)
      · cases hk
        simp
      · simp
  | read hpc hk =>
      refine hkeep h.field le_rfl fun m hm => ?_
      cases hm
      exact h.field _ hk
  | start hpc hk hnew =>
      refine hkeep (fun m hm => ?_) ?_ (fun m hm => by cases hm)
      · rw [List.length_set]
        exact h.field m hm
      · rw [List.length_set]
  | caught => exact hkeep h.field le_rfl fun m hm => by cases hm
  | crash => exact hkeep h.field le_rfl (h.held i)
  | joined => exact hkeep h.field le_rfl fun m hm => by cases hm
  | quit => exact hkeep h.field le_rfl (h.held i)

theorem bounded_of_run {launches : ι → List Launch} {s : State ι} {es : List (ι × Act)}
    (hrun : Run.run step (start launches) es = some s) : Bounded s :=
  Run.run_invariant (fun _ _ _ h hstep => h.of_step hstep) es (bounded_start launches) hrun

section
variable {g : Shared ι} {i : ι} {launch : Launch} {rest : List Launch} {k : Nat} {sh : Shell ι}

omit [DecidableEq ι] in
/-- Nothing happens after an exception that was not caught. -/
theorem act_crashed (hg : g.crashed = true) {l : Task} {a : Act} : act i g l a = none := by
  rw [act.eq_def, if_pos hg]

omit [DecidableEq ι] in
theorem act_make (hg : g.crashed = false) :
    act i g ⟨launch :: rest, .ready⟩ .make =
      some ({ g with shells := g.shells ++ [⟨i, launch.cmd, none⟩], stmp := some g.shells.length },
        ⟨launch :: rest, .made g.shells.length⟩) := by
  simp [act, hg]

omit [DecidableEq ι] in
theorem act_read (hg : g.crashed = false) (hk : g.stmp = some k) (m : Nat) :
    act i g ⟨rest, .made m⟩ .read = some (g, ⟨rest, .holding k⟩) := by
  simp [act, hg, hk]

omit [DecidableEq ι] in
theorem act_start_first (hg : g.crashed = false) (hk : g.shells[k]? = some sh)
    (hnew : sh.starter = none) :
    act i g ⟨launch :: rest, .holding k⟩ .start =
      some ({ g with shells := g.shells.set k { sh with starter := some i } },
        ⟨launch :: rest, .joining⟩) := by
  simp [act, hg, hk, hnew]

omit [DecidableEq ι] in
theorem act_start_again (hg : g.crashed = false) (hk : g.shells[k]? = some sh)
    (hold : sh.starter ≠ none) :
    act i g ⟨launch :: rest, .holding k⟩ .start =
      if launch.catchesAll then some (g, ⟨rest, .ready⟩)
      else some ({ g with crashed := true }, ⟨launch :: rest, .holding k⟩) := by
  simp [act, hg, hk, hold, Task.next]

end

/-- Two tasks make their shells; the first of them is lost. -/
theorem run_makes {s : State ι} (hs : Bounded s) (hcrash : s.shared.crashed = false) {i j : ι}
    (hij : i ≠ j) {launch launch' : Launch} {rest rest' : List Launch}
    (hi : s.own i = ⟨launch :: rest, .ready⟩) (hj : s.own j = ⟨launch' :: rest', .ready⟩) :
    ∃ t k, Run.run step s [(i, .make), (j, .make)] = some t ∧
      Lost s.shared.shells.length ⟨i, launch.cmd, none⟩ t ∧ t.shared.crashed = false ∧
      t.shared.stmp = some k ∧ t.shared.shells[k]? = some ⟨j, launch'.cmd, none⟩ ∧
      t.own i = ⟨launch :: rest, .made s.shared.shells.length⟩ ∧
      t.own j = ⟨launch' :: rest', .made k⟩ := by
  obtain ⟨u, hu, hgu, hiu, hsameu⟩ := Threads.exists_step _ rfl hi (act_make (i := i) hcrash)
  have hju := (hsameu j hij.symm).trans hj
  have hcrashu : u.shared.crashed = false := by rwa [hgu]
  obtain ⟨t, ht, hgt, hjt, hsamet⟩ := Threads.exists_step _ rfl hju (act_make (i := j) hcrashu)
  have hit := (hsamet i hij).trans hiu
  -- Nobody has read a shell that was not made.
  have hunheld : ∀ m, (u.own m).pc ≠ .holding s.shared.shells.length :=
    Threads.forall_own (Q := fun _ l => l.pc ≠ .holding s.shared.shells.length) hiu hsameu (by simp)
      fun m _ hm => absurd (hs.held m _ hm) (Nat.lt_irrefl _)
  refine ⟨t, u.shared.shells.length, ?_, ⟨?_, rfl, ?_, ?_⟩, ?_, ?_, ?_, hit, hjt⟩
  · exact Run.run_cons_eq_some.mpr ⟨u, hu, Run.run_cons_eq_some.mpr ⟨t, ht, rfl⟩⟩
  · rw [hgt, hgu]
    simp
  · rw [hgt, hgu]
    simp
  · exact Threads.forall_own (Q := fun _ l => l.pc ≠ .holding s.shared.shells.length) hjt hsamet
      (by simp) fun m _ => hunheld m
  · rwa [hgt]
  · rw [hgt]
  · rw [hgt]
    simp

/-- Two tasks start what is in the field, one after the other; the second has an exception. -/
theorem run_starts {s : State ι} (hcrash : s.shared.crashed = false) {i j : ι} (hij : i ≠ j)
    {launch launch' : Launch} {rest rest' : List Launch} {k m m' : Nat} {sh : Shell ι}
    (hstmp : s.shared.stmp = some k) (hk : s.shared.shells[k]? = some sh) (hnew : sh.starter = none)
    (hi : s.own i = ⟨launch :: rest, .made m⟩) (hj : s.own j = ⟨launch' :: rest', .made m'⟩) :
    ∃ t, Run.run step s [(j, .read), (j, .start), (i, .read), (i, .start)] = some t ∧
      t.shared.crashed = !launch.catchesAll ∧
      (launch.catchesAll = true → t.own i = ⟨rest, .ready⟩) := by
  obtain ⟨u, hu, hgu, hju, hsameu⟩ :=
    Threads.exists_step _ rfl hj (act_read (i := j) hcrash hstmp m')
  obtain ⟨v, hv, hgv, -, hsamev⟩ :=
    Threads.exists_step _ hgu hju (act_start_first (i := j) hcrash hk hnew)
  have hiv := (hsamev i hij).trans ((hsameu i hij).trans hi)
  have hcrashv : v.shared.crashed = false := by rwa [hgv]
  have hstmpv : v.shared.stmp = some k := by rwa [hgv]
  have hkv : v.shared.shells[k]? = some { sh with starter := some j } := by
    rw [hgv, List.getElem?_set_self (List.getElem?_eq_some_iff.mp hk).1]
  obtain ⟨w, hw, hgw, hiw, -⟩ := Threads.exists_step _ rfl hiv (act_read (i := i) hcrashv hstmpv m)
  have hagain : act i v.shared ⟨launch :: rest, .holding k⟩ .start = _ :=
    act_start_again hcrashv hkv (Option.some_ne_none j)
  have hrun : ∀ t, step w (i, .start) = some t →
      Run.run step s [(j, .read), (j, .start), (i, .read), (i, .start)] = some t := fun t ht =>
    Run.run_cons_eq_some.mpr ⟨u, hu, Run.run_cons_eq_some.mpr ⟨v, hv,
      Run.run_cons_eq_some.mpr ⟨w, hw, Run.run_cons_eq_some.mpr ⟨t, ht, rfl⟩⟩⟩⟩
  cases hcatch : launch.catchesAll with
  | true =>
      rw [hcatch, if_pos rfl] at hagain
      obtain ⟨t, ht, hgt, hit, -⟩ := Threads.exists_step _ hgw hiw hagain
      exact ⟨t, hrun t ht, by rwa [hgt], fun _ => hit⟩
  | false =>
      rw [hcatch, if_neg Bool.false_ne_true] at hagain
      obtain ⟨t, ht, hgt, -, -⟩ := Threads.exists_step _ hgw hiw hagain
      exact ⟨t, hrun t ht, by rw [hgt]; rfl, fun h => by cases h⟩

/-- Task `i` makes its shell, task `j` makes and starts its own, and `i` goes on. -/
def overlapping (i j : ι) : List (ι × Act) :=
  [(i, .make), (j, .make), (j, .read), (j, .start), (i, .read), (i, .start)]

/-- The shell of `i` is lost, and `i` has an exception. -/
theorem run_overlapping {s : State ι} (hs : Bounded s) (hcrash : s.shared.crashed = false)
    {i j : ι} (hij : i ≠ j) {launch launch' : Launch} {rest rest' : List Launch}
    (hi : s.own i = ⟨launch :: rest, .ready⟩) (hj : s.own j = ⟨launch' :: rest', .ready⟩) :
    ∃ t, Run.run step s (overlapping i j) = some t ∧
      Lost s.shared.shells.length ⟨i, launch.cmd, none⟩ t ∧
      t.shared.crashed = !launch.catchesAll ∧
      (launch.catchesAll = true → t.own i = ⟨rest, .ready⟩) := by
  obtain ⟨u, k, hu, hlost, hcrashu, hstmp, hk, hiu, hju⟩ := run_makes hs hcrash hij hi hj
  obtain ⟨t, ht, hcrasht, hit⟩ := run_starts hcrashu hij hstmp hk rfl hiu hju
  refine ⟨t, ?_, hlost.of_run ht, hcrasht, hit⟩
  exact (Run.run_append s [(i, Act.make), (j, Act.make)] _).trans (by rw [hu]; exact ht)

section
variable {launches : ι → List Launch} {s : State ι} {es : List (ι × Act)} {i j : ι}
  {launch' : Launch} {rest' : List Launch}

/-- A mode start whose start command is made just before another task makes its shell returns as
if it had gone well, and its command is not run whatever happens later. -/
theorem start_lost {h : HPStart} {d : Device}
    (hrun : Run.run step (start launches) es = some s) (hcrash : s.shared.crashed = false)
    (hij : i ≠ j) (hdir : isDirectory d.fs (inDir h.filePath h.mName) = true)
    (hi : s.own i = ⟨(jobLaunches h d .start).drop 1, .ready⟩)
    (hj : s.own j = ⟨launch' :: rest', .ready⟩) :
    ∃ t, Run.run step s (overlapping i j) = some t ∧ t.shared.crashed = false ∧
      t.own i = ⟨[], .ready⟩ ∧
      ∀ fs u, Run.run step t fs = some u →
        u.shared.shells[s.shared.shells.length]? =
          some ⟨i, HPStart.startCmd h.filePath d.sp, none⟩ := by
  have htodo : (jobLaunches h d .start).drop 1 = [⟨HPStart.startCmd h.filePath d.sp, true⟩] := by
    rw [jobLaunches, if_pos hdir]
    rfl
  rw [htodo] at hi
  obtain ⟨t, ht, hlost, hcrasht, hit⟩ := run_overlapping (bounded_of_run hrun) hcrash hij hi hj
  exact ⟨t, ht, hcrasht, hit rfl, fun fs u hu => (hlost.of_run hu).shell⟩

/-- The stop command has run. -/
theorem start_lost_to_install :
    ∃ s t, Run.run step (start startAndInstall)
        [(true, .make), (true, .read), (true, .start), (true, .joined)] = some s ∧
      Run.run step s (overlapping true false) = some t ∧ t.shared.crashed = false ∧
      t.own true = ⟨[], .ready⟩ ∧
      ∀ fs u, Run.run step t fs = some u →
        u.shared.shells[s.shared.shells.length]? =
          some ⟨true, HPStart.startCmd "/d" .empty, none⟩ := by
  have hstop : (Run.run step (start startAndInstall)
      [(true, .make), (true, .read), (true, .start), (true, .joined)]).map (fun s =>
        (s.shared.crashed, s.own true, s.own false)) =
      some (false, ⟨(jobLaunches modeStart modeDevice .start).drop 1, .ready⟩,
        ⟨startAndInstall false, .ready⟩) := rfl
  have hdir : isDirectory modeDevice.fs (inDir modeStart.filePath modeStart.mName) = true := by
    decide +kernel
  obtain ⟨s, hs, hstop⟩ := Option.map_eq_some_iff.mp hstop
  obtain ⟨hcrash, hown⟩ := Prod.mk.inj hstop
  obtain ⟨hi, hj⟩ := Prod.mk.inj hown
  obtain ⟨t, ht⟩ := start_lost hs hcrash (by decide) hdir hi hj
  exact ⟨s, t, hs, ht⟩

/-- An installation whose shell is made just before another task makes its own ends the
application, before its command is run. -/
theorem install_crashes {h : HPInstall} {st : Storage} {assets : Assets} {d : Device}
    {launch : Launch} {rest : List Launch}
    (hrun : Run.run step (start launches) es = some s) (hcrash : s.shared.crashed = false)
    (hij : i ≠ j) (hi : s.own i = ⟨launch :: rest, .ready⟩)
    (hrest : launch :: rest <:+ installLaunches h st assets d)
    (hj : s.own j = ⟨launch' :: rest', .ready⟩) :
    ∃ t, Run.run step s (overlapping i j) = some t ∧
      t.shared.shells[s.shared.shells.length]? = some ⟨i, launch.cmd, none⟩ ∧
      ∀ e, step t e = none := by
  obtain ⟨t, ht, hlost, hcrasht, -⟩ := run_overlapping (bounded_of_run hrun) hcrash hij hi hj
  rw [installLaunches_catch (hrest.subset (List.mem_cons_self ..))] at hcrasht
  refine ⟨t, ht, hlost.shell, fun e => ?_⟩
  exact congrArg (Option.map _) (act_crashed hcrasht)

theorem install_crashes_at_once :
    ∃ t, Run.run step (start startAndInstall) (overlapping false true) = some t ∧
      t.shared.shells[0]? = some ⟨false, preShell packageInstall, none⟩ ∧
      ∀ e, step t e = none := by
  have hfirst : startAndInstall false =
      ⟨preShell packageInstall, false⟩ :: (startAndInstall false).tail := rfl
  have hi : (start startAndInstall).own false =
      ⟨⟨preShell packageInstall, false⟩ :: (startAndInstall false).tail, .ready⟩ :=
    congrArg (Task.mk · .ready) hfirst
  have hrest : ⟨preShell packageInstall, false⟩ :: (startAndInstall false).tail <:+
      installLaunches packageInstall .sound (fun _ => some []) modeDevice := ⟨[], hfirst.symm⟩
  exact install_crashes (Run.run_nil (start startAndInstall)) rfl Bool.false_ne_true hi hrest rfl

end

end HapAndroid.Launches
