import HapAndroid.Byml.MainActivity
import HapAndroid.Lib.Run

/-!
# The start button

A click on an entry of the list makes its mode the current one, whatever the click is for:
to start the mode, to edit it, to export it or to delete it.  The start button starts the
current mode.  Its label is set by a start, and by a deletion if the name of the deleted
mode occurs in it.

So the label and the current mode come apart when an entry is clicked for something else
than a start.  `label_honest_iff` has the runs in which they never do.
-/

namespace HapAndroid

namespace MainActivity

/-! ## Starting -/

/-- The label that names a mode. -/
def startLabel (name : Text) : Text := ("启动:" : Text) ++ name

/-- The label after the mode it named was deleted. -/
def deletedLabel : Text := "模式以被删除"

/-- The task that starts a mode. -/
def startTask (env : Env) (hasHandler : Bool) (name : Text) : HPStart where
  filePath := env.filePath
  mName := name
  isAdd := false
  hasHandler := hasHandler

/-- What a start of the current mode leaves on the screen and in the preferences. -/
def noteStart (a : MainActivity) : MainActivity :=
  { a with
    bstart := startLabel a.nowName
    dev := ⟨a.dev.fs, (a.dev.sp.putInt "now_i" a.nowI).putString "now_name" a.nowName⟩ }

/-- `onChildClick` with the position 0: the task begun and the screen after it. -/
def clickStart (env : Env) (a : MainActivity) (group : Nat) : Option (HPStart × MainActivity) :=
  (a.onChildClick group).map fun b => (startTask env true b.nowName, noteStart b)

/-- The mode the start button starts.  If the current one has no name it is looked up in
the list, where there may be no such entry. -/
def modeToStart (a : MainActivity) : Option Text :=
  if a.nowName = [] then a.mData[a.nowI]? else some a.nowName

/-- `onClick` for the start button: the task begun and the screen after it. -/
def pressStart (env : Env) (a : MainActivity) : Option (HPStart × MainActivity) :=
  (modeToStart a).map fun name =>
    (startTask env false name, noteStart { a with nowName := name })

end MainActivity

open MainActivity

/-! ## The screen -/

/-- What is in front of the user. -/
inductive Front where
  | list
  | editor
  | exportDialog
  | deleteDialog
deriving DecidableEq

/-- The main screen and what is in front of it. -/
structure Screen where
  app : MainActivity
  front : Front

/-- What the user does. -/
inductive Action where
  | startEntry (k : Nat)
  | editEntry (k : Nat)
  | exportEntry (k : Nat)
  | deleteEntry (k : Nat)
  | press
  /-- The editor returns and leaves the device as it is. -/
  | leaveEditor (d : Device) (r : ActivityResult)
  | confirmExport (path : Text)
  | cancelExport
  | confirmDelete
  | cancelDelete

/-- Where an action is possible. -/
def Action.place : Action → Front
  | .startEntry _ | .editEntry _ | .exportEntry _ | .deleteEntry _ | .press => .list
  | .leaveEditor _ _ => .editor
  | .confirmExport _ | .cancelExport => .exportDialog
  | .confirmDelete | .cancelDelete => .deleteDialog

namespace Screen

/-- What an action does in its place.  `none` is an exception. -/
def perform (env : Env) (ser : Serial) (a : MainActivity) : Action → Option Screen
  | .startEntry k => (a.clickStart env k).map fun p => ⟨p.2, .list⟩
  | .editEntry k => (a.onChildClick k).map fun b => ⟨b, .editor⟩
  | .exportEntry k => (a.onChildClick k).map fun b => ⟨b, .exportDialog⟩
  | .deleteEntry k => (a.onChildClick k).map fun b => ⟨b, .deleteDialog⟩
  | .press => (a.pressStart env).map fun p => ⟨p.2, .list⟩
  | .leaveEditor d r => some ⟨{ a.onActivityResult r with dev := d }, .list⟩
  | .confirmExport path =>
      some ⟨{ a with dev := ⟨(exportMode env ser a path).2, a.dev.sp⟩ }, .list⟩
  | .cancelExport => some ⟨a, .list⟩
  | .confirmDelete => some ⟨(a.deleteMode env).2, .list⟩
  | .cancelDelete => some ⟨a, .list⟩

/-- One action.  After a start that threw there is no screen. -/
def step (env : Env) (ser : Serial) (s : Screen) (act : Action) : Option Screen :=
  if s.app.crashed = false ∧ s.front = act.place then perform env ser s.app act else none

/-- The screen after the start of the application. -/
def first (env : Env) (d : Device) : Screen := ⟨onCreate env d, .list⟩

/-- If the label names a mode, pressing the button starts that mode. -/
def StartsNamed (env : Env) (a : MainActivity) : Prop :=
  ∀ n, a.bstart = startLabel n → ∃ a', a.pressStart env = some (startTask env false n, a')

/-- Deleting the current mode changes the label exactly if the label names it. -/
def DeletesNamed (env : Env) (a : MainActivity) : Prop :=
  (a.deleteMode env).2.bstart ≠ a.bstart ↔ a.bstart = startLabel a.nowName

/-- The label tells the truth. -/
structure Honest (env : Env) (s : Screen) : Prop where
  starts : StartsNamed env s.app
  deletes : s.front = .deleteDialog → DeletesNamed env s.app

/-- An entry is the mode the label names, if it names one. -/
def LabelIs (a : MainActivity) (k : Nat) : Prop :=
  ∀ n, a.bstart = startLabel n → a.mData[k]? = some n

/-- The actions that keep label and current mode together. -/
def Aligned (s : Screen) : Action → Prop
  | .editEntry k | .exportEntry k => LabelIs s.app k
  | .deleteEntry k =>
      LabelIs s.app k ∧ ((∀ n, s.app.bstart ≠ startLabel n) →
        ∀ title, s.app.mData[k]? = some title → containsText s.app.bstart title = true →
          s.app.bstart = deletedLabel)
  -- A mode without a name is looked up in the list, which the editor may have changed.
  | .leaveEditor _ r =>
      s.app.nowName = [] → LabelIs (s.app.onActivityResult r) s.app.nowI
  | _ => True

/-! ## Labels -/

theorem startLabel_injective {m n : Text} (h : startLabel m = startLabel n) : m = n :=
  List.append_cancel_left h

theorem startLabel_ne_deletedLabel (n : Text) : startLabel n ≠ deletedLabel := by
  intro h
  have hhead : some '启' = some '模' := congrArg List.head? h
  exact absurd hhead (by decide)

/-- The deletion looks for the name anywhere in the label. -/
theorem containsText_startLabel (n : Text) : containsText (startLabel n) n = true := by
  have h := containsText_append "启动:" n []
  rwa [List.append_nil] at h

theorem containsText_nil (s : Text) : containsText s [] = true := by
  have h := containsText_append s [] []
  rwa [List.append_nil, List.append_nil] at h

section
variable {env : Env} {ser : Serial} {a b : MainActivity} {k : Nat}

theorem startsNamed_iff :
    StartsNamed env a ↔ ∀ n, a.bstart = startLabel n → modeToStart a = some n := by
  refine forall₂_congr fun n _ => ?_
  constructor
  · rintro ⟨a', h⟩
    obtain ⟨name, hname, heq⟩ := Option.map_eq_some_iff.mp h
    have hn : name = n := congrArg (fun p => p.1.mName) heq
    rw [hname, hn]
  · intro h
    exact ⟨noteStart { a with nowName := n }, by rw [pressStart, h]; rfl⟩

theorem StartsNamed.device (h : StartsNamed env a) (d : Device) :
    StartsNamed env { a with dev := d } := by
  rw [startsNamed_iff] at h ⊢
  exact h

theorem startsNamed_noteStart (h : modeToStart a = some a.nowName) :
    StartsNamed env (noteStart a) := by
  rw [startsNamed_iff]
  intro n hn
  rw [← startLabel_injective hn]
  exact h

theorem bstart_deleteMode (a : MainActivity) :
    (a.deleteMode env).2.bstart =
      if containsText a.bstart a.nowName = true then deletedLabel else a.bstart := rfl

theorem deletesNamed_iff :
    DeletesNamed env a ↔
      (containsText a.bstart a.nowName = true ∧ a.bstart ≠ deletedLabel ↔
        a.bstart = startLabel a.nowName) := by
  rw [DeletesNamed, bstart_deleteMode]
  split
  · next h => simp [h, ne_comm]
  · next h => simp [h]

/-! ## Clicks -/

theorem onChildClick_eq_some (h : a.onChildClick k = some b) :
    ∃ title, a.mData[k]? = some title ∧ b = { a with nowI := k, nowName := title } := by
  obtain ⟨title, htitle, rfl⟩ := Option.map_eq_some_iff.mp h
  exact ⟨title, htitle, rfl⟩

/-- The clicked entry is what the button starts. -/
theorem modeToStart_clicked (h : a.onChildClick k = some b) : modeToStart b = some b.nowName := by
  obtain ⟨title, htitle, rfl⟩ := onChildClick_eq_some h
  rw [modeToStart]
  split
  · next hnil => exact htitle
  · rfl

/-- The button starts the mode its label names after a click on that mode only. -/
theorem startsNamed_clicked (h : a.onChildClick k = some b) :
    StartsNamed env b ↔ LabelIs a k := by
  rw [startsNamed_iff, modeToStart_clicked h]
  obtain ⟨title, htitle, rfl⟩ := onChildClick_eq_some h
  rw [LabelIs, htitle]

/-- The deletion of the named mode is noted.  Where no mode is named the label must not
hold the name by accident. -/
theorem deletesNamed_clicked (h : a.onChildClick k = some b) (hlabel : LabelIs a k) :
    DeletesNamed env b ↔
      ((∀ n, a.bstart ≠ startLabel n) → ∀ title, a.mData[k]? = some title →
        containsText a.bstart title = true → a.bstart = deletedLabel) := by
  rw [deletesNamed_iff]
  obtain ⟨title, htitle, rfl⟩ := onChildClick_eq_some h
  by_cases hnames : ∃ n, a.bstart = startLabel n
  · obtain ⟨n, hn⟩ := hnames
    have htn : title = n := Option.some.inj (htitle.symm.trans (hlabel n hn))
    subst htn
    refine ⟨fun _ hnone => absurd hn (hnone title), fun _ => ?_⟩
    refine ⟨fun _ => hn, fun _ => ⟨?_, ?_⟩⟩
    · show containsText a.bstart title = true
      rw [hn]
      exact containsText_startLabel title
    · show a.bstart ≠ deletedLabel
      rw [hn]
      exact startLabel_ne_deletedLabel title
  · push Not at hnames
    constructor
    · intro hiff _ title' htitle' hin
      have htt : title = title' := Option.some.inj (htitle.symm.trans htitle')
      subst htt
      by_contra hne
      exact hnames title (hiff.mp ⟨hin, hne⟩)
    · intro hacc
      refine ⟨fun hin => ?_, fun hn => absurd hn (hnames title)⟩
      exact absurd (hacc hnames title htitle hin.1) hin.2

/-- A label that names a mode holds the name of the current one. -/
theorem StartsNamed.containsText_nowName (h : StartsNamed env a) {n : Text}
    (hn : a.bstart = startLabel n) : containsText a.bstart a.nowName = true := by
  have hmode := startsNamed_iff.mp h n hn
  rw [modeToStart] at hmode
  split at hmode
  · next hnil => rw [hnil]; exact containsText_nil _
  · rw [Option.some.inj hmode, hn]
    exact containsText_startLabel n

/-- After a deletion the label names no mode. -/
theorem StartsNamed.deleteMode (h : StartsNamed env a) :
    StartsNamed env (a.deleteMode env).2 := by
  intro n hn
  rw [bstart_deleteMode] at hn
  split at hn
  · exact absurd hn.symm (startLabel_ne_deletedLabel n)
  · next hout => exact absurd (h.containsText_nowName hn) hout

/-- The mode the button starts is the same after the start. -/
theorem modeToStart_pressed {name : Text} (h : modeToStart a = some name) :
    modeToStart { a with nowName := name } = some name := by
  rw [modeToStart] at h ⊢
  split
  · next hnil =>
    subst hnil
    split at h
    · exact h
    · next hne => exact absurd (Option.some.inj h) hne
  · rfl

/-- The result of the editor matters only to a current mode without a name. -/
theorem startsNamed_result (h : StartsNamed env a) (d : Device) (r : ActivityResult) :
    StartsNamed env { a.onActivityResult r with dev := d } ↔
      (a.nowName = [] → LabelIs (a.onActivityResult r) a.nowI) := by
  have hkeep : (a.onActivityResult r).bstart = a.bstart ∧
      (a.onActivityResult r).nowName = a.nowName ∧ (a.onActivityResult r).nowI = a.nowI := by
    rw [onActivityResult]
    split
    · exact ⟨rfl, rfl, rfl⟩
    · split
      · exact ⟨rfl, rfl, rfl⟩
      · exact ⟨rfl, rfl, rfl⟩
  obtain ⟨hlabel, hname, hnow⟩ := hkeep
  rw [startsNamed_iff, LabelIs]
  simp only [modeToStart, hlabel, hname, hnow]
  by_cases hnil : a.nowName = []
  · simp [hnil]
  · rw [startsNamed_iff] at h
    simp only [modeToStart, if_neg hnil] at h ⊢
    exact iff_of_true h fun hnil' => absurd hnil' hnil

end

/-! ## Runs -/

theorem step_eq_some {env : Env} {ser : Serial} {s t : Screen} {act : Action}
    (h : step env ser s act = some t) :
    s.front = act.place ∧ perform env ser s.app act = some t := by
  rw [step] at h
  split at h
  · next hfront => exact ⟨hfront.2, h⟩
  · cases h

theorem honest_list {env : Env} {a : MainActivity} :
    Honest env ⟨a, .list⟩ ↔ StartsNamed env a :=
  ⟨Honest.starts, fun h => ⟨h, nofun⟩⟩

theorem honest_clicked {env : Env} {a b : MainActivity} {k : Nat} {front : Front}
    (h : a.onChildClick k = some b) (hfront : front ≠ .deleteDialog) :
    Honest env ⟨b, front⟩ ↔ LabelIs a k := by
  rw [← startsNamed_clicked h]
  exact ⟨Honest.starts, fun hstarts => ⟨hstarts, fun hdel => absurd hdel hfront⟩⟩

/-- From a screen whose label tells the truth, the aligned actions are those that lead to
such a screen again. -/
theorem Honest.step_iff {env : Env} {ser : Serial} {s t : Screen} {act : Action}
    (hs : Honest env s) (h : step env ser s act = some t) : Honest env t ↔ Aligned s act := by
  obtain ⟨hfront, h⟩ := step_eq_some h
  cases act with
  | startEntry k =>
      obtain ⟨p, hp, rfl⟩ := Option.map_eq_some_iff.mp h
      obtain ⟨b, hb, rfl⟩ := Option.map_eq_some_iff.mp hp
      exact iff_of_true (honest_list.mpr (startsNamed_noteStart (modeToStart_clicked hb))) trivial
  | editEntry k =>
      obtain ⟨b, hb, rfl⟩ := Option.map_eq_some_iff.mp h
      exact honest_clicked hb nofun
  | exportEntry k =>
      obtain ⟨b, hb, rfl⟩ := Option.map_eq_some_iff.mp h
      exact honest_clicked hb nofun
  | deleteEntry k =>
      obtain ⟨b, hb, rfl⟩ := Option.map_eq_some_iff.mp h
      constructor
      · intro ht
        have hlabel := (startsNamed_clicked hb).mp ht.starts
        exact ⟨hlabel, (deletesNamed_clicked hb hlabel).mp (ht.deletes rfl)⟩
      · rintro ⟨hlabel, hacc⟩
        exact ⟨(startsNamed_clicked hb).mpr hlabel,
          fun _ => (deletesNamed_clicked hb hlabel).mpr hacc⟩
  | press =>
      obtain ⟨p, hp, rfl⟩ := Option.map_eq_some_iff.mp h
      obtain ⟨name, hname, rfl⟩ := Option.map_eq_some_iff.mp hp
      exact iff_of_true (honest_list.mpr (startsNamed_noteStart (modeToStart_pressed hname)))
        trivial
  | leaveEditor d r =>
      cases h
      rw [honest_list, startsNamed_result hs.starts]
      rfl
  | confirmExport path =>
      cases h
      exact iff_of_true (honest_list.mpr (hs.starts.device _)) trivial
  | cancelExport =>
      cases h
      exact iff_of_true (honest_list.mpr hs.starts) trivial
  | confirmDelete =>
      cases h
      exact iff_of_true (honest_list.mpr hs.starts.deleteMode) trivial
  | cancelDelete =>
      cases h
      exact iff_of_true (honest_list.mpr hs.starts) trivial

/-- The first screen shows the name of the current mode, or a label without a name. -/
theorem onCreate_label (env : Env) (d : Device) :
    (onCreate env d).bstart = startLabel (onCreate env d).nowName ∨
      (onCreate env d).bstart = "启动" := by
  have hrestore : ∀ a : MainActivity, a.bstart = "启动" →
      (restoreNow a).bstart = startLabel (restoreNow a).nowName ∨ (restoreNow a).bstart = "启动" := by
    intro a ha
    rw [restoreNow]
    split
    · exact .inr ha
    · exact .inl rfl
  rw [onCreate]
  split
  · exact .inr rfl
  · simp only [loadModes]
    split
    · split
      · exact hrestore _ rfl
      · exact hrestore _ rfl
      · exact .inr rfl
    · exact hrestore _ rfl

/-- No title of the first screen is empty. -/
theorem ne_nil_of_mem_onCreate {env : Env} {d : Device} {title : Text}
    (h : title ∈ (onCreate env d).mData) : title ≠ [] := by
  have hload : ∀ {d' fuel}, title ∈ (load env d' fuel 0 []).2 → title ≠ [] := by
    intro d' fuel hmem
    rw [load_eq, List.nil_append] at hmem
    obtain ⟨n, hn, rfl⟩ := List.mem_map.mp hmem
    have hne := ne_nil_of_mem_namesFrom hn
    rw [titleOf]
    split
    · exact hne
    · exact List.append_ne_nil_of_left_ne_nil hne _
  rw [onCreate] at h
  split at h
  · cases h
  · simp only [loadModes] at h
    split at h
    · split at h
      · rw [mData_restoreNow] at h
        rcases List.mem_append.mp h with h | h
        · exact hload h
        · rw [List.mem_singleton.mp h]
          decide
      · exact hload (mData_restoreNow _ ▸ h)
      · exact hload h
    · exact hload (mData_restoreNow _ ▸ h)

/-- The first label tells the truth unless it names a mode with the empty name. -/
theorem honest_first_iff (env : Env) (d : Device) :
    Honest env (first env d) ↔ (onCreate env d).bstart ≠ startLabel [] := by
  rw [first, honest_list, startsNamed_iff]
  constructor
  · intro h hnil
    rcases onCreate_label env d with hlabel | hlabel
    · have hname : (onCreate env d).nowName = [] := startLabel_injective (hlabel.symm.trans hnil)
      have hmode := h [] hnil
      rw [modeToStart, if_pos hname] at hmode
      exact ne_nil_of_mem_onCreate (List.mem_of_getElem? hmode) rfl
    · exact absurd (hlabel.symm.trans hnil) (by decide)
  · intro hne n hn
    rcases onCreate_label env d with hlabel | hlabel
    · rw [startLabel_injective (hn.symm.trans hlabel), modeToStart, if_neg]
      intro hnil
      rw [hnil] at hlabel
      exact hne hlabel
    · have hlen := congrArg List.length (hn.symm.trans hlabel)
      simp [startLabel] at hlen

/-- The label tells the truth throughout a run exactly if it names no mode with the empty
name at first, and no entry is edited, exported or deleted but the one it names. -/
theorem label_honest_iff {env : Env} {ser : Serial} {d : Device} {acts : List Action} {s : Screen}
    (hrun : Run.run (step env ser) (first env d) acts = some s) :
    Run.Always (step env ser) (Honest env) (first env d) acts ↔
      (onCreate env d).bstart ≠ startLabel [] ∧
        Run.Along (step env ser) Aligned (first env d) acts := by
  rw [← honest_first_iff]
  constructor
  · intro h
    exact ⟨h.first,
      (Run.always_iff_along (fun _ _ _ => Honest.step_iff) acts h.first hrun).mp h⟩
  · rintro ⟨hfirst, halong⟩
    exact (Run.always_iff_along (fun _ _ _ => Honest.step_iff) acts hfirst hrun).mpr halong

/-- A serialization that reads nothing. -/
def noSerial : Serial := ⟨fun _ => [], fun _ => none⟩

/-- The modes `ab` and `b`, of which the first was started last. -/
def twoModes : Device where
  fs := ["ab".toList, "b".toList].foldl
    (fun fs name => (fs.writeFile ["d".toList, name, getHp] []).getD fs)
    (.ofDirs [["d".toList, "ab".toList], ["d".toList, "b".toList], ["d".toList, "1.4.5".toList]])
  sp := ((Prefs.empty.putString (modeKey 0) "ab").putString (modeKey 1) "b").putString
    "now_name" "ab"

theorem label_honest_deletion :
    Run.Always (step .plain noSerial) (Honest .plain) (first .plain twoModes)
      [.startEntry 1, .deleteEntry 1, .confirmDelete] := by
  have hsome : (Run.run (step .plain noSerial) (first .plain twoModes)
      [.startEntry 1, .deleteEntry 1, .confirmDelete]).isSome = true := by decide +kernel
  obtain ⟨s, hs⟩ := Option.isSome_iff_exists.mp hsome
  refine (label_honest_iff hs).mpr ⟨by decide +kernel, ?_⟩
  refine Run.along_cons rfl trivial <| Run.along_cons rfl ⟨fun n hn => ?_, fun hnone => ?_⟩ <|
    Run.along_cons rfl trivial trivial
  · rw [← startLabel_injective hn]
    decide +kernel
  · exact absurd rfl (hnone "b")

/-- When the deletion of `b` is cancelled the label still names `ab`, and the button starts
`b`.  When it is confirmed the label is changed, since `b` occurs in it. -/
theorem label_misleads :
    (∃ s, Run.run (step .plain noSerial) (first .plain twoModes)
        [.deleteEntry 1, .cancelDelete] = some s ∧ s.app.bstart = startLabel "ab" ∧
        (s.app.pressStart .plain).map (fun p => p.1.mName) = some "b".toList) ∧
      (∃ s, Run.run (step .plain noSerial) (first .plain twoModes)
        [.deleteEntry 1, .confirmDelete] = some s ∧ s.app.bstart = deletedLabel) ∧
      ¬ Run.Always (step .plain noSerial) (Honest .plain) (first .plain twoModes)
        [.deleteEntry 1, .cancelDelete] := by
  have hcancel : (Run.run (step .plain noSerial) (first .plain twoModes)
      [.deleteEntry 1, .cancelDelete]).map (fun s =>
        (s.app.bstart, (s.app.pressStart .plain).map (fun p => p.1.mName))) =
      some (startLabel "ab", some "b".toList) := by decide +kernel
  have hconfirm : (Run.run (step .plain noSerial) (first .plain twoModes)
      [.deleteEntry 1, .confirmDelete]).map (fun s => s.app.bstart) = some deletedLabel := by
    decide +kernel
  obtain ⟨s, hs, heq⟩ := Option.map_eq_some_iff.mp hcancel
  obtain ⟨hlabel, hpress⟩ := Prod.mk.inj heq
  refine ⟨⟨s, hs, hlabel, hpress⟩, Option.map_eq_some_iff.mp hconfirm, fun h => ?_⟩
  obtain ⟨a', ha'⟩ := (h.reached hs).starts "ab" hlabel
  rw [ha'] at hpress
  have hname : "ab".toList = "b".toList := Option.some.inj hpress
  exact absurd hname (by decide)

end Screen

end HapAndroid
