import HapAndroid.Mode.System

/-!
# Interleaved adding, importing and deleting

Between the steps of an import or of an editor other steps can happen.  Both
write the numbered preference of an index that was read from the counter at the
beginning, and both increase the counter at the end.  The message of an import
writes the preference again, with the counter as it is then; the result of an
editor does not.

`Consistent` is the invariant: the slots below the counter hold the titles, the
slots above it are empty, and what stands in the slot of the counter belongs to
something unfinished.  It survives the steps that are `Safe`, and not the
others: an import that ends while an editor is open makes the captured index of
the editor stale, and a deletion while an import runs leaves the name the import
has written in the slot after the list.
-/

namespace HapAndroid

/-- An editor opened for a new mode, whose tasks have not been stopped. -/
def EditMode.Adding (e : EditMode) : Prop :=
  e.isAdd = true ∧ e.isRename = false ∧ e.hs.isContinue = true

theorem EditMode.adding_onCreate (filePath mName : Text) (i : Nat) :
    (EditMode.onCreate filePath mName i true).Adding :=
  ⟨rfl, rfl, rfl⟩

/-- A press that goes on registers the mode. -/
theorem EditMode.Adding.pressSave {e : EditMode} (h : e.Adding) {st : Storage} {d : Device}
    (hsave : e.isSave = false) (hcont : (e.pressSave st d).1.hs.isContinue = true) :
    (e.pressSave st d).1.Adding ∧
      ∃ fs, mkdirs st d.fs (inDir e.filePath e.mName) = (true, fs) ∧
        (e.pressSave st d).2 = ⟨fs, putSlot d.sp e.i e.mName⟩ := by
  refine ⟨⟨h.1, h.2.1, hcont⟩, ?_⟩
  obtain ⟨fs, hok | ⟨-, -, hstop⟩⟩ := EditMode.pressSave_first st d h.1 hsave
  · exact ⟨fs, hok⟩
  · rw [hcont] at hstop
    cases hstop

/-- The result of an editor adds its mode if it was saved. -/
theorem EditMode.Adding.onActivityResult {e : EditMode} (h : e.Adding) (a : MainActivity) :
    a.onActivityResult e.close =
      if e.isSave then { a with i := a.i + 1, mData := a.mData ++ [e.mName] } else a := by
  obtain ⟨hadd, hren, hcont⟩ := h
  cases hsave : e.isSave with
  | true => simp [MainActivity.onActivityResult, close, hadd, hcont, hsave]
  | false => simp [MainActivity.onActivityResult, close, hren, hsave]

namespace System

/-- The editors that were saved and have not reported. -/
def saved (s : System) : List EditMode := s.adds.filter (·.isSave)

/-- The listed names and those being imported or added. -/
def names (s : System) : List Text :=
  s.app.mData ++ (s.imports.map (·.1.mName) ++ s.adds.map (·.mName))

/-- The slots fit the screen and what is unfinished. -/
structure Consistent (s : System) : Prop where
  count : s.app.i = s.app.mData.length
  slots : ListsBut s.app.dev.sp s.app.mData
  atEnd : slot s.app.dev.sp s.app.i = [] ∨ s.imports ≠ [] ∨ s.saved ≠ []
  editors : ∀ e ∈ s.adds, e.Adding
  saved : s.saved = [] ∨
    ∃ e, s.saved = [e] ∧ e.i = s.app.i ∧ slot s.app.dev.sp s.app.i = e.mName
  named : ∀ n ∈ s.names, n ≠ []
  nodup : s.names.Nodup

/-- The events that keep the list. -/
def Safe (s : System) : Event → Prop
  -- A new name, and no saved editor whose slot the task would overwrite.
  | .beginImport _ m => s.saved = [] ∧ ∀ n, m.name = some n → n ≠ [] ∧ n ∉ s.names
  | .finishImport _ => s.saved = []
  | .openAdd name => name ∉ s.names
  -- The captured index is still the counter.
  | .saveAdd k _ _ _ => s.saved = [] ∧ ∀ e, s.adds[k]? = some e → e.i = s.app.i
  | .addResult _ => True
  -- Nothing unfinished has written the slot after the list, and the deleted name
  -- is not the key of another listed mode.
  | .delete k => slot s.app.dev.sp s.app.i = [] ∧
      (s.app.i = k + 1 ∨ ∀ j, j < s.app.i → j ≠ k → slot s.app.dev.sp k ≠ modeKey j)

/-! ## Lists with one entry taken out or replaced -/

theorem exists_around {α : Type} {l : List α} {k : Nat} {x : α} (h : l[k]? = some x) :
    ∃ a b, l = a ++ x :: b ∧ l.eraseIdx k = a ++ b ∧ ∀ y, l.set k y = a ++ y :: b := by
  obtain ⟨hk, hx⟩ := List.getElem?_eq_some_iff.mp h
  refine ⟨l.take k, l.drop (k + 1), ?_, ?_, ?_⟩
  · rw [← hx, ← List.drop_eq_getElem_cons hk, List.take_append_drop]
  · exact List.eraseIdx_eq_take_drop_succ l k
  · intro y
    rw [List.set_eq_take_append_cons_drop, if_pos hk]

/-! ## The steps -/

variable {env : Env} {s t : System}

/-- Once nothing is unfinished, the slots hold the titles. -/
theorem Consistent.lists (h : Consistent s) (himports : s.imports = []) (hadds : s.adds = []) :
    Lists s.app.dev.sp s.app.mData := by
  refine h.slots.lists ?_
  rw [← h.count]
  rcases h.atEnd with hend | hend | hend
  · exact hend
  · exact absurd himports hend
  · refine absurd ?_ hend
    rw [System.saved, hadds, List.filter_nil]

theorem Consistent.of_perm_names (h : Consistent s) (hperm : t.names.Perm s.names) :
    (∀ n ∈ t.names, n ≠ []) ∧ t.names.Nodup :=
  ⟨fun n hn => h.named n (hperm.mem_iff.mp hn), hperm.nodup_iff.mpr h.nodup⟩

theorem Consistent.of_sublist_names (h : Consistent s) (hsub : t.names.Sublist s.names) :
    (∀ n ∈ t.names, n ≠ []) ∧ t.names.Nodup :=
  ⟨fun n hn => h.named n (hsub.mem hn), h.nodup.sublist hsub⟩

theorem Consistent.of_new_name (h : Consistent s) {name : Text} (hne : name ≠ [])
    (hnew : name ∉ s.names) (hperm : t.names.Perm (name :: s.names)) :
    (∀ n ∈ t.names, n ≠ []) ∧ t.names.Nodup := by
  refine ⟨fun n hn => ?_, hperm.nodup_iff.mpr (List.nodup_cons.mpr ⟨hnew, h.nodup⟩)⟩
  rcases List.mem_cons.mp (hperm.mem_iff.mp hn) with rfl | hn
  · exact hne
  · exact h.named n hn

theorem Consistent.beginImport {dir : Option Text} {m : MHP} {name : Text} {fs : Files}
    (h : Consistent s) (hsafe : s.Safe (.beginImport dir m)) (hname : m.name = some name) :
    Consistent
      { s with
        app := { s.app with
          dev := ⟨fs, putSlot (MainActivity.rememberDir s.app.dev.sp dir) s.app.i name⟩ }
        imports := s.imports ++
          [(MainActivity.taskAt env s.app.i name, .mhp m.connection m.get m.post)] } := by
  obtain ⟨hne, hnew⟩ := hsafe.2 name hname
  have hdir : ListsBut (MainActivity.rememberDir s.app.dev.sp dir) s.app.mData := by
    intro k hk
    rw [MainActivity.slot_rememberDir]
    exact h.slots k hk
  have hnames := h.of_new_name (t :=
    { s with imports := s.imports ++ [(MainActivity.taskAt env s.app.i name, .mhp m.connection m.get m.post)] })
    hne hnew (by
      rw [List.perm_iff_count]
      intro n
      simp only [names, MainActivity.taskAt, List.map_append, List.map_cons, List.map_nil, List.count_append,
        List.count_cons, List.count_nil]
      omega)
  exact
    { count := h.count
      slots := by
        have hput := hdir.putSlot name
        rwa [← h.count] at hput
      atEnd := Or.inr (Or.inl (by simp))
      editors := h.editors
      saved := Or.inl hsafe.1
      named := hnames.1
      nodup := hnames.2 }

theorem Consistent.finishImport {k : Nat} {task : HPStart} {job : Job} {d : Device}
    (h : Consistent s) (hsafe : s.Safe (.finishImport k))
    (hk : s.imports[k]? = some (task, job)) (hd : d.sp = s.app.dev.sp) :
    Consistent
      { s with
        app := MainActivity.appendMode { s.app with dev := d } task.mName
        imports := s.imports.eraseIdx k } := by
  obtain ⟨a, b, hl, herase, -⟩ := exists_around hk
  have hgrow : Lists (putSlot d.sp s.app.i task.mName) (s.app.mData ++ [task.mName]) := by
    have hput := (h.slots.putSlot task.mName).grow
    rwa [slot_putSlot, if_pos rfl, ← h.count, ← hd] at hput
  have hnames := h.of_perm_names (t :=
    { s with
      app := MainActivity.appendMode { s.app with dev := d } task.mName
      imports := s.imports.eraseIdx k }) (by
    rw [List.perm_iff_count]
    intro n
    simp only [names, MainActivity.appendMode, herase]
    simp only [hl, List.map_append, List.map_cons, List.count_append, List.count_cons,
      List.count_nil]
    omega)
  exact
    { count := by simp [MainActivity.appendMode, h.count]
      slots := hgrow.but
      atEnd := Or.inl (hgrow.slot_end (by simp [MainActivity.appendMode, h.count]))
      editors := h.editors
      saved := Or.inl hsafe
      named := hnames.1
      nodup := hnames.2 }

theorem Consistent.openAdd {name : Text} (h : Consistent s) (hsafe : s.Safe (.openAdd name))
    (hne : name ≠ []) :
    Consistent { s with adds := s.adds ++ [.onCreate env.filePath name s.app.i true] } := by
  have hsaved : System.saved
      { s with adds := s.adds ++ [.onCreate env.filePath name s.app.i true] } = s.saved := by
    simp [System.saved, EditMode.onCreate]
  have hnames := h.of_new_name (t :=
    { s with adds := s.adds ++ [.onCreate env.filePath name s.app.i true] }) hne hsafe (by
    rw [List.perm_iff_count]
    intro n
    simp only [names, EditMode.onCreate, List.map_append, List.map_cons, List.map_nil,
      List.count_append, List.count_cons, List.count_nil]
    omega)
  refine
    { count := h.count
      slots := h.slots
      atEnd := by rw [hsaved]; exact h.atEnd
      editors := ?_
      saved := by rw [hsaved]; exact h.saved
      named := hnames.1
      nodup := hnames.2 }
  intro e he
  rcases List.mem_append.mp he with he | he
  · exact h.editors e he
  · rw [List.mem_singleton.mp he]
    exact EditMode.adding_onCreate _ _ _

theorem Consistent.saveAdd {k : Nat} {s1 s2 s3 : Text} {e e' : EditMode} {d : Device}
    (h : Consistent s) (hsafe : s.Safe (.saveAdd k s1 s2 s3)) (hk : s.adds[k]? = some e)
    (hadding : e'.Adding) (hsave : e'.isSave = true) (hi : e'.i = e.i)
    (hname : e'.mName = e.mName) (hd : d.sp = putSlot s.app.dev.sp e.i e.mName) :
    Consistent { s with app := { s.app with dev := d }, adds := s.adds.set k e' } := by
  obtain ⟨a, b, hl, -, hset⟩ := exists_around hk
  have hei : e.i = s.app.i := hsafe.2 e hk
  have hnone := hsafe.1
  rw [System.saved, hl, List.filter_append, List.append_eq_nil_iff, List.filter_cons] at hnone
  have hsaved : System.saved
      { s with app := { s.app with dev := d }, adds := s.adds.set k e' } = [e'] := by
    rw [System.saved, hset, List.filter_append, List.filter_cons, if_pos hsave, hnone.1]
    have hb : b.filter (·.isSave) = [] := by
      have hb := hnone.2
      split at hb
      · cases hb
      · exact hb
    rw [hb, List.nil_append]
  have hnames := h.of_perm_names (t :=
    { s with app := { s.app with dev := d }, adds := s.adds.set k e' }) (by
    rw [names, names, hset, hl, List.map_append, List.map_append, List.map_cons, List.map_cons,
      hname])
  refine
    { count := h.count
      slots := ?_
      atEnd := Or.inr (Or.inr (by rw [hsaved]; simp))
      editors := ?_
      saved := Or.inr ⟨e', hsaved, hi.trans hei, ?_⟩
      named := hnames.1
      nodup := hnames.2 }
  · show ListsBut d.sp s.app.mData
    have hput := h.slots.putSlot e.mName
    rwa [← h.count, ← hei, ← hd] at hput
  · intro f hf
    rcases List.mem_or_eq_of_mem_set hf with hf | rfl
    · exact h.editors f hf
    · exact hadding
  · show slot d.sp s.app.i = e'.mName
    rw [hd, hei, slot_putSlot, if_pos rfl, hname]

/-- The saved editors, around one of the editors. -/
theorem saved_around {a b : List EditMode} {e : EditMode} (h : s.adds = a ++ e :: b) :
    s.saved = a.filter (·.isSave) ++ (if e.isSave then [e] else []) ++ b.filter (·.isSave) := by
  rw [System.saved, h, List.filter_append, List.filter_cons]
  split
  · simp
  · simp

/-- A saved editor is the only one. -/
theorem Consistent.saved_only {a b : List EditMode} {e : EditMode} (h : Consistent s)
    (hl : s.adds = a ++ e :: b) (hsave : e.isSave = true) :
    a.filter (·.isSave) = [] ∧ b.filter (·.isSave) = [] ∧
      slot s.app.dev.sp s.app.i = e.mName := by
  have hall := saved_around hl
  rw [hsave] at hall
  rcases h.saved with hnil | ⟨f, hf, -, hslot⟩
  · rw [hall] at hnil
    simp at hnil
  · rw [hall] at hf
    have hlen := congrArg List.length hf
    simp only [if_true, List.length_append, List.length_cons, List.length_nil] at hlen
    have ha : a.filter (·.isSave) = [] := List.eq_nil_of_length_eq_zero (by omega)
    have hb : b.filter (·.isSave) = [] := List.eq_nil_of_length_eq_zero (by omega)
    rw [ha, hb] at hf
    simp only [if_true, List.nil_append, List.append_nil, List.cons.injEq, and_true] at hf
    exact ⟨ha, hb, hf ▸ hslot⟩

theorem Consistent.addResult {k : Nat} {e : EditMode} (h : Consistent s)
    (hk : s.adds[k]? = some e) :
    Consistent { s with app := s.app.onActivityResult e.close, adds := s.adds.eraseIdx k } := by
  obtain ⟨a, b, hl, herase, -⟩ := exists_around hk
  have heditors : ∀ f ∈ s.adds.eraseIdx k, f.Adding := fun f hf =>
    h.editors f ((List.eraseIdx_sublist _ _).mem hf)
  have hadding : e.Adding := h.editors e (List.mem_of_getElem? hk)
  have hleft : System.saved
      { s with app := s.app.onActivityResult e.close, adds := s.adds.eraseIdx k } =
      a.filter (·.isSave) ++ b.filter (·.isSave) := by
    rw [System.saved, herase, List.filter_append]
  rw [hadding.onActivityResult] at hleft ⊢
  cases hsave : e.isSave with
  | false =>
      rw [hsave] at hleft
      have hsaved := hleft.trans (by simpa [hsave] using (saved_around hl).symm)
      have hnames := h.of_sublist_names (t := { s with adds := s.adds.eraseIdx k })
        (((List.eraseIdx_sublist s.adds k).map (·.mName)).append_left _ |>.append_left _)
      exact
        { count := h.count
          slots := h.slots
          atEnd := by rw [hsaved]; exact h.atEnd
          editors := heditors
          saved := by rw [hsaved]; exact h.saved
          named := hnames.1
          nodup := hnames.2 }
  | true =>
      rw [hsave] at hleft
      obtain ⟨ha, hb, hslot⟩ := h.saved_only hl hsave
      have hgrow : Lists s.app.dev.sp (s.app.mData ++ [e.mName]) := by
        have hgrow := h.slots.grow
        rwa [← h.count, hslot] at hgrow
      have hnames := h.of_perm_names (t :=
        { s with
          app := { s.app with i := s.app.i + 1, mData := s.app.mData ++ [e.mName] }
          adds := s.adds.eraseIdx k }) (by
        rw [List.perm_iff_count]
        intro n
        simp only [names, herase]
        simp only [hl, List.map_append, List.map_cons, List.count_append, List.count_cons,
          List.count_nil]
        omega)
      exact
        { count := by simp [h.count]
          slots := hgrow.but
          atEnd := Or.inl (hgrow.slot_end (by simp [h.count]))
          editors := heditors
          saved := Or.inl (by rw [hleft, ha, hb]; rfl)
          named := hnames.1
          nodup := hnames.2 }

theorem Consistent.delete {k : Nat} {title : Text} (h : Consistent s)
    (hsafe : s.Safe (.delete k)) (hk : s.app.mData[k]? = some title) :
    Consistent
      { s with app := (MainActivity.deleteMode env
          { s.app with nowI := k, nowName := title }).2 } := by
  obtain ⟨hend, hkey⟩ := hsafe
  obtain ⟨hlt, -⟩ := List.getElem?_eq_some_iff.mp hk
  have hlists : Lists s.app.dev.sp s.app.mData := h.slots.lists (by rw [← h.count]; exact hend)
  have hdel : Lists (MainActivity.deleteSlots s.app.dev.sp s.app.i k) (s.app.mData.eraseIdx k) := by
    rw [hlists.slot_eq hlt, h.count] at hkey
    rw [h.count]
    exact hlists.deleteSlots hlt hkey
  have hcount : s.app.i - 1 = (s.app.mData.eraseIdx k).length := by
    rw [List.length_eraseIdx_of_lt hlt, h.count]
  have hnames := h.of_sublist_names (t :=
    { s with app := (MainActivity.deleteMode env { s.app with nowI := k, nowName := title }).2 })
    ((List.eraseIdx_sublist s.app.mData k).append_right _)
  have hnone : s.saved = [] := by
    rcases h.saved with hnil | ⟨e, he, -, hslot⟩
    · exact hnil
    · have hmem : e ∈ s.adds := (List.mem_filter.mp (he ▸ List.mem_singleton_self e)).1
      refine absurd (hslot.symm.trans hend) (h.named _ ?_)
      exact List.mem_append_right _ (List.mem_append_right _ (List.mem_map_of_mem hmem))
  exact
    { count := hcount
      slots := hdel.but
      atEnd := Or.inl (hdel.slot_end (Nat.le_of_eq hcount.symm))
      editors := h.editors
      saved := Or.inl hnone
      named := hnames.1
      nodup := hnames.2 }

theorem Consistent.step (s : System) (e : Event) (t : System) (h : Consistent s)
    (hsafe : s.Safe e) (hstep : System.step env s e = some t) : Consistent t := by
  cases step_cases hstep with
  | beginImport dir m name fs hname hmk ht =>
      rw [ht]
      exact h.beginImport hsafe hname
  | finishImport k task job d hk hd ht =>
      rw [ht]
      refine h.finishImport hsafe hk ?_
      rw [hd, HPStart.sp_doInBackground]
  | openAdd name hne hfree ht =>
      rw [ht]
      exact h.openAdd hsafe hne
  | saveAdd k s1 s2 s3 e hk hsave hcont ht =>
      obtain ⟨hadding, fs, -, hd⟩ :=
        (h.editors e (List.mem_of_getElem? hk)).pressSave hsave hcont
      rw [ht]
      refine h.saveAdd hsafe hk hadding rfl rfl rfl ?_
      rw [HPStart.sp_doInBackground, hd]
  | addResult k e hk ht =>
      rw [ht]
      exact h.addResult hk
  | delete k title hk ht =>
      rw [ht]
      exact h.delete hsafe hk

/-- A main screen that fits its slots, with nothing begun. -/
theorem Consistent.of_lists {a : MainActivity} (hcount : a.i = a.mData.length)
    (hlists : Lists a.dev.sp a.mData) (hne : ∀ n ∈ a.mData, n ≠ []) (hnodup : a.mData.Nodup) :
    Consistent { app := a } where
  count := hcount
  slots := hlists.but
  atEnd := Or.inl (hlists.slot_end (Nat.le_of_eq hcount.symm))
  editors := fun e he => by cases he
  saved := Or.inl rfl
  named := by simpa [names] using hne
  nodup := by simpa [names] using hnodup

/-- In every run of safe steps, once nothing is pending the names read back are
the titles, each once. -/
theorem readBack_eq_titles_of_safe {a : MainActivity} {es : List Event}
    (hcount : a.i = a.mData.length) (hlists : Lists a.dev.sp a.mData)
    (hne : ∀ n ∈ a.mData, n ≠ []) (hnodup : a.mData.Nodup)
    (hsafe : Run.Along (System.step env) Safe { app := a } es)
    (hrun : Run.run (System.step env) { app := a } es = some t)
    (himports : t.imports = []) (hadds : t.adds = []) :
    readBack t.app.dev.sp = t.app.mData ∧ t.app.mData.Nodup := by
  have h : Consistent t :=
    Run.run_invariant_of Consistent.step es (.of_lists hcount hlists hne hnodup) hsafe hrun
  have hmem : ∀ n ∈ t.app.mData, n ∈ t.names := fun n hn => List.mem_append_left _ hn
  refine ⟨(h.lists himports hadds).readBack_eq fun n hn => h.named n (hmem n hn), ?_⟩
  exact h.nodup.sublist (List.sublist_append_left _ _)

/-- An object with empty parts. -/
def emptyMhp (name : Text) : MHP := ⟨some name, some [], some [], some []⟩

/-- A mode is added, then another one imported. -/
theorem readBack_eq_titles_add_import :
    ∃ t, Run.run (System.step .plain) { app := .blank .bare }
        [.openAdd "y", .saveAdd 0 [] [] [], .addResult 0, .beginImport none (emptyMhp "x"),
          .finishImport 0] = some t ∧
      t.app.mData = [("y" : Text), ("x" : Text)] ∧
      readBack t.app.dev.sp = t.app.mData ∧ t.app.mData.Nodup := by
  refine ⟨_, rfl, by decide, ?_⟩
  refine @readBack_eq_titles_of_safe .plain _ (.blank .bare)
    [.openAdd "y", .saveAdd 0 [] [] [], .addResult 0, .beginImport none (emptyMhp "x"),
      .finishImport 0] rfl (fun _ => rfl) (by decide) (by decide) ?_ rfl rfl rfl
  refine Run.along_cons rfl (List.not_mem_nil) <| Run.along_cons rfl ?_ <|
    Run.along_cons rfl trivial <| Run.along_cons rfl ?_ <| Run.along_cons rfl rfl trivial
  · exact ⟨rfl, fun e he => by cases he; rfl⟩
  · exact ⟨rfl, fun n hn => by cases hn; decide⟩

/-- An import that ends while an editor is open is lost, and one during which a
mode is deleted is stored twice. -/
theorem readBack_ne_titles :
    (∃ t, Run.run (System.step .plain) { app := .blank .bare }
        [.beginImport none (emptyMhp "x"), .openAdd "y", .finishImport 0, .saveAdd 0 [] [] [],
          .addResult 0] = some t ∧
      t.imports.isEmpty ∧ t.adds.isEmpty ∧ t.app.mData = [("x" : Text), ("y" : Text)] ∧
      readBack t.app.dev.sp = [("y" : Text)]) ∧
    (∃ t, Run.run (System.step .plain) { app := .blank .bare }
        [.openAdd "y", .saveAdd 0 [] [] [], .addResult 0, .beginImport none (emptyMhp "x"),
          .delete 0, .finishImport 0] = some t ∧
      t.imports.isEmpty ∧ t.adds.isEmpty ∧ t.app.mData = [("x" : Text)] ∧
      readBack t.app.dev.sp = [("x" : Text), ("x" : Text)]) := by
  refine ⟨⟨_, rfl, ?_⟩, ⟨_, rfl, ?_⟩⟩
  · decide +kernel
  · decide +kernel

end System

end HapAndroid
