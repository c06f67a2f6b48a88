import HapAndroid.Mode.Killed

/-!
# The files of the modes after a kill

No operation writes in the directory of a mode that it is not about, so a kill in the middle of it
leaves the other modes with their files (`mode_survives`).

For the mode that is deleted a kill can be bad in two ways.  The commits of a deletion come before
the removal of the files.  A mode whose deletion is killed in between is out of the list with its
directory in place, and since a name is free only if there is no such directory, no operation gets
the name again (`orphan_stays`).  And a kill between two commits leaves the next mode twice in the
list, with one directory.  Deleting one of the two entries takes the files of both
(`deleting_double_loses`).
-/

namespace HapAndroid

/-- The title of a mode whose files are missing is a directory entry as well. -/
theorem MainActivity.IsTitle.plain {title n : Text} (h : IsTitle title n) (hn : PlainName n) :
    PlainName title := by
  rcases h with rfl | rfl
  · exact hn
  · have hlen : 2 ≤ (n ++ lostMark).length := by
      rw [List.length_append, show lostMark.length = 6 by decide]
      omega
    refine ⟨?_, ?_, ?_, ?_⟩
    · intro heq
      simp [heq] at hlen
    · intro heq
      simp [heq] at hlen
    · intro heq
      have hmark := congrArg (fun s : Text => s.getLast?) heq
      simp [List.getLast?_append, show lostMark.getLast? = some ')' by decide] at hmark
    · intro hmem
      rcases List.mem_append.mp hmem with hmem | hmem
      · exact hn.2.2.2 hmem
      · exact absurd hmem (by decide)

/-- Every title stands for the name at its place. -/
theorem MainActivity.Shows.title {a : MainActivity} {l : List Text} (h : Shows a l) {k : Nat}
    {title : Text} (hk : a.mData[k]? = some title) : ∃ n, l[k]? = some n ∧ IsTitle title n := by
  have hlt := h.length_of_title hk
  have hlt' := (List.getElem?_eq_some_iff.mp hk).1
  have htitle := h.titles.get hlt' hlt
  refine ⟨l[k], List.getElem?_eq_getElem hlt, ?_⟩
  rw [List.getElem?_eq_getElem hlt', Option.some.injEq] at hk
  rw [← hk]
  simpa using htitle

namespace MainActivity

variable {env : Env} {n name : Text} {r : List Text}

/-- The path of a directory entry of a private directory without dots. -/
theorem toPath_entry {fs : Files} (hs : Straight env.filePath) (hname : PlainName name) :
    toPath fs (inDir env.filePath name) = env.path ++ [name] := by
  rw [toPath_inDir hname, env.toPath_filePath hs]

theorem Creates.not_touches {fs : Files} {i : Nat} {w : Write}
    (h : Creates env.filePath fs i name w) (hs : Straight env.filePath) (hname : PlainName name)
    (hne : name ≠ n) : ¬ w.Touches (env.path ++ n :: r) := by
  cases h with
  | dir hp hnone =>
      rintro rfl
      rw [toPath_entry hs hname, List.prefix_append_right_inj, List.cons_prefix_cons] at hp
      exact hne hp.1.symm
  | slot => exact id
  | part hpart data =>
      intro heq
      rw [Write.Touches, toPath_partFile (plain_of_mem_parts _ hpart), toPath_entry hs hname,
        List.append_assoc, List.append_cancel_left_eq, List.singleton_append] at heq
      exact hne (List.cons.inj heq).1.symm

theorem Removes.not_touches {fs : Files} {p : List Text}
    (h : Removes (toPath fs (inDir env.filePath name)) p) (hs : Straight env.filePath)
    (hname : PlainName name) (hne : name ≠ n) :
    ¬ (Write.remove p).Touches (env.path ++ n :: r) := by
  rintro rfl
  rw [toPath_entry hs hname] at h
  have hpre : env.path ++ [name] <+: env.path ++ n :: r := by
    rcases h with h | ⟨m, h⟩
    · rw [h]
    · rw [h]
      exact List.prefix_append _ _
  exact hne (FileTree.concat_prefix_iff.mp hpre)

/-- A directory with something in it cannot be renamed onto. -/
theorem ne_of_renameTo {fs fs' : Files} {title : Text} (hs : Straight env.filePath)
    (hname : PlainName name) (htitle : PlainName title) (hne : title ≠ n)
    (hdir : ∃ m, fs.node (env.path ++ [n, m]) ≠ none)
    (h : renameTo fs (inDir env.filePath title) (inDir env.filePath name) = some fs') :
    name ≠ n := by
  rintro rfl
  obtain ⟨m, hm⟩ := hdir
  rw [renameTo, toPath_entry hs hname, toPath_entry hs htitle] at h
  have hdiff : env.path ++ [title] ≠ env.path ++ [name] := by simpa using hne
  have hempty := (fs.node_rename h hdiff).2.1
  have hnone := fs.children_eq_nil_iff.mp hempty m
  rw [List.append_assoc] at hnone
  exact hm hnone

theorem newName_of_created {o : Op} (h : created o = some name) : o.newName = some name := by
  cases o with
  | add => exact h
  | importMode => exact h
  | _ => cases h

/-- An operation that is about other modes. -/
structure Avoids (env : Env) (n : Text) (a : MainActivity) (o : Op) : Prop where
  straight : Straight env.filePath
  plain : ∀ m, o.newName = some m → PlainName m
  titles : ∀ k title, o.target = some k → a.mData[k]? = some title →
    PlainName title ∧ title ≠ n
  dir : ∃ m, a.dev.fs.node (env.path ++ [n, m]) ≠ none
  default : o = .restart → readBack a.dev.sp = [] → n ≠ defaultMode

/-- The directory is there. -/
theorem Avoids.node_ne_none {a : MainActivity} {o : Op} (h : Avoids env n a o) :
    a.dev.fs.node (env.path ++ [n]) ≠ none := by
  obtain ⟨m, hm⟩ := h.dir
  refine a.dev.fs.exists_of_append (r := [m]) ?_
  rwa [List.append_assoc]

/-- A mode that is made has another name. -/
theorem Avoids.ne_of_free {a : MainActivity} {o : Op} (h : Avoids env n a o)
    (hname : PlainName name)
    (hfree : a.dev.fs.node (toPath a.dev.fs (inDir env.filePath name)) = none) : name ≠ n := by
  rintro rfl
  rw [toPath_entry h.straight hname] at hfree
  exact h.node_ne_none hfree

/-- It writes nothing in the directory of the mode. -/
theorem Avoids.not_touches {a : MainActivity} {o : Op} {w : Write} (h : Avoids env n a o)
    (hw : OpWrite env a o w) : ¬ w.Touches (env.path ++ n :: r) := by
  cases hw with
  | path => exact id
  | create ho hfree hcreate =>
      have hname := h.plain _ (newName_of_created ho)
      exact hcreate.not_touches h.straight hname (h.ne_of_free hname hfree)
  | @rename k name title fs _ hk hfs hw =>
      obtain ⟨htitle, hne⟩ := h.titles k title rfl hk
      have hname := h.plain name rfl
      have hne' := ne_of_renameTo h.straight hname htitle hne h.dir hfs
      rcases hw with rfl | rfl
      · rw [Write.Touches, toPath_entry h.straight hname, toPath_entry h.straight htitle,
          FileTree.concat_prefix_iff, FileTree.concat_prefix_iff]
        exact not_or.mpr ⟨hne, hne'⟩
      · exact id
  | unlist => exact id
  | @remove k title p hk hp =>
      obtain ⟨htitle, hne⟩ := h.titles k title rfl hk
      exact hp.not_touches h.straight htitle hne
  | install => exact id
  | clear hnone hp => exact hp.not_touches h.straight (by decide) (h.default rfl hnone).symm
  | default hnone hcreate =>
      exact hcreate.not_touches h.straight (by decide) (h.default rfl hnone).symm

/-- A name that is taken is put into no slot. -/
theorem Avoids.key_ne {a : MainActivity} {o : Op} {key value : Text} (h : Avoids env n a o)
    (ho : o.newName = some n) (hw : OpWrite env a o (.commit key value)) :
    ∀ k, key ≠ modeKey k := by
  cases hw with
  | path hkey => exact hkey.1
  | create hcreated hfree hcreate =>
      cases ho.symm.trans (newName_of_created hcreated)
      exact absurd rfl (h.ne_of_free (h.plain n ho) hfree)
  | @rename k name title fs _ hk hfs hw =>
      cases ho
      obtain ⟨htitle, hne⟩ := h.titles k title rfl hk
      exact absurd rfl (ne_of_renameTo h.straight (h.plain n rfl) htitle hne h.dir hfs)
  | unlist => cases ho
  | install hkey => exact hkey.1
  | default => cases ho

/-- An operation that wants the name is refused. -/
theorem Avoids.complete_eq_none {a : MainActivity} {o : Op} (h : Avoids env n a o)
    (ho : o.newName = some n) : complete env a o = none := by
  cases hc : complete env a o with
  | none => rfl
  | some a' =>
      have happended : ¬ Appended env a a' n := by
        intro ha
        obtain ⟨fs, hmk, -⟩ := ha.made
        exact h.ne_of_free (h.plain n ho) (mkdirs_dir hmk).1 rfl
      cases complete_cases hc with
      | add name s1 s2 s3 ha =>
          cases ho
          exact absurd ha happended
      | importMode dir name connection get post ha =>
          cases ho
          exact absurd ha happended
      | rename k name title hk hfs =>
          cases ho
          obtain ⟨htitle, hne⟩ := h.titles k title rfl hk
          exact absurd rfl (ne_of_renameTo h.straight (h.plain n rfl) htitle hne h.dir hfs)
      | delete => cases ho
      | restart => cases ho

end MainActivity

namespace Process

open MainActivity (isRestart writes complete GoodName Shows Avoids)

variable {env : Env} {n : Text}

/-- Where no write of its operation goes, an event changes nothing. -/
theorem node_step {s t : Process} {e : Life} (h : s.step env e = some t) {q : List Text}
    (hw : ∀ w ∈ writes env s.app e.of, ¬ w.Touches q) :
    t.app.dev.fs.node q = s.app.dev.fs.node q := by
  cases e with
  | op o =>
      rw [step] at h
      split at h
      · obtain ⟨a, ha, rfl⟩ := Option.map_eq_some_iff.mp h
        show a.dev.fs.node q = _
        rw [← MainActivity.complete_writes ha]
        exact Device.node_perform hw s.app.dev
      · cases h
  | kill o k torn =>
      rw [step] at h
      split at h
      · cases h
        refine Device.node_perform (fun w hmem => ?_) s.app.dev
        rcases Durable.mem_cut hmem with hmem | ⟨v, hv, m, htear⟩
        · exact hw w hmem
        · exact fun htouch => hw v hv (Write.touches_of_tear htear htouch)
      · cases h

theorem alive_of_step {s t : Process} {e : Life} (h : s.step env e = some t)
    (he : isRestart e.of = false) : s.alive = true := by
  cases e with
  | op o =>
      rw [step] at h
      split at h
      · next hcan => simpa [show isRestart o = false from he] using hcan
      · cases h
  | kill o k torn =>
      rw [step] at h
      split at h
      · next hcan => simpa [show isRestart o = false from he] using hcan
      · cases h

/-- The list holds names of directory entries. -/
structure HoldsPlain (s : Process) (l : List Text) : Prop extends s.Holds l where
  plain : ∀ m ∈ l, PlainName m

/-- An event with new names that are good. -/
def Names (e : Life) : Prop := ∀ m, e.of.newName = some m → GoodName m ∧ PlainName m

theorem HoldsPlain.of_step {s t : Process} {e : Life} {l : List Text} (hname : Names e)
    (h : s.HoldsPlain l) (hstep : s.step env e = some t) :
    ∃ l', e.Leads l l' ∧ t.HoldsPlain l' := by
  obtain ⟨l', hl', ht⟩ := h.toHolds.of_step (fun m hm => (hname m hm).1) hstep
  refine ⟨l', hl', ht, fun m hm => ?_⟩
  have hmem : m ∈ l ∨ e.of.newName = some m ∨ l = [] ∧ e.of = .restart ∧ m = defaultMode := by
    cases e with
    | op o =>
        cases hl'
        exact Op.mem_of_mem_apply hm
    | kill o k torn => exact hl'.mem hm
  rcases hmem with hm | hm | ⟨-, -, rfl⟩
  · exact h.plain m hm
  · exact (hname m hm).2
  · decide

theorem target_of_isRestart {o : Op} {k : Nat} (h : o.target = some k) : isRestart o = false := by
  cases o with
  | restart => cases h
  | _ => rfl

theorem HoldsPlain.avoids {s t : Process} {e : Life} {l : List Text} (h : s.HoldsPlain l)
    (hpath : Straight env.filePath) (hname : Names e) (hstep : s.step env e = some t)
    (htitles : ∀ k, e.of.target = some k → s.app.mData[k]? ≠ some n)
    (hdir : ∃ m, s.app.dev.fs.node (env.path ++ [n, m]) ≠ none)
    (hdefault : l = [] → n ≠ defaultMode) : Avoids env n s.app e.of where
  straight := hpath
  plain := fun m hm => (hname m hm).2
  titles := by
    intro k title hk htitle
    have hshows := h.shown (alive_of_step hstep (target_of_isRestart hk))
    obtain ⟨m, hm, hmark⟩ := hshows.title htitle
    refine ⟨hmark.plain (h.plain m (List.mem_of_getElem? hm)), ?_⟩
    rintro rfl
    exact htitles k hk htitle
  dir := hdir
  default := fun _ hnone => hdefault (h.readBack_eq.symm.trans hnone)

/-- A private directory with two modes. -/
def twoModeFiles : Files :=
  ((((FileTree.ofDirs [[("d" : Text), ("a" : Text)], [("d" : Text), ("b" : Text)]] :
    Files).writeFile [("d" : Text), SuperUser.version] []).bind
    (·.writeFile [("d" : Text), ("a" : Text), getHp] [])).bind
    (·.writeFile [("d" : Text), ("b" : Text), getHp] [])).getD .bare

/-- The application with two modes. -/
def twoModes : Process :=
  ⟨true, { MainActivity.blank twoModeFiles with
    dev := ⟨twoModeFiles, putSlot (putSlot .empty 0 "a") 1 "b"⟩
    i := 2
    mData := [("a" : Text), ("b" : Text)] }⟩

theorem holds_twoModes : twoModes.HoldsPlain [("a" : Text), ("b" : Text)] := by
  have hnames : ∀ n ∈ [("a" : Text), ("b" : Text)], GoodName n ∧ PlainName n := by
    intro n hn
    simp only [List.mem_cons, List.not_mem_nil, or_false] at hn
    rcases hn with rfl | rfl
    · exact ⟨MainActivity.goodName_of_head (by decide) (by decide), by decide⟩
    · exact ⟨MainActivity.goodName_of_head (by decide) (by decide), by decide⟩
  have hempty : Lists Prefs.empty [] := fun _ => rfl
  have hslots : Lists twoModes.app.dev.sp [("a" : Text), ("b" : Text)] :=
    (hempty.append "a").append "b"
  have htyped : MainActivity.Typed twoModes.app.dev.sp :=
    ((MainActivity.shows_blank .bare).typed.putSlot 0 "a").putSlot 1 "b"
  refine ⟨⟨hslots, fun n hn => (hnames n hn).1, htyped, fun _ => ⟨hslots, rfl, ?_, ?_, htyped⟩⟩,
    fun n hn => (hnames n hn).2⟩
  · exact .cons (.inl rfl) (.cons (.inl rfl) .nil)
  · exact fun n hn => (hnames n hn).1

/-- A name that is not in the list and cannot be mistaken for a marked one, with a directory that
is not empty. -/
structure Orphan (env : Env) (n : Text) (s : Process) (l : List Text) : Prop
    extends s.HoldsPlain l where
  unlisted : n ∉ l
  unmarked : ¬ lostMark <:+ n
  notDefault : n ≠ defaultMode
  straight : Straight env.filePath
  dir : ∃ m, s.app.dev.fs.node (env.path ++ [n, m]) ≠ none

theorem Orphan.title_ne {s : Process} {l : List Text} (h : Orphan env n s l)
    (halive : s.alive = true) (k : Nat) : s.app.mData[k]? ≠ some n := by
  intro hk
  obtain ⟨m, hm, htitle⟩ := (h.shown halive).title hk
  rcases htitle with rfl | rfl
  · exact h.unlisted (List.mem_of_getElem? hm)
  · exact h.unmarked (List.suffix_append m lostMark)

theorem Orphan.avoids {s t : Process} {e : Life} {l : List Text} (h : Orphan env n s l)
    (hname : Names e) (hstep : s.step env e = some t) : Avoids env n s.app e.of :=
  h.toHoldsPlain.avoids h.straight hname hstep
    (fun k hk => h.title_ne (alive_of_step hstep (target_of_isRestart hk)) k) h.dir
    fun _ => h.notDefault

/-- An operation that wants the name does not come to its end. -/
theorem Orphan.refuses {s : Process} {l : List Text} (h : Orphan env n s l) {o : Op}
    (hname : Names (.op o)) (ho : o.newName = some n) : s.step env (.op o) = none := by
  cases hstep : s.step env (.op o) with
  | none => rfl
  | some t =>
      have hnone : complete env s.app o = none := (h.avoids hname hstep).complete_eq_none ho
      rw [step, hnone] at hstep
      split at hstep <;> cases hstep

/-- A killed operation that wants the name leaves the list. -/
theorem Orphan.lists_refused {s : Process} {l : List Text} (h : Orphan env n s l) {o : Op}
    (havoids : Avoids env n s.app o) (ho : o.newName = some n) (k : Nat) (torn : Option Nat) :
    Lists (s.app.dev.perform (Durable.cut Write.tear (writes env s.app o) k torn)).sp l := by
  obtain ⟨q, hq⟩ := sp_cut s.app.dev (writes env s.app o) k torn
  rw [hq]
  refine Durable.perform_induction (I := fun sp => Lists sp l) (fun c hc sp hsp => ?_) h.slots
  have hw := MainActivity.opWrite_of_entry (List.mem_of_mem_take hc)
  exact hsp.putString (havoids.key_ne ho hw) c.2

/-- No event brings the name back, or changes what is left in the directory. -/
theorem Orphan.of_step {s t : Process} {e : Life} {l : List Text} (h : Orphan env n s l)
    (hname : Names e) (hstep : s.step env e = some t) :
    (∃ l', Orphan env n t l') ∧
      ∀ r, t.app.dev.fs.node (env.path ++ n :: r) =
        s.app.dev.fs.node (env.path ++ n :: r) := by
  have havoids := h.avoids hname hstep
  have hfiles : ∀ r, t.app.dev.fs.node (env.path ++ n :: r) =
      s.app.dev.fs.node (env.path ++ n :: r) :=
    fun r => node_step hstep fun w hw => havoids.not_touches (MainActivity.opWrite_of_mem hw)
  obtain ⟨m, hm⟩ := h.dir
  have hdir : ∃ m, t.app.dev.fs.node (env.path ++ [n, m]) ≠ none :=
    ⟨m, by rw [hfiles [m]]; exact hm⟩
  refine ⟨?_, hfiles⟩
  by_cases hwants : e.of.newName = some n
  · cases e with
    | op o => cases (h.refuses hname hwants).symm.trans hstep
    | kill o k torn =>
        rw [step] at hstep
        split at hstep
        · cases hstep
          exact ⟨l, ⟨⟨⟨h.lists_refused havoids hwants k torn, h.names,
            MainActivity.typed_killed h.slots h.names h.typed k torn,
            fun halive => by cases halive⟩, h.plain⟩, h.unlisted, h.unmarked, h.notDefault,
            h.straight, hdir⟩⟩
        · cases hstep
  · obtain ⟨l', hl', ht⟩ := h.toHoldsPlain.of_step hname hstep
    refine ⟨l', ⟨ht, fun hn => ?_, h.unmarked, h.notDefault, h.straight, hdir⟩⟩
    have hmem : n ∈ l ∨ e.of.newName = some n ∨ l = [] ∧ e.of = .restart ∧ n = defaultMode := by
      cases e with
      | op o =>
          cases hl'
          exact Op.mem_of_mem_apply hn
      | kill o k torn => exact hl'.mem hn
    rcases hmem with hmem | hmem | ⟨-, -, hmem⟩
    · exact h.unlisted hmem
    · exact hwants hmem
    · exact h.notDefault hmem

theorem Orphan.of_run {s t : Process} {es : List Life} {l : List Text} (h : Orphan env n s l)
    (hnames : ∀ e ∈ es, Names e) (hrun : Run.run (step env) s es = some t) :
    (∃ l', Orphan env n t l') ∧
      ∀ r, t.app.dev.fs.node (env.path ++ n :: r) =
        s.app.dev.fs.node (env.path ++ n :: r) := by
  induction es generalizing s l with
  | nil =>
      rw [Run.run_nil, Option.some.injEq] at hrun
      subst hrun
      exact ⟨⟨l, h⟩, fun _ => rfl⟩
  | cons e es ih =>
      obtain ⟨u, hu, hrun⟩ := Run.run_cons_eq_some.mp hrun
      obtain ⟨⟨l', hl'⟩, hfiles⟩ := h.of_step (hnames e (List.mem_cons_self ..)) hu
      obtain ⟨hend, hfiles'⟩ := ih hl' (fun f hf => hnames f (List.mem_cons_of_mem _ hf)) hrun
      exact ⟨hend, fun r => (hfiles' r).trans (hfiles r)⟩

/-- A deletion that is killed when all its commits are made has taken the mode out of the list. -/
theorem holds_of_killed_delete {s t : Process} {l : List Text} {k w : Nat} {torn : Option Nat}
    {title : Text} (h : s.HoldsPlain l) (hk : s.app.mData[k]? = some title)
    (hw : (MainActivity.deleteCommits s.app.dev.sp s.app.i k).length ≤ w)
    (hkill : s.step env (.kill (.delete k) w torn) = some t) : t.HoldsPlain (l.eraseIdx k) := by
  have hshows := h.shown (alive_of_step hkill rfl)
  have hlt := hshows.length_of_title hk
  have hsub := (List.eraseIdx_sublist l k).subset
  rw [step] at hkill
  split at hkill
  · cases hkill
    refine ⟨⟨?_, fun m hm => h.names m (hsub hm),
      MainActivity.typed_killed h.slots h.names h.typed w torn, fun halive => by cases halive⟩,
      fun m hm => h.plain m (hsub hm)⟩
    have hwrites : writes env s.app (.delete k) =
        commits (MainActivity.deleteCommits s.app.dev.sp s.app.i k) ++
          FileTool.deleteWrites s.app.dev.fs (inDir env.filePath title) := by
      simp only [writes, hk]
    have hlen : ¬ w < (commits (MainActivity.deleteCommits s.app.dev.sp s.app.i k)).length := by
      rw [commits, List.length_map]
      omega
    -- What is cut off are removals of files, which the preferences do not see.
    have hfiles : ∀ d : Device, (d.perform (Durable.cut Write.tear
        (FileTool.deleteWrites s.app.dev.fs (inDir env.filePath title))
        (w - (commits (MainActivity.deleteCommits s.app.dev.sp s.app.i k)).length) torn)).sp =
          d.sp := by
      intro d
      obtain ⟨q, hq⟩ := sp_cut d (FileTool.deleteWrites s.app.dev.fs (inDir env.filePath title))
        (w - (commits (MainActivity.deleteCommits s.app.dev.sp s.app.i k)).length) torn
      rw [hq, MainActivity.entries_deleteWrites, List.take_nil]
      rfl
    show Lists (s.app.dev.perform _).sp _
    rw [hwrites, Durable.cut_append, if_neg hlen, Device.perform_append, hfiles, perform_commits,
      MainActivity.perform_deleteCommits, hshows.count]
    exact h.slots.deleteSlots hlt (.inr fun j _ _ => (h.names _ (List.getElem_mem hlt)).2.2 j)
  · cases hkill

/-- A mode whose deletion is killed between the commits and the removal of its last file is out of
the list, and no later operation, add, import or rename, can have its name: what is left of its
directory stays. -/
theorem orphan_stays {s u t : Process} {l : List Text} {k w : Nat} {torn : Option Nat}
    {es : List Life} (hpath : Straight env.filePath) (h : s.HoldsPlain l)
    (hk : s.app.mData[k]? = some n)
    (honce : n ∉ l.eraseIdx k) (hmark : ¬ lostMark <:+ n) (hdefault : n ≠ defaultMode)
    (hw : (MainActivity.deleteCommits s.app.dev.sp s.app.i k).length ≤ w)
    (hkill : s.step env (.kill (.delete k) w torn) = some u)
    (hleft : ∃ m, u.app.dev.fs.node (env.path ++ [n, m]) ≠ none)
    (hnames : ∀ e ∈ es, Names e) (hrun : Run.run (step env) u es = some t) :
    n ∉ readBack t.app.dev.sp ∧
      (∀ r, t.app.dev.fs.node (env.path ++ n :: r) =
        u.app.dev.fs.node (env.path ++ n :: r)) ∧
      ∀ o, o.newName = some n → Names (.op o) → t.step env (.op o) = none := by
  have hu : Orphan env n u (l.eraseIdx k) :=
    ⟨holds_of_killed_delete h hk hw hkill, honce, hmark, hdefault, hpath, hleft⟩
  obtain ⟨⟨l', ht⟩, hfiles⟩ := hu.of_run hnames hrun
  exact ⟨ht.readBack_eq ▸ ht.unlisted, hfiles, fun o ho hname => ht.refuses hname ho⟩

/-- The second mode is deleted and the application killed before the first removal. -/
theorem orphan_stays_b : ∃ u t,
    twoModes.step .plain (.kill (.delete 1) 1 none) = some u ∧
    Run.run (step .plain) u [.op .restart] = some t ∧
      ("b" : Text) ∉ readBack t.app.dev.sp ∧
        t.step .plain (.op (.add "b" [] [] [])) = none := by
  have hnames : ∀ e ∈ [Life.op .restart], Names e := by
    intro e he m hm
    rw [List.mem_singleton.mp he] at hm
    cases hm
  obtain ⟨hn, -, hrefused⟩ := @orphan_stays .plain "b" _ _ _ _ 1 1 none _ (by decide)
    holds_twoModes rfl (by decide) (by decide) (by decide) (by decide +kernel) rfl
    ⟨getHp, by decide +kernel⟩ hnames rfl
  refine ⟨_, _, rfl, rfl, hn, hrefused _ rfl fun m hm => ?_⟩
  cases hm
  exact ⟨MainActivity.goodName_of_head (by decide) (by decide), by decide⟩

/-! ## A mode that stands twice in the list -/

/-- The entry that was moved last stands at its old place and before it. -/
theorem getElem?_movedDown {l : List Text} {k m : Nat} (hm : 0 < m) (hkm : k + m < l.length) :
    (movedDown l k m)[k + m]? = l[k + m]? ∧ (movedDown l k m)[k + m - 1]? = l[k + m]? := by
  have hlen : (l.take k ++ (l.drop (k + 1)).take m).length = k + m := by
    rw [List.length_append, List.length_take, List.length_take, List.length_drop]
    omega
  constructor
  · rw [movedDown, List.getElem?_append_right (by omega), hlen, Nat.sub_self, List.getElem?_drop,
      Nat.add_zero]
  · rw [movedDown, List.getElem?_append_left (by omega),
      List.getElem?_append_right (by simp; omega),
      List.length_take, Nat.min_eq_left (by omega), List.getElem?_take_of_lt (by omega),
      List.getElem?_drop]
    congr 1
    omega

/-- A start with modes in the slots reads the list and leaves the device. -/
theorem Holds.restarted {s t : Process} {l : List Text} (h : s.Holds l) (hne : l ≠ [])
    (hstep : s.step env (.op .restart) = some t) :
    t.app.dev = s.app.dev ∧ t.app.mData = l.map (MainActivity.titleOf s.app.dev.fs env.filePath) ∧
      t.Holds l := by
  obtain ⟨l', hl', ht⟩ := h.of_step (fun n hn => by cases hn) hstep
  obtain rfl : l' = l := by
    rw [show l' = Op.apply l .restart from hl', Op.apply, if_neg hne]
  rw [step] at hstep
  split at hstep
  · obtain ⟨a, ha, rfl⟩ := Option.map_eq_some_iff.mp hstep
    cases MainActivity.complete_cases ha with
    | restart hcreate hinst hi =>
        subst hcreate
        rcases MainActivity.onCreate_cases h.slots (fun n hn => (h.names n hn).1) hinst hi with
          ⟨-, hdev, -, htitles⟩ | ⟨hnil, -⟩
        · exact ⟨hdev, htitles, ht⟩
        · exact absurd hnil hne
  · cases hstep

/-- A deletion that comes to its end has removed the directory that the title names. -/
theorem node_of_deleted {s t : Process} {k : Nat} {title : Text} (hk : s.app.mData[k]? = some title)
    (hstep : s.step env (.op (.delete k)) = some t) :
    t.app.dev.fs.node (toPath s.app.dev.fs (inDir env.filePath title)) = none := by
  rw [step] at hstep
  split at hstep
  · obtain ⟨a, ha, rfl⟩ := Option.map_eq_some_iff.mp hstep
    simp only [complete, System.delete, MainActivity.onChildClick, hk, Option.map_some] at ha
    split at ha
    · next hdone =>
      cases ha
      exact FileTool.node_deleteSDFile_of_true hdone
    · cases ha
  · cases hstep

/-- What a deletion that is killed in its loop leaves: nothing but slots has changed. -/
theorem killed_in_loop {s t : Process} {l : List Text} {k m : Nat} (h : s.HoldsPlain l)
    (hm : 0 < m) (hkm : k + m < l.length)
    (hkill : s.step env (.kill (.delete k) (m + 1) none) = some t) :
    t.app.dev.fs = s.app.dev.fs ∧ t.HoldsPlain (movedDown l k m) := by
  have hshows := h.shown (alive_of_step hkill rfl)
  have hlt : k < s.app.mData.length := by
    rw [hshows.titles.length_eq]
    omega
  have hcommits : MainActivity.deleteCommits s.app.dev.sp s.app.i k =
      (slot s.app.dev.sp k, []) :: shiftCommits (s.app.dev.sp.putString (slot s.app.dev.sp k) []) k
        (l.length - k) := by
    rw [MainActivity.deleteCommits, hshows.count, if_pos (by omega)]
  have hcut : Durable.cut Write.tear (writes env s.app (.delete k)) (m + 1) none =
      commits ((MainActivity.deleteCommits s.app.dev.sp s.app.i k).take (m + 1)) := by
    rw [writes, List.getElem?_eq_getElem hlt]
    simp only [Durable.cut, Durable.tornPart, Option.bind_none, Option.toList_none, List.append_nil]
    rw [List.take_append_of_le_length, commits, commits, List.map_take]
    rw [commits, List.length_map, hcommits, List.length_cons, length_shiftCommits]
    omega
  rw [step] at hkill
  split at hkill
  · cases hkill
    rw [hcut, perform_commits]
    have htyped := @MainActivity.typed_killed env s.app _ (.delete k) h.slots h.names h.typed
      (m + 1) none
    rw [hcut, perform_commits] at htyped
    refine ⟨rfl, ⟨?_, fun n hn => h.names n (mem_of_mem_movedDown hn), htyped, fun halive => ?_⟩,
      fun n hn => h.plain n (mem_of_mem_movedDown hn)⟩
    · show Lists (Durable.perform Write.putEntry s.app.dev.sp _) _
      have hslot : ∀ j, slot s.app.dev.sp k ≠ modeKey j := by
        rw [h.slots.slot_eq (by omega : k < l.length)]
        exact (h.names _ (List.getElem_mem _)).2.2
      rw [hcommits, List.take_succ_cons, Durable.perform_cons, Write.putEntry,
        perform_take_shiftCommits, Nat.min_eq_left (by omega)]
      exact (h.slots.putString hslot []).movedDown (by omega) (by omega)
    · cases halive
  · cases hkill

/-- A deletion that is killed in its loop leaves the mode moved last twice in the list, and the
files as they are.  Deleting the second entry deletes the files of the first: after the next start
it is marked as lost. -/
theorem deleting_double_loses {s t : Process} {l : List Text} {k m : Nat}
    (hpath : Straight env.filePath) (h : s.HoldsPlain l) (hm : 0 < m) (hkm : l[k + m]? = some n)
    (hfile : s.app.dev.fs.node (env.path ++ [n, getHp]) ≠ none)
    (hrun : Run.run (step env) s [.kill (.delete k) (m + 1) none, .op .restart,
      .op (.delete (k + m)), .op .restart] = some t) :
    (∃ u, s.step env (.kill (.delete k) (m + 1) none) = some u ∧ u.app.dev.fs = s.app.dev.fs ∧
        (readBack u.app.dev.sp)[k + m - 1]? = some n ∧ (readBack u.app.dev.sp)[k + m]? = some n) ∧
      t.app.mData[k + m - 1]? = some (n ++ lostMark) ∧
      ∀ r, t.app.dev.fs.node (env.path ++ n :: r) = none := by
  obtain ⟨hlt, -⟩ := List.getElem?_eq_some_iff.mp hkm
  have hplain := h.plain n (List.mem_of_getElem? hkm)
  obtain ⟨hsecond, hfirst⟩ := getElem?_movedDown hm hlt
  rw [hkm] at hsecond hfirst
  obtain ⟨s1, h1, hrun⟩ := Run.run_cons_eq_some.mp hrun
  obtain ⟨s2, h2, hrun⟩ := Run.run_cons_eq_some.mp hrun
  obtain ⟨s3, h3, hrun⟩ := Run.run_cons_eq_some.mp hrun
  obtain ⟨s4, h4, hrun⟩ := Run.run_cons_eq_some.mp hrun
  rw [Run.run_nil, Option.some.injEq] at hrun
  subst hrun
  obtain ⟨hfs1, hs1⟩ := killed_in_loop h hm hlt h1
  obtain ⟨hdev2, htitles2, hs2⟩ :=
    hs1.toHolds.restarted (List.ne_nil_of_mem (List.mem_of_getElem? hfirst)) h2
  -- The files are there, so the title is the name.
  have htitle : s2.app.mData[k + m]? = some n := by
    rw [htitles2, List.getElem?_map, hsecond, Option.map_some, MainActivity.titleOf, fileExists,
      MainActivity.toPath_getHp hplain, env.toPath_filePath hpath,
      (s1.app.dev.fs.existsAt_iff).mpr (hfs1 ▸ hfile), if_pos rfl]
  have hgone := node_of_deleted htitle h3
  rw [MainActivity.toPath_entry hpath hplain] at hgone
  obtain ⟨l3, hl3, hs3⟩ := hs2.of_step (fun _ hn => by cases hn) h3
  obtain rfl : l3 = (movedDown l k m).eraseIdx (k + m) := hl3
  have hleft : ((movedDown l k m).eraseIdx (k + m))[k + m - 1]? = some n := by
    rw [List.getElem?_eraseIdx_of_lt (by omega), hfirst]
  obtain ⟨hdev4, htitles4, -⟩ :=
    hs3.restarted (List.ne_nil_of_mem (List.mem_of_getElem? hleft)) h4
  have hbelow : ∀ r, s3.app.dev.fs.node (env.path ++ n :: r) = none := by
    intro r
    by_contra hr
    refine s3.app.dev.fs.exists_of_append (r := r) ?_ hgone
    rwa [List.append_assoc]
  refine ⟨⟨s1, h1, hfs1, ?_, ?_⟩, ?_, fun r => by rw [hdev4]; exact hbelow r⟩
  · rw [hs1.readBack_eq, hfirst]
  · rw [hs1.readBack_eq, hsecond]
  rw [htitles4, List.getElem?_map, hleft, Option.map_some, MainActivity.titleOf, fileExists,
    MainActivity.toPath_getHp hplain, env.toPath_filePath hpath,
    (s3.app.dev.fs.existsAt_eq_false_iff).mpr (hbelow [getHp]), if_neg (by decide)]

/-- The first of two modes is deleted, the application killed, and the second of the two entries
deleted. -/
theorem deleting_double_loses_b : ∃ t, Run.run (step .plain) twoModes
      [.kill (.delete 0) 2 none, .op .restart, .op (.delete 1), .op .restart] = some t ∧
    t.app.mData[0]? = some (("b" : Text) ++ lostMark) := by
  refine ⟨_, rfl, ?_⟩
  exact (@deleting_double_loses .plain "b" _ _ _ 0 1 (by decide) holds_twoModes (by decide) rfl
    (by decide +kernel) rfl).2.1

end Process

end HapAndroid
