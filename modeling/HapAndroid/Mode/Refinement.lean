import Mathlib.Data.List.Forall2
import Mathlib.Data.List.Nodup
import HapAndroid.Mode.Interleaving

/-!
# The list of modes refines a list of names

For a user the application keeps a list of names.  `Op` lists the operations,
each run to its end, and `Op.apply` says what each does to a list.  `complete`
performs them with the handlers, the tasks and the editor.

`Shows` relates the main screen to a list: the slots hold it, the counter is its
length, and each title is the name or the name with the mark for missing files.
Every operation keeps this relation, for names that are no preference keys: the
delete dialog uses the name of the mode as a key, and a start that finds a text
where it reads a number or a flag throws.  The titles are exactly the names as long as
the files of each mode stay where they are (`Backed`).  That holds for names that
are directory entries.  A name with a slash can put a mode inside the directory of
another one, and renaming the outer one moves the inner one's files away.
-/

namespace HapAndroid

/-- An operation on the list of modes. -/
inductive Op where
  | add (name s1 s2 s3 : Text)
  | importMode (dir : Option Text) (name : Text) (connection get post : Option Text)
  | rename (k : Nat) (name : Text)
  | delete (k : Nat)
  | restart

namespace Op

/-- The name an operation brings into the list. -/
def newName : Op → Option Text
  | .add name _ _ _ => some name
  | .importMode _ name _ _ _ => some name
  | .rename _ name => some name
  | .delete _ => none
  | .restart => none

/-- What an operation does to a list of names. -/
def apply (l : List Text) : Op → List Text
  | .add name _ _ _ => l ++ [name]
  | .importMode _ name _ _ _ => l ++ [name]
  | .rename k name => l.set k name
  | .delete k => l.eraseIdx k
  | .restart => if l = [] then [defaultMode] else l

end Op

namespace MainActivity

variable (env : Env)

/-- The three parts of a mode can be read. -/
def hasParts (fs : Files) (name : Text) : Bool :=
  parts.all fun part => FileTool.readable fs (partFile env.filePath name part)

/-- Rename the clicked mode in the editor and go back. -/
def renameMode (a : MainActivity) (k : Nat) (name : Text) : Option MainActivity :=
  match a.onChildClick k with
  | none => none
  | some a =>
      let p := (a.openEdit env).pressRename env.st a.dev name
      if p.1.isRename then some (onActivityResult { a with dev := p.2.1 } p.1.close) else none

/-- Perform an operation to its end, with its file operations succeeding. -/
def complete (a : MainActivity) : Op → Option MainActivity
  | .add name s1 s2 s3 =>
      match Run.run (System.step env) { app := a }
        [.openAdd name, .saveAdd 0 s1 s2 s3, .addResult 0] with
      | some s => if hasParts env s.app.dev.fs name then some s.app else none
      | none => none
  | .importMode dir name connection get post =>
      match Run.run (System.step env) { app := a }
        [.beginImport dir ⟨some name, get, post, connection⟩, .finishImport 0] with
      | some s => if hasParts env s.app.dev.fs name then some s.app else none
      | none => none
  | .rename k name => renameMode env a k name
  | .delete k => (System.delete env { app := a } k).map (·.app)
  | .restart =>
      -- The start did not throw, no installer was started, and the default mode could be made
      -- if it was needed.
      if (onCreate env a.dev).crashed = false ∧ (onCreate env a.dev).hstart = false ∧
          (onCreate env a.dev).i ≠ 0 then
        some (onCreate env a.dev)
      else none

/-! ## What the operations do -/

/-- A mode was appended. -/
structure Appended (a a' : MainActivity) (name : Text) : Prop where
  made : ∃ fs, mkdirs env.st a.dev.fs (inDir env.filePath name) = (true, fs) ∧
    ∀ q, fs.node q ≠ none → a'.dev.fs.node q ≠ none
  parts : hasParts env a'.dev.fs name = true
  slots : ∀ k, slot a'.dev.sp k = if k = a.i then name else slot a.dev.sp k
  typed : Typed a.dev.sp → Typed a'.dev.sp
  count : a'.i = a.i + 1
  titles : a'.mData = a.mData ++ [name]

/-- What an operation does to the screen and the device. -/
inductive OpCases (a a' : MainActivity) : Op → Prop where
  | add (name s1 s2 s3 : Text) (h : Appended env a a' name) : OpCases a a' (.add name s1 s2 s3)
  | importMode (dir : Option Text) (name : Text) (connection get post : Option Text)
      (h : Appended env a a' name) : OpCases a a' (.importMode dir name connection get post)
  | rename (k : Nat) (name title : Text) (hk : a.mData[k]? = some title)
      (hfs : renameTo a.dev.fs (inDir env.filePath title) (inDir env.filePath name) =
        some a'.dev.fs)
      (hsp : a'.dev.sp = putSlot a.dev.sp k name) (hi : a'.i = a.i)
      (htitles : a'.mData = a.mData.set k name) : OpCases a a' (.rename k name)
  | delete (k : Nat) (title : Text) (hk : a.mData[k]? = some title)
      (hfs : a'.dev.fs = (FileTool.deleteSDFile a.dev.fs (inDir env.filePath title)).2)
      (hsp : a'.dev.sp = deleteSlots a.dev.sp a.i k) (hi : a'.i = a.i - 1)
      (htitles : a'.mData = a.mData.eraseIdx k) : OpCases a a' (.delete k)
  | restart (ha : a' = onCreate env a.dev) (hinst : (onCreate env a.dev).hstart = false)
      (hi : (onCreate env a.dev).i ≠ 0) : OpCases a a' .restart

variable {env}

theorem add_cases {a : MainActivity} {name s1 s2 s3 : Text} {s : System}
    (h : Run.run (System.step env) { app := a }
      [.openAdd name, .saveAdd 0 s1 s2 s3, .addResult 0] = some s)
    (hparts : hasParts env s.app.dev.fs name = true) : Appended env a s.app name := by
  obtain ⟨s1', h1, h⟩ := Run.run_cons_eq_some.mp h
  obtain ⟨s2', h2, h⟩ := Run.run_cons_eq_some.mp h
  obtain ⟨s3', h3, h⟩ := Run.run_cons_eq_some.mp h
  rw [Run.run_nil, Option.some.injEq] at h
  subst h
  cases System.step_cases h1 with
  | openAdd _ _ _ ht1 =>
    subst ht1
    cases System.step_cases h2 with
    | saveAdd _ _ _ _ e hk hsave hcont ht2 =>
      rw [List.nil_append, List.getElem?_cons_zero, Option.some.injEq] at hk
      subst hk
      obtain ⟨hadding, fs, hmk, hd⟩ :=
        (EditMode.adding_onCreate env.filePath name a.i).pressSave hsave hcont
      subst ht2
      cases System.step_cases h3 with
      | addResult _ e hk ht3 =>
        rw [List.nil_append, List.set_cons_zero, List.getElem?_cons_zero, Option.some.injEq] at hk
        subst hk
        subst ht3
        rw [hadding.onActivityResult] at hparts ⊢
        exact
          { made := by
              refine ⟨fs, hmk, fun q hq => HPStart.doInBackground_keeps _ _ _ _ _ _ ?_⟩
              rw [hd]
              exact hq
            parts := hparts
            slots := by
              intro k
              rw [← slot_putSlot]
              show slot (HPStart.doInBackground _ _ _ _ _ _).1.sp k = _
              rw [HPStart.sp_doInBackground, hd]
              rfl
            typed := by
              intro h
              show Typed (HPStart.doInBackground _ _ _ _ _ _).1.sp
              rw [HPStart.sp_doInBackground, hd]
              exact h.putSlot _ _
            count := rfl
            titles := rfl }

theorem import_cases {a : MainActivity} {dir : Option Text} {name : Text}
    {connection get post : Option Text} {s : System}
    (h : Run.run (System.step env) { app := a }
      [.beginImport dir ⟨some name, get, post, connection⟩, .finishImport 0] = some s)
    (hparts : hasParts env s.app.dev.fs name = true) : Appended env a s.app name := by
  obtain ⟨s1, h1, h⟩ := Run.run_cons_eq_some.mp h
  obtain ⟨s2, h2, h⟩ := Run.run_cons_eq_some.mp h
  rw [Run.run_nil, Option.some.injEq] at h
  subst h
  cases System.step_cases h1 with
  | beginImport _ _ n fs hname hmk ht1 =>
    rw [Option.some.injEq] at hname
    subst hname
    subst ht1
    cases System.step_cases h2 with
    | finishImport _ task job d hk hd ht2 =>
      rw [List.nil_append, List.getElem?_cons_zero, Option.some.injEq, Prod.mk.injEq] at hk
      obtain ⟨rfl, rfl⟩ := hk
      subst ht2
      have hsp := congrArg Device.sp hd
      rw [HPStart.sp_doInBackground] at hsp
      exact
        { made := by
            refine ⟨fs, hmk, fun q hq => ?_⟩
            show d.fs.node q ≠ none
            rw [hd]
            exact HPStart.doInBackground_keeps _ _ _ _ _ _ hq
          parts := hparts
          slots := by
            intro k
            show slot (putSlot d.sp a.i name) k = _
            rw [hsp, slot_putSlot, slot_putSlot, slot_rememberDir]
            split
            · rfl
            · rfl
          typed := by
            intro h
            show Typed (putSlot d.sp a.i name)
            rw [hsp]
            exact ((h.rememberDir dir).putSlot _ _).putSlot _ _
          count := rfl
          titles := rfl }

theorem rename_cases {a a' : MainActivity} {k : Nat} {name : Text}
    (h : renameMode env a k name = some a') : OpCases env a a' (.rename k name) := by
  rw [renameMode, onChildClick] at h
  cases hk : a.mData[k]? with
  | none => simp [hk] at h
  | some title =>
      simp only [hk, Option.map_some] at h
      cases hfs : renameTo a.dev.fs (inDir env.filePath title) (inDir env.filePath name) with
      | some fs =>
          rw [EditMode.pressRename_of_some env.st hfs, if_pos rfl, Option.some.injEq] at h
          subst h
          exact .rename k name title hk hfs rfl rfl rfl
      | none =>
          rw [EditMode.isRename_pressRename_of_none env.st hfs] at h
          cases h

theorem complete_cases {a a' : MainActivity} {op : Op} (h : complete env a op = some a') :
    OpCases env a a' op := by
  cases op with
  | add name s1 s2 s3 =>
      rw [complete] at h
      split at h
      · next s hrun =>
        split at h
        · next hparts =>
          cases h
          exact .add name s1 s2 s3 (add_cases hrun hparts)
        · cases h
      · cases h
  | importMode dir name connection get post =>
      rw [complete] at h
      split at h
      · next s hrun =>
        split at h
        · next hparts =>
          cases h
          exact .importMode dir name connection get post (import_cases hrun hparts)
        · cases h
      · cases h
  | rename k name => exact rename_cases h
  | delete k =>
      rw [complete, Option.map_eq_some_iff] at h
      obtain ⟨s, hs, rfl⟩ := h
      cases System.delete_cases hs with
      | delete _ title hk ht =>
          subst ht
          exact .delete k title hk rfl rfl rfl rfl
  | restart =>
      rw [complete] at h
      split at h
      · next hc => exact .restart (Option.some.inj h).symm hc.2.1 hc.2.2
      · cases h

/-! ## The relation to the list -/

/-- A title is the name, or the name with the mark for missing files. -/
def IsTitle (title name : Text) : Prop := title = name ∨ title = name ++ lostMark

/-- The preference keys of the application, besides those of the slots. -/
def fixedKeys : List Text :=
  ["_start", "_stop", "_status", "have_root", newfixKey, ("install_" : Text) ++ SuperUser.version,
    "isStart", "zq_cft", "zq_cdiy1", "sshell", "IPath", "now_i", "now_name", "localport", "p_ip",
    "p_port", "p_host1", "p_host2", "sh_diy1", "sh_diy2", "sh_diy3", "sh_pstart", "sh_pstatus",
    "sh_pstop"]

/-- A name that is not empty and that the delete dialog does not take for a key. -/
def GoodName (n : Text) : Prop := n ≠ [] ∧ n ∉ fixedKeys ∧ ∀ k, n ≠ modeKey k

/-- The main screen shows a list of names. -/
structure Shows (a : MainActivity) (l : List Text) : Prop where
  slots : Lists a.dev.sp l
  count : a.i = l.length
  titles : List.Forall₂ IsTitle a.mData l
  names : ∀ n ∈ l, GoodName n
  typed : Typed a.dev.sp

theorem goodName_of_head {n : Text} (h : n ≠ [] ∧ n ∉ fixedKeys) (hm : n.head? ≠ some 'm') :
    GoodName n :=
  ⟨h.1, h.2, ne_modeKey hm⟩

theorem goodName_defaultMode : GoodName defaultMode := goodName_of_head (by decide) (by decide)

theorem GoodName.not_mem_typedKeys {n : Text} (h : GoodName n) : n ∉ typedKeys := by
  have hfixed : typedKeys ⊆ fixedKeys := by decide
  exact fun hn => h.2.1 (hfixed hn)

theorem isTitle_titleOf (fs : Files) (filePath n : Text) : IsTitle (titleOf fs filePath n) n := by
  rw [titleOf]
  split
  · exact Or.inl rfl
  · exact Or.inr rfl

theorem forall₂_set {α β : Type} {R : α → β → Prop} {l : List α} {m : List β}
    (h : List.Forall₂ R l m) {x : α} {y : β} (hxy : R x y) (k : Nat) :
    List.Forall₂ R (l.set k x) (m.set k y) := by
  induction h generalizing k with
  | nil => exact .nil
  | cons hd htl ih =>
      cases k with
      | zero => exact .cons hxy htl
      | succ k => exact .cons hd (ih k)

theorem forall₂_eraseIdx {α β : Type} {R : α → β → Prop} {l : List α} {m : List β}
    (h : List.Forall₂ R l m) (k : Nat) : List.Forall₂ R (l.eraseIdx k) (m.eraseIdx k) := by
  induction h generalizing k with
  | nil => exact .nil
  | cons hd htl ih =>
      cases k with
      | zero => exact htl
      | succ k => exact .cons hd (ih k)

theorem Shows.appended {a a' : MainActivity} {l : List Text} {name : Text} (h : Shows a l)
    (hname : GoodName name) (ha : Appended env a a' name) : Shows a' (l ++ [name]) where
  slots := by
    intro k
    rw [ha.slots, h.count, ← slot_putSlot]
    exact h.slots.append name k
  count := by rw [ha.count, h.count, List.length_append, List.length_singleton]
  titles := by
    rw [ha.titles]
    exact List.rel_append h.titles (.cons (Or.inl rfl) .nil)
  names := by
    intro n hn
    rcases List.mem_append.mp hn with hn | hn
    · exact h.names n hn
    · rw [List.mem_singleton.mp hn]
      exact hname
  typed := ha.typed h.typed

theorem Shows.length_of_title {a : MainActivity} {l : List Text} {k : Nat} {title : Text}
    (h : Shows a l) (hk : a.mData[k]? = some title) : k < l.length := by
  rw [← h.titles.length_eq]
  exact (List.getElem?_eq_some_iff.mp hk).1

theorem Shows.renamed {a a' : MainActivity} {l : List Text} {k : Nat} {name : Text} (h : Shows a l)
    (hlt : k < l.length) (hname : GoodName name) (hsp : a'.dev.sp = putSlot a.dev.sp k name)
    (hi : a'.i = a.i) (htitles : a'.mData = a.mData.set k name) : Shows a' (l.set k name) := by
  refine ⟨?_, ?_, ?_, ?_, hsp ▸ h.typed.putSlot k name⟩
  · rw [hsp]
    exact h.slots.set hlt name
  · rw [hi, h.count, List.length_set]
  · rw [htitles]
    exact forall₂_set h.titles (Or.inl rfl) k
  · intro n hn
    rcases List.mem_or_eq_of_mem_set hn with hn | rfl
    · exact h.names n hn
    · exact hname

theorem Shows.deleted {a a' : MainActivity} {l : List Text} {k : Nat} (h : Shows a l)
    (hlt : k < l.length) (hsp : a'.dev.sp = deleteSlots a.dev.sp a.i k) (hi : a'.i = a.i - 1)
    (htitles : a'.mData = a.mData.eraseIdx k) : Shows a' (l.eraseIdx k) := by
  have hname := h.names _ (List.getElem_mem hlt)
  refine ⟨?_, ?_, ?_, ?_, ?_⟩
  · rw [hsp, h.count]
    exact h.slots.deleteSlots hlt (Or.inr fun j _ _ => hname.2.2 j)
  · rw [hi, h.count, List.length_eraseIdx_of_lt hlt]
  · rw [htitles]
    exact forall₂_eraseIdx h.titles k
  · intro n hn
    exact h.names n ((List.eraseIdx_sublist l k).mem hn)
  · rw [hsp]
    exact h.typed.deleteSlots (h.slots.slot_eq hlt ▸ hname.not_mem_typedKeys)

/-- Every operation does to the screen what it does to the list. -/
theorem Shows.complete (a : MainActivity) (op : Op) (a' : MainActivity) (l : List Text)
    (hname : ∀ n, op.newName = some n → GoodName n) (h : Shows a l)
    (hop : complete env a op = some a') : Shows a' (op.apply l) := by
  cases complete_cases hop with
  | add name s1 s2 s3 ha => exact h.appended (hname name rfl) ha
  | importMode dir name connection get post ha => exact h.appended (hname name rfl) ha
  | rename k name title hk hfs hsp hi htitles =>
      exact h.renamed (h.length_of_title hk) (hname name rfl) hsp hi htitles
  | delete k title hk hfs hsp hi htitles =>
      exact h.deleted (h.length_of_title hk) hsp hi htitles
  | restart ha hinst hi =>
      subst ha
      rcases onCreate_cases h.slots (fun n hn => (h.names n hn).1) hinst hi with
        ⟨hne, hdev, hi', htitles⟩ | ⟨rfl, fs, -, hdev, hi', htitles⟩
      · rw [Op.apply, if_neg hne]
        refine ⟨?_, hi', ?_, h.names, by rw [hdev]; exact h.typed⟩
        · rw [hdev]
          exact h.slots
        · rw [htitles, List.forall₂_map_left_iff, List.forall₂_same]
          exact fun n _ => isTitle_titleOf _ _ n
      · rw [Op.apply, if_pos rfl]
        refine ⟨?_, hi', ?_, ?_, by rw [hdev]; exact h.typed.putSlot 0 defaultMode⟩
        · rw [hdev]
          exact h.slots.append defaultMode
        · rw [htitles]
          exact .cons (Or.inl rfl) .nil
        · intro n hn
          rw [List.mem_singleton.mp hn]
          exact goodName_defaultMode

/-! ## Modes with their files -/

/-- Each listed mode has its files in a directory of its own, and the titles are
the names.  The private directory is given by a path name without dots. -/
structure Backed (env : Env) (a : MainActivity) (l : List Text) : Prop where
  straight : Straight env.filePath
  dir : a.dev.fs.node (env.path) = some .dir
  plain : ∀ n ∈ l, PlainName n
  files : ∀ n ∈ l, a.dev.fs.node (env.path ++ [n, getHp]) ≠ none
  nodup : l.Nodup
  titles : a.mData = l

theorem toPath_getHp {fs : Files} {n : Text} (h : PlainName n) (filePath : Text) :
    toPath fs (partFile filePath n getHp) = toPath fs filePath ++ [n, getHp] := by
  rw [toPath_partFile plain_getHp, toPath_inDir h, List.append_assoc]
  rfl

theorem hasParts_getHp {fs : Files} {n : Text} (hs : Straight env.filePath) (hn : PlainName n)
    (h : hasParts env fs n = true) : fs.node (env.path ++ [n, getHp]) ≠ none := by
  rw [hasParts, List.all_eq_true] at h
  obtain ⟨data, hdata⟩ := FileTool.readable_iff.mp (h getHp (by decide))
  rw [toPath_getHp hn, env.toPath_filePath hs] at hdata
  rw [hdata]
  simp

/-- The directory of a mode with files is there. -/
theorem Backed.node_ne_none {a : MainActivity} {l : List Text} (h : Backed env a l) {n : Text}
    (hn : n ∈ l) : a.dev.fs.node (env.path ++ [n]) ≠ none := by
  have hdir := a.dev.fs.dir_of_append (p := env.path ++ [n]) (r := [getHp]) (by simp)
    (by simpa using h.files n hn)
  rw [hdir]
  simp

theorem Backed.appended {a a' : MainActivity} {l : List Text} {name : Text} (h : Backed env a l)
    (hname : PlainName name) (ha : Appended env a a' name) : Backed env a' (l ++ [name]) := by
  obtain ⟨fs, hmk, hkeep⟩ := ha.made
  have hfree := (mkdirs_dir hmk).1
  rw [toPath_inDir hname, env.toPath_filePath h.straight] at hfree
  have hnew : name ∉ l := fun hmem => h.node_ne_none hmem hfree
  have hget := hasParts_getHp h.straight hname ha.parts
  refine ⟨h.straight, a'.dev.fs.dir_of_append (by simp) hget, ?_, ?_, ?_, ?_⟩
  · intro n hn
    rcases List.mem_append.mp hn with hn | hn
    · exact h.plain n hn
    · rwa [List.mem_singleton.mp hn]
  · intro n hn
    rcases List.mem_append.mp hn with hn | hn
    · refine hkeep _ ?_
      rw [mkdirs_keeps hmk (h.files n hn)]
      exact h.files n hn
    · rwa [List.mem_singleton.mp hn]
  · rw [List.nodup_append]
    refine ⟨h.nodup, List.nodup_singleton name, ?_⟩
    rintro n hn m hm rfl
    rw [List.mem_singleton.mp hm] at hn
    exact hnew hn
  · rw [ha.titles, h.titles]

/-- The replaced entry of a list without repetitions is gone. -/
theorem ne_of_mem_set {l : List Text} (hl : l.Nodup) {k : Nat} (hk : k < l.length) {name n : Text}
    (hn : n ∈ l.set k name) (hne : name ≠ n) : l[k] ≠ n := by
  rintro rfl
  obtain ⟨j, hj, hset⟩ := List.mem_iff_getElem.mp hn
  rw [List.length_set] at hj
  rw [List.getElem_set] at hset
  split at hset
  · exact hne hset
  · next hkj => exact hkj ((hl.getElem_inj_iff).mp hset).symm

theorem Backed.renamed {a a' : MainActivity} {l : List Text} {k : Nat} {title name : Text}
    (h : Backed env a l) (hname : PlainName name) (hk : a.mData[k]? = some title)
    (hfs : renameTo a.dev.fs (inDir env.filePath title) (inDir env.filePath name) =
      some a'.dev.fs)
    (htitles : a'.mData = a.mData.set k name) : Backed env a' (l.set k name) := by
  rw [h.titles] at hk htitles
  obtain ⟨hlt, hlk⟩ := List.getElem?_eq_some_iff.mp hk
  have hmem : title ∈ l := List.mem_of_getElem? hk
  rw [renameTo, toPath_inDir hname, toPath_inDir (h.plain title hmem),
    env.toPath_filePath h.straight] at hfs
  by_cases hsame : title = name
  · subst hsame
    have hfs' := (a.dev.fs.rename_self hfs).1
    rw [← hlk, List.set_getElem_self] at htitles ⊢
    exact ⟨h.straight, by rw [hfs']; exact h.dir, h.plain, by rw [hfs']; exact h.files, h.nodup,
      htitles⟩
  · have hne : env.path ++ [title] ≠ env.path ++ [name] := by simpa using hsame
    obtain ⟨-, hempty, -, hnode⟩ := a.dev.fs.node_rename hfs hne
    have hnew : name ∉ l := by
      intro hmem'
      have hnone := a.dev.fs.children_eq_nil_iff.mp hempty getHp
      rw [List.append_assoc] at hnone
      exact h.files name hmem' hnone
    refine ⟨h.straight, ?_, ?_, ?_, h.nodup.set hnew, htitles⟩
    · rw [hnode, FileTree.movedNode, if_neg FileTree.not_concat_prefix,
        if_neg FileTree.not_concat_prefix]
      exact h.dir
    · intro n hn
      rcases List.mem_or_eq_of_mem_set hn with hn | rfl
      · exact h.plain n hn
      · exact hname
    · intro n hn
      rw [hnode, FileTree.movedNode]
      by_cases hnn : name = n
      · -- The moved mode.
        subst hnn
        rw [if_pos (FileTree.concat_prefix_iff.mpr rfl)]
        have hdrop : (env.path ++ [name, getHp]).drop
            (env.path ++ [name]).length = [getHp] := by
          rw [List.length_append, List.drop_append]
          simp
        rw [hdrop, List.append_assoc]
        exact h.files title hmem
      · have hn' : n ∈ l := (List.mem_or_eq_of_mem_set hn).resolve_right (Ne.symm hnn)
        have hother : title ≠ n := hlk ▸ ne_of_mem_set h.nodup hlt hn hnn
        rw [if_neg (fun hp => hnn (FileTree.concat_prefix_iff.mp hp)),
          if_neg (fun hp => hother (FileTree.concat_prefix_iff.mp hp))]
        exact h.files n hn'

theorem Backed.deleted {a a' : MainActivity} {l : List Text} {k : Nat} {title : Text}
    (h : Backed env a l) (hk : a.mData[k]? = some title)
    (hfs : a'.dev.fs = (FileTool.deleteSDFile a.dev.fs (inDir env.filePath title)).2)
    (htitles : a'.mData = a.mData.eraseIdx k) : Backed env a' (l.eraseIdx k) := by
  rw [h.titles] at hk htitles
  obtain ⟨hlt, hlk⟩ := List.getElem?_eq_some_iff.mp hk
  have hpath : toPath a.dev.fs (inDir env.filePath title) =
      toPath a.dev.fs env.filePath ++ [title] :=
    toPath_inDir (h.plain title (List.mem_of_getElem? hk)) env.filePath
  rw [env.toPath_filePath h.straight] at hpath
  refine ⟨h.straight, ?_, ?_, ?_, h.nodup.eraseIdx k, htitles⟩
  · rw [hfs, FileTool.node_deleteSDFile_of_ne]
    · exact h.dir
    · rw [hpath]
      simp
    · intro n
      rw [hpath]
      simp
  · exact fun n hn => h.plain n ((List.eraseIdx_sublist l k).mem hn)
  · intro n hn
    have hother : n ≠ title := by
      rintro rfl
      obtain ⟨j, hj, hjk, hlj⟩ := List.mem_eraseIdx_iff_getElem.mp hn
      rw [← hlk] at hlj
      exact hjk ((h.nodup.getElem_inj_iff).mp hlj)
    rw [hfs, FileTool.node_deleteSDFile_of_ne]
    · exact h.files n ((List.eraseIdx_sublist l k).mem hn)
    · rw [hpath]
      simp
    · intro m
      rw [hpath]
      simp [hother]

theorem Backed.restarted {a : MainActivity} {l : List Text} (h : Backed env a l)
    (hshows : Shows a l) (hinst : (onCreate env a.dev).hstart = false)
    (hi : (onCreate env a.dev).i ≠ 0) : Backed env (onCreate env a.dev) (Op.restart.apply l) := by
  rcases onCreate_cases hshows.slots (fun n hn => (hshows.names n hn).1) hinst hi with
    ⟨hne, hdev, -, htitles⟩ | ⟨rfl, fs, hmade, hdev, -, htitles⟩
  · rw [Op.apply, if_neg hne]
    refine ⟨h.straight, by rw [hdev]; exact h.dir, h.plain, by rw [hdev]; exact h.files, h.nodup,
      ?_⟩
    rw [htitles]
    refine (List.map_congr_left fun n hn => ?_).trans (List.map_id l)
    rw [titleOf, fileExists, toPath_getHp (h.plain n hn), env.toPath_filePath h.straight,
      (a.dev.fs.existsAt_iff).mpr (h.files n hn), if_pos rfl]
    rfl
  · rw [Op.apply, if_pos rfl]
    have hplain : PlainName defaultMode := by decide
    have hget := makeDefault_made hmade
    rw [toPath_getHp hplain, env.toPath_filePath h.straight] at hget
    refine ⟨h.straight, ?_, ?_, ?_, List.nodup_singleton _, htitles⟩
    · rw [hdev]
      exact fs.dir_of_append (by simp) hget
    · intro n hn
      rwa [List.mem_singleton.mp hn]
    · intro n hn
      rw [hdev, List.mem_singleton.mp hn]
      exact hget

theorem Backed.complete (a : MainActivity) (op : Op) (a' : MainActivity) (l : List Text)
    (hname : ∀ n, op.newName = some n → GoodName n ∧ PlainName n)
    (h : Shows a l ∧ Backed env a l) (hop : complete env a op = some a') :
    Shows a' (op.apply l) ∧ Backed env a' (op.apply l) := by
  refine ⟨Shows.complete a op a' l (fun n hn => (hname n hn).1) h.1 hop, ?_⟩
  cases complete_cases hop with
  | add name s1 s2 s3 ha => exact h.2.appended (hname name rfl).2 ha
  | importMode dir name connection get post ha => exact h.2.appended (hname name rfl).2 ha
  | rename k name title hk hfs hsp hi htitles =>
      exact h.2.renamed (hname name rfl).2 hk hfs htitles
  | delete k title hk hfs hsp hi htitles => exact h.2.deleted hk hfs htitles
  | restart ha hinst hi =>
      subst ha
      exact h.2.restarted h.1 hinst hi

theorem shows_blank (fs : Files) : Shows (.blank fs) [] where
  slots := fun _ => rfl
  count := rfl
  titles := .nil
  names := fun n hn => by cases hn
  typed := ⟨nofun, nofun⟩

end MainActivity

end HapAndroid
