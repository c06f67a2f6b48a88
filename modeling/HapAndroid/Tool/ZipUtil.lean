import HapAndroid.Tool.FileTool

/-!
# `ZipUtil.unZipFiles`

An archive is unpacked by putting the name of each entry behind the name of the target
directory.  The names come from the archive, which is downloaded, and nothing looks for
`..` in them; a `*` is turned into a slash.  `unzip_contained_iff` has the archives that
stay in the target directory.

Where the target directory is not there it is made, with the ones missing above it.  So
are the directories an entry passes, one after the other, and it is not enough that an
entry comes back to the target directory at its end: with `../u/../t/x` the directory `u`
is made beside the target `t`.
-/

namespace HapAndroid.ZipUtil

/-- An entry of an archive. -/
structure Entry where
  name : Text
  data : List UInt8
deriving DecidableEq

/-- `(descDir + zipEntryName).replaceAll("\\*", "/")`. -/
def outPath (descDir name : Text) : Text :=
  (descDir ++ name).map fun c => if c = '*' then '/' else c

/-- `s.substring(0, s.lastIndexOf('/'))`.  Without a slash it throws. -/
def beforeLastSlash (s : Text) : Option Text :=
  if '/' ∈ s then some ((s.reverse.dropWhile (· ≠ '/')).drop 1).reverse else none

/-- `if (!file.exists()) file.mkdirs()`, with the answer dropped. -/
def makeMissing (st : Storage) (name : Text) (fs : Files) : Files :=
  if fileExists fs name then fs else (mkdirs st fs name).2

/-- Unpack one entry.  A `false` is an exception. -/
def unZipEntry (st : Storage) (descDir : Text) (e : Entry) (fs : Files) : Bool × Files :=
  match beforeLastSlash (outPath descDir e.name) with
  | none => (false, fs)
  | some parent =>
      let fs1 := makeMissing st parent fs
      if isDirectory fs1 (outPath descDir e.name) then (true, fs1)
      else FileTool.writeBytes st e.data (outPath descDir e.name) fs1

/-- The loop over the entries, up to the first exception. -/
def unZipEntries (st : Storage) (descDir : Text) : List Entry → Files → Files
  | [], fs => fs
  | e :: es, fs =>
      match unZipEntry st descDir e fs with
      | (true, fs') => unZipEntries st descDir es fs'
      | (false, fs') => fs'

/-- `unZipFiles`: the files after it. -/
def unZipFiles (st : Storage) (descDir : Text) (zip : List Entry) (fs : Files) : Files :=
  unZipEntries st descDir zip (makeMissing st descDir fs)

/-! ## The property -/

/-- Everything that changes is in the target directory.  If that is not there, the
directories above it may change too. -/
def Contained (descDir : Text) (zip : List Entry) : Prop :=
  ∀ st fs q, (unZipFiles st descDir zip fs).node q ≠ fs.node q →
    normalise descDir <+: q ∨ fs.node (normalise descDir) ≠ some .dir ∧ q <+: normalise descDir

/-- A path on the way to another, or below it. -/
def OnTheWay (target p : List Text) : Prop := target <+: p ∨ p <+: target

instance (target p : List Text) : Decidable (OnTheWay target p) :=
  inferInstanceAs (Decidable (_ ∨ _))

/-- A path name that passes only directories on the way to the target or below it. -/
def NameInside (target : List Text) (s : Text) : Prop := ∀ p ∈ stops s, OnTheWay target p

/-- An entry that stays on the way with each component of its name. -/
def EntryInside (descDir : Text) (e : Entry) : Prop :=
  NameInside (normalise descDir) (outPath descDir e.name)

theorem OnTheWay.above {target p q : List Text} (h : OnTheWay target p) (hq : q <+: p) :
    OnTheWay target q := by
  rcases h with h | h
  · exact List.prefix_or_prefix_of_prefix h hq
  · exact .inr (hq.trans h)

/-- Only a proper component leaves the way. -/
theorem OnTheWay.follow {target p : List Text} {c : Text} (h : OnTheWay target p)
    (hc : c = [] ∨ IsDot c) : OnTheWay target (follow p c) := by
  rcases hc with rfl | rfl | rfl
  · simpa [HapAndroid.follow] using h
  · simpa [HapAndroid.follow] using h
  · exact h.above (by simpa [HapAndroid.follow] using p.dropLast_prefix)

/-! ## Names -/

theorem beforeLastSlash_eq_some {s p : Text} (h : beforeLastSlash s = some p) :
    ∃ l, s = p ++ '/' :: l ∧ '/' ∉ l := by
  rw [beforeLastSlash] at h
  split at h
  · next hmem =>
    obtain ⟨l, d, hs, hl⟩ := List.eq_append_cons_of_mem (List.mem_reverse.mpr hmem)
    have hdrop : s.reverse.dropWhile (fun c => decide (c ≠ '/')) = '/' :: d := by
      rw [hs, List.dropWhile_append_of_pos, List.dropWhile_cons_of_neg (by simp)]
      intro c hc
      simpa using fun h : c = '/' => hl (h ▸ hc)
    rw [hdrop, List.drop_one, List.tail_cons, Option.some.injEq] at h
    refine ⟨l.reverse, ?_, by simpa using hl⟩
    rw [← List.reverse_inj, hs, ← h]
    simp
  · cases h

/-- The components of a name are those of the part before the last slash, and one more. -/
theorem splitOn_of_beforeLastSlash {s p : Text} (h : beforeLastSlash s = some p) :
    ∃ l, s.splitOn '/' = p.splitOn '/' ++ [l] := by
  obtain ⟨l, rfl, hl⟩ := beforeLastSlash_eq_some h
  exact ⟨l, by rw [List.splitOn_append_cons_self, List.splitOn_eq_singleton hl]⟩

theorem NameInside.beforeLastSlash {target : List Text} {s p : Text} (hs : NameInside target s)
    (h : beforeLastSlash s = some p) : NameInside target p := by
  obtain ⟨l, hl⟩ := splitOn_of_beforeLastSlash h
  intro q hq
  obtain ⟨ds, hds, rfl⟩ := mem_stops.mp hq
  exact hs _ (mem_stops.mpr ⟨ds, hl ▸ hds.trans (List.prefix_append _ _), rfl⟩)

/-- There is a slash in every name behind a directory name. -/
theorem beforeLastSlash_isSome {descDir : Text} (hslash : '/' ∈ descDir) (name : Text) :
    ∃ parent, beforeLastSlash (outPath descDir name) = some parent := by
  have hmem : '/' ∈ outPath descDir name :=
    List.mem_map.mpr ⟨'/', List.mem_append_left _ hslash, rfl⟩
  exact ⟨_, if_pos hmem⟩

/-! ## One entry -/

section entry
variable {st : Storage} {descDir : Text} {e : Entry} {fs : Files} {q : List Text}

/-- Making a missing directory makes directories where nothing was. -/
theorem node_makeMissing (st : Storage) (name : Text) (fs : Files) (q : List Text) :
    (makeMissing st name fs).node q = fs.node q ∨
      fs.node q = none ∧ (makeMissing st name fs).node q = some .dir := by
  rw [makeMissing]
  split
  · exact .inl rfl
  · rcases hm : mkdirs st fs name with ⟨ok, fs'⟩
    exact (node_mkdirs hm q).imp_right And.right

theorem makeMissing_keeps {name : Text} (hq : fs.node q ≠ none) :
    (makeMissing st name fs).node q = fs.node q :=
  (node_makeMissing st name fs q).resolve_right fun h => hq h.1

/-- A name that stays on the way makes directories on it only. -/
theorem node_makeMissing_inside {target : List Text} {name : Text} (h : NameInside target name)
    (hq : ¬ OnTheWay target q) : (makeMissing st name fs).node q = fs.node q := by
  rw [makeMissing]
  split
  · rfl
  · rcases hm : mkdirs st fs name with ⟨ok, fs'⟩
    by_contra hchanged
    obtain ⟨p, hp, hpre⟩ := mkdirs_stops hm hchanged
    exact hq ((h p hp).above hpre)

/-- A name that stays on the way is that of a file on it, or nothing is written. -/
theorem node_writeBytes_inside {target : List Text} {name : Text} (data : List UInt8)
    (h : NameInside target name) (hq : ¬ OnTheWay target q) :
    (FileTool.writeBytes st data name fs).2.node q = fs.node q := by
  rcases toPath_cases fs name with hdots | hdead
  · refine FileTool.node_writeBytes_of_ne st data fs fun heq => hq ?_
    have hnorm : toPath fs name = normalise name := by
      rcases toPath_stops fs name with ⟨hnorm, -⟩ | ⟨p, -, c, r, hpath, hdot, -⟩
      · exact hnorm
      · exact absurd hdot (hdots c (by simp [hpath]))
    rw [heq, hnorm]
    exact h _ (normalise_mem_stops name)
  · rw [FileTool.writeBytes_dead hdead]

/-- A directory stays one. -/
theorem unZipEntry_keeps_dir (h : fs.node q = some .dir) :
    (unZipEntry st descDir e fs).2.node q = some .dir := by
  rw [unZipEntry]
  split
  · exact h
  · next parent _ =>
    have hmake : (makeMissing st parent fs).node q = some .dir := by
      rw [makeMissing_keeps (by rw [h]; simp), h]
    dsimp only
    split
    · exact hmake
    · exact (FileTool.dir_writeBytes_iff st _ _ _ q).mpr hmake

/-- An entry removes nothing. -/
theorem unZipEntry_keeps (h : fs.node q ≠ none) : (unZipEntry st descDir e fs).2.node q ≠ none := by
  rw [unZipEntry]
  split
  · exact h
  · next parent _ =>
    have hmake : (makeMissing st parent fs).node q ≠ none := by rwa [makeMissing_keeps h]
    dsimp only
    split
    · exact hmake
    · exact FileTool.node_writeBytes_ne_none st _ _ _ hmake

/-- An entry that stays on the way changes nothing off it. -/
theorem node_unZipEntry_inside (he : EntryInside descDir e)
    (hq : ¬ OnTheWay (normalise descDir) q) :
    (unZipEntry st descDir e fs).2.node q = fs.node q := by
  rw [unZipEntry]
  split
  · rfl
  · next parent hparent =>
    have hmake : (makeMissing st parent fs).node q = fs.node q :=
      node_makeMissing_inside (NameInside.beforeLastSlash he hparent) hq
    dsimp only
    split
    · exact hmake
    · exact (node_writeBytes_inside e.data he hq).trans hmake

end entry

theorem unZipEntries_cons (st : Storage) (descDir : Text) (e : Entry) (es : List Entry)
    (fs : Files) :
    unZipEntries st descDir (e :: es) fs =
      if (unZipEntry st descDir e fs).1 = true then
        unZipEntries st descDir es (unZipEntry st descDir e fs).2
      else (unZipEntry st descDir e fs).2 := by
  rw [unZipEntries]
  split
  · next h => rw [h, if_pos rfl]
  · next h => rw [h, if_neg (by simp)]

/-- What each entry keeps, the loop keeps. -/
theorem unZipEntries_invariant {st : Storage} {descDir : Text} {I : Files → Prop}
    {es : List Entry} (hstep : ∀ e ∈ es, ∀ fs, I fs → I (unZipEntry st descDir e fs).2)
    {fs : Files} (h : I fs) : I (unZipEntries st descDir es fs) := by
  induction es generalizing fs with
  | nil => exact h
  | cons e es ih =>
      obtain ⟨he, hes⟩ := List.forall_mem_cons.mp hstep
      rw [unZipEntries_cons]
      split
      · exact ih hes (he fs h)
      · exact he fs h

/-! ## Whole archives -/

/-- An archive whose entries all stay on the way is unpacked in the target directory. -/
theorem contained_of_inside {descDir : Text} {zip : List Entry}
    (hdesc : NameInside (normalise descDir) descDir)
    (hall : ∀ e ∈ zip, EntryInside descDir e) : Contained descDir zip := by
  intro st fs q hchanged
  have hoff : ∀ q, ¬ OnTheWay (normalise descDir) q →
      (unZipFiles st descDir zip fs).node q = fs.node q := by
    intro q hq
    exact unZipEntries_invariant (I := fun gs => gs.node q = fs.node q)
      (fun e he gs hgs => (node_unZipEntry_inside (hall e he) hq).trans hgs)
      (node_makeMissing_inside hdesc hq)
  have hdir : ∀ q, fs.node q = some .dir → (unZipFiles st descDir zip fs).node q = some .dir := by
    intro q hq
    refine unZipEntries_invariant (I := fun gs => gs.node q = some .dir)
      (fun e _ gs => unZipEntry_keeps_dir) ?_
    rw [makeMissing_keeps (by rw [hq]; simp), hq]
  by_cases hway : OnTheWay (normalise descDir) q
  · refine hway.imp_right fun hpre => ⟨fun htarget => ?_, hpre⟩
    -- The directories above one that is there are there and stay.
    have hq := fs.dir_of_prefix hpre htarget
    exact hchanged ((hdir q hq).trans hq.symm)
  · exact absurd (hoff q hway) hchanged

/-! ## Leaving the way -/

/-- The directories of the names that are on the way, and no other. -/
def wayTree (target : List Text) (names : List Text) : Files :=
  .ofDirs ((names.flatMap stops).filter (OnTheWay target ·))

section leaving
variable {target : List Text} {names : List Text} {s : Text}

theorem wayTree_dir (hs : s ∈ names) {p : List Text} (hp : p ∈ stops s)
    (hway : OnTheWay target p) : (wayTree target names).node p = some .dir := by
  have hmem : p ∈ (names.flatMap stops).filter (OnTheWay target ·) :=
    List.mem_filter.mpr ⟨List.mem_flatMap.mpr ⟨s, hs, hp⟩, decide_eq_true hway⟩
  rw [wayTree, FileTree.node_ofDirs, if_pos (.inr ⟨p, hmem, List.prefix_refl p⟩)]

theorem wayTree_none {q : List Text} (hq : ¬ OnTheWay target q) :
    (wayTree target names).node q = none := by
  rw [wayTree, FileTree.node_ofDirs, if_neg]
  rintro (rfl | ⟨p, hp, hpre⟩)
  · exact hq (.inr List.nil_prefix)
  · exact hq ((of_decide_eq_true (List.mem_filter.mp hp).2 : OnTheWay target p).above hpre)

/-- Where all directories it passes are there, a name is that of a directory. -/
theorem isDirectory_wayTree (hs : s ∈ names) (hin : NameInside target s) :
    (wayTree target names).node (toPath (wayTree target names) s) = some .dir := by
  have hdirs : ∀ p ∈ stops s, (wayTree target names).node p = some .dir := fun p hp =>
    wayTree_dir hs hp (hin p hp)
  rw [toPath_of_stops hdirs]
  exact hdirs _ (normalise_mem_stops s)

theorem makeMissing_wayTree (hs : s ∈ names) (hin : NameInside target s) (st : Storage) :
    makeMissing st s (wayTree target names) = wayTree target names :=
  if_pos (FileTree.existsAt_iff _ |>.mpr (by rw [isDirectory_wayTree hs hin]; simp))

/-- The first component with which a name leaves the way. -/
theorem exists_first_off (hs : ¬ NameInside target s) :
    ∃ ds c rest, s.splitOn '/' = ds ++ c :: rest ∧
      (∀ p ∈ ds.scanl follow [], OnTheWay target p) ∧ c ≠ [] ∧ ¬ IsDot c ∧
      ¬ OnTheWay target (ds.foldl follow [] ++ [c]) := by
  suffices ∀ (cs : List Text) (p : List Text), OnTheWay target p →
      (¬ ∀ q ∈ cs.scanl follow p, OnTheWay target q) →
      ∃ ds c rest, cs = ds ++ c :: rest ∧ (∀ q ∈ ds.scanl follow p, OnTheWay target q) ∧
        c ≠ [] ∧ ¬ IsDot c ∧ ¬ OnTheWay target (ds.foldl follow p ++ [c]) from
    this _ [] (.inr List.nil_prefix) hs
  intro cs
  induction cs with
  | nil =>
      intro p hp hnot
      exact absurd (by simpa using hp) hnot
  | cons c cs ih =>
      intro p hp hnot
      by_cases hnext : OnTheWay target (follow p c)
      · obtain ⟨ds, d, rest, rfl, hds, hd⟩ := ih _ hnext fun hall => hnot (by
          rw [List.scanl_cons]
          exact List.forall_mem_cons.mpr ⟨hp, hall⟩)
        refine ⟨c :: ds, d, rest, rfl, ?_, by simpa using hd⟩
        rw [List.scanl_cons]
        exact List.forall_mem_cons.mpr ⟨hp, hds⟩
      · have hproper : c ≠ [] ∧ ¬ IsDot c := not_or.mp fun hc => hnext (hp.follow hc)
        refine ⟨[], c, cs, rfl, by simpa using hp, hproper.1, hproper.2, ?_⟩
        rwa [follow_of_not_dot hproper.1 hproper.2] at hnext

variable {ds rest : List Text} {c : Text}

/-- Where a name leaves the way, nothing is there. -/
theorem toPath_wayTree (hs : s ∈ names) (hsplit : s.splitOn '/' = ds ++ c :: rest)
    (hds : ∀ p ∈ ds.scanl follow [], OnTheWay target p) (hne : c ≠ []) (hdot : ¬ IsDot c)
    (hoff : ¬ OnTheWay target (ds.foldl follow [] ++ [c])) :
    (∀ p ∈ ds.scanl follow [], (wayTree target names).node p = some .dir) ∧
      toPath (wayTree target names) s = ds.foldl follow [] ++ [c] ++ rest.filter (· ≠ []) := by
  have hdirs : ∀ p ∈ ds.scanl follow [], (wayTree target names).node p = some .dir := by
    intro p hp
    refine wayTree_dir hs ?_ (hds p hp)
    obtain ⟨es, hes, rfl⟩ := mem_scanl_follow.mp hp
    exact mem_stops.mpr ⟨es, hsplit ▸ hes.trans (List.prefix_append _ _), rfl⟩
  refine ⟨hdirs, ?_⟩
  have hnone : (wayTree target names).node (ds.foldl follow [] ++ [c]) ≠ some .dir := by
    rw [wayTree_none hoff]
    simp
  rw [toPath, hsplit, List.foldl_append, List.foldl_cons, foldl_pushComponent_of_dirs hdirs,
    pushComponent_of_not_dot hne hdot, foldl_pushComponent_dead _ hnone]

theorem dir_foldl_follow (hdirs : ∀ p ∈ ds.scanl follow [],
    (wayTree target names).node p = some .dir) :
    (wayTree target names).node (ds.foldl follow []) = some .dir :=
  hdirs _ (mem_scanl_follow.mpr ⟨ds, List.prefix_refl ds, rfl⟩)

/-- It is made, if it is a directory that is to be made. -/
theorem makeMissing_leaves (hs : s ∈ names) (hsplit : s.splitOn '/' = ds ++ c :: rest)
    (hds : ∀ p ∈ ds.scanl follow [], OnTheWay target p) (hne : c ≠ []) (hdot : ¬ IsDot c)
    (hoff : ¬ OnTheWay target (ds.foldl follow [] ++ [c])) :
    (makeMissing .sound s (wayTree target names)).node (ds.foldl follow [] ++ [c]) = some .dir := by
  obtain ⟨hdirs, hpath⟩ := toPath_wayTree hs hsplit hds hne hdot hoff
  have hpre : ds.foldl follow [] ++ [c] <+: toPath (wayTree target names) s := by
    rw [hpath]
    exact List.prefix_append _ _
  have hnone := @wayTree_none target names _ hoff
  have hmissing : (wayTree target names).node (toPath (wayTree target names) s) = none := by
    by_contra hex
    obtain ⟨r, hr⟩ := hpre
    rw [← hr] at hex
    exact FileTree.exists_of_append _ hex hnone
  have hnew : ¬ fileExists (wayTree target names) s = true := fun hex =>
    (FileTree.existsAt_iff _).mp hex hmissing
  rw [makeMissing, if_neg hnew]
  refine FileTree.mkdirs_made hmissing hpre fun q hq => ?_
  rcases List.prefix_concat_iff.mp hq with rfl | hq
  · exact .inr ⟨hnone, by simp [Storage.makes, Storage.sound, hdot]⟩
  · exact .inl (FileTree.dir_of_prefix _ hq (dir_foldl_follow hdirs))

/-- It is written, if it is the file of an entry. -/
theorem writeBytes_leaves (hs : s ∈ names) (hsplit : s.splitOn '/' = ds ++ [c])
    (hds : ∀ p ∈ ds.scanl follow [], OnTheWay target p) (hne : c ≠ []) (hdot : ¬ IsDot c)
    (hoff : ¬ OnTheWay target (ds.foldl follow [] ++ [c])) (data : List UInt8) :
    isDirectory (wayTree target names) s = false ∧
      (FileTool.writeBytes .sound data s (wayTree target names)).2.node
        (ds.foldl follow [] ++ [c]) ≠ none := by
  obtain ⟨hdirs, hpath⟩ := toPath_wayTree hs hsplit hds hne hdot hoff
  rw [List.filter_nil, List.append_nil] at hpath
  have hnone := @wayTree_none target names _ hoff
  have hwritten := @FileTool.writeBytes_sound (wayTree target names) s data (by simp [hpath])
    (by rw [hpath, List.dropLast_concat]; exact dir_foldl_follow hdirs) (by simp [hpath, hnone])
  have hnode := FileTool.node_writeBytes_self hwritten
  rw [hpath] at hnode
  constructor
  · rw [isDirectory, FileTree.isDir_eq_false_iff, hpath, hnone]
    simp
  · rw [hnode]
    simp

/-- An entry that leaves the way makes something off it. -/
theorem unZipEntry_leaves {descDir : Text} {e : Entry} (hslash : '/' ∈ descDir)
    (hnames : ∀ s,
      (s = outPath descDir e.name ∨ beforeLastSlash (outPath descDir e.name) = some s) →
        s ∈ names) (he : ¬ EntryInside descDir e) :
    ∃ q, ¬ OnTheWay (normalise descDir) q ∧
      (unZipEntry .sound descDir e (wayTree (normalise descDir) names)).2.node q ≠ none := by
  obtain ⟨parent, hparent⟩ := beforeLastSlash_isSome hslash e.name
  obtain ⟨l, hl⟩ := splitOn_of_beforeLastSlash hparent
  obtain ⟨ds, c, rest, hsplit, hds, hne, hdot, hoff⟩ := exists_first_off he
  refine ⟨_, hoff, ?_⟩
  simp only [unZipEntry, hparent]
  rcases List.eq_nil_or_concat rest with rfl | ⟨rest, l', rfl⟩
  · -- the last component leaves the way, from a directory that is there
    obtain ⟨rfl, -⟩ := List.append_inj' (hl.symm.trans hsplit) rfl
    have hin : NameInside (normalise descDir) parent := hds
    rw [makeMissing_wayTree (hnames parent (.inr hparent)) hin]
    obtain ⟨hnot, hwritten⟩ :=
      writeBytes_leaves (hnames _ (.inl rfl)) hsplit hds hne hdot hoff e.data
    rw [hnot, if_neg Bool.false_ne_true]
    exact hwritten
  · -- a directory on the way to the file leaves it
    have hsplit' : parent.splitOn '/' = ds ++ c :: rest := by
      have heq := hl.symm.trans hsplit
      rw [List.concat_eq_append, ← List.cons_append, ← List.append_assoc] at heq
      exact (List.append_inj' heq rfl).1
    have hmade := makeMissing_leaves (hnames parent (.inr hparent)) hsplit' hds hne hdot hoff
    split
    · rw [hmade]
      simp
    · exact FileTool.node_writeBytes_ne_none _ _ _ _ (by rw [hmade]; simp)

/-- An entry that stays on the way finds directories, and is passed over. -/
theorem unZipEntry_passes {descDir : Text} {e : Entry} (hslash : '/' ∈ descDir)
    (hnames : ∀ s,
      (s = outPath descDir e.name ∨ beforeLastSlash (outPath descDir e.name) = some s) →
        s ∈ names) (he : EntryInside descDir e) :
    unZipEntry .sound descDir e (wayTree (normalise descDir) names) =
      (true, wayTree (normalise descDir) names) := by
  obtain ⟨parent, hparent⟩ := beforeLastSlash_isSome hslash e.name
  have hdir : isDirectory (wayTree (normalise descDir) names) (outPath descDir e.name) = true :=
    (FileTree.isDir_iff _).mpr (isDirectory_wayTree (hnames _ (.inl rfl)) he)
  simp only [unZipEntry, hparent]
  rw [makeMissing_wayTree (hnames parent (.inr hparent)) (he.beforeLastSlash hparent), hdir,
    if_pos rfl]

/-- An entry that leaves the way after entries that do not is reached. -/
theorem unZipEntries_leaves {descDir : Text} {e : Entry} (hslash : '/' ∈ descDir)
    {es : List Entry} (rest : List Entry)
    (hnames : ∀ e' ∈ es ++ [e], ∀ s,
      (s = outPath descDir e'.name ∨ beforeLastSlash (outPath descDir e'.name) = some s) →
        s ∈ names)
    (hes : ∀ e ∈ es, EntryInside descDir e) (he : ¬ EntryInside descDir e) :
    ∃ q, ¬ OnTheWay (normalise descDir) q ∧
      (unZipEntries .sound descDir (es ++ e :: rest)
        (wayTree (normalise descDir) names)).node q ≠ none := by
  induction es with
  | nil =>
      obtain ⟨q, hq, hne⟩ := unZipEntry_leaves hslash (hnames e (by simp)) he
      refine ⟨q, hq, ?_⟩
      rw [List.nil_append, unZipEntries_cons]
      split
      · exact unZipEntries_invariant (I := fun gs => gs.node q ≠ none)
          (fun _ _ _ => unZipEntry_keeps) hne
      · exact hne
  | cons e' es ih =>
      obtain ⟨he', hes⟩ := List.forall_mem_cons.mp hes
      rw [List.cons_append, unZipEntries_cons,
        unZipEntry_passes hslash (hnames e' (by simp)) he', if_pos rfl]
      exact ih (fun e'' he'' => hnames e'' (List.mem_cons_of_mem _ he'')) hes

end leaving

/-- The first element of a list that fails a test. -/
theorem exists_first_not {α : Type} {P : α → Prop} {es : List α} (h : ¬ ∀ e ∈ es, P e) :
    ∃ as e bs, es = as ++ e :: bs ∧ (∀ a ∈ as, P a) ∧ ¬ P e := by
  induction es with
  | nil => simp at h
  | cons e es ih =>
      by_cases he : P e
      · obtain ⟨as, e', bs, rfl, has, he'⟩ := ih fun hes => h (List.forall_mem_cons.mpr ⟨he, hes⟩)
        exact ⟨e :: as, e', bs, rfl, List.forall_mem_cons.mpr ⟨he, has⟩, he'⟩
      · exact ⟨[], e, es, rfl, by simp, he⟩

/-- The names that unpacking some entries uses. -/
def usedNames (descDir : Text) (es : List Entry) : List Text :=
  descDir :: es.flatMap fun e =>
    outPath descDir e.name :: (beforeLastSlash (outPath descDir e.name)).toList

theorem mem_usedNames {descDir : Text} {es : List Entry} {e : Entry} (he : e ∈ es) (s : Text)
    (hs : s = outPath descDir e.name ∨ beforeLastSlash (outPath descDir e.name) = some s) :
    s ∈ usedNames descDir es := by
  refine List.mem_cons_of_mem _ (List.mem_flatMap.mpr ⟨e, he, ?_⟩)
  rcases hs with rfl | hs
  · exact List.mem_cons_self ..
  · exact List.mem_cons_of_mem _ (by simp [hs])

/-- Something that is made off the way is a change. -/
theorem not_contained {descDir : Text} {zip : List Entry} (names : List Text) {q : List Text}
    (hq : ¬ OnTheWay (normalise descDir) q)
    (hne : (unZipFiles .sound descDir zip (wayTree (normalise descDir) names)).node q ≠ none) :
    ¬ Contained descDir zip := by
  intro h
  refine hq ((h .sound (wayTree (normalise descDir) names) q ?_).imp_right And.right)
  rw [wayTree_none hq]
  exact hne

/-- An archive stays in a target directory exactly if the name of the directory and each
of its entries pass only directories on the way to the target or below it. -/
theorem unzip_contained_iff (dir : Text) (zip : List Entry) :
    Contained (dir ++ ['/']) zip ↔
      NameInside (normalise (dir ++ ['/'])) (dir ++ ['/']) ∧
        ∀ e ∈ zip, EntryInside (dir ++ ['/']) e := by
  refine ⟨fun h => ?_, fun h => contained_of_inside h.1 h.2⟩
  have hdesc : NameInside (normalise (dir ++ ['/'])) (dir ++ ['/']) := by
    by_contra hnot
    obtain ⟨ds, c, rest, hsplit, hds, hne, hdot, hoff⟩ := exists_first_off hnot
    refine not_contained [dir ++ ['/']] hoff ?_ h
    have hmade :=
      makeMissing_leaves (List.mem_singleton_self (dir ++ ['/'])) hsplit hds hne hdot hoff
    exact unZipEntries_invariant (I := fun gs => gs.node _ ≠ none)
      (fun _ _ _ => unZipEntry_keeps) (by rw [hmade]; simp)
  refine ⟨hdesc, ?_⟩
  by_contra hnot
  -- The entries before the first bad one find directories and are passed over.
  obtain ⟨es, e, rest, rfl, hes, he⟩ := exists_first_not hnot
  obtain ⟨q, hq, hne⟩ := unZipEntries_leaves (by simp) rest (fun e' he' => mem_usedNames he') hes he
  refine not_contained (usedNames (dir ++ ['/']) (es ++ [e])) hq ?_ h
  have hmem : dir ++ ['/'] ∈ usedNames (dir ++ ['/']) (es ++ [e]) := List.mem_cons_self ..
  rw [unZipFiles, makeMissing_wayTree hmem hdesc]
  exact hne

/-- An archive with an entry that goes up one directory, and one that goes up and comes
back. -/
def upward : List Entry := [⟨"../x", [1]⟩]
def roundabout : List Entry := [⟨"../u/../t/x", [1]⟩]

/-- The first writes beside the target directory, the second makes a directory there. -/
theorem unzip_leaves :
    (unZipFiles .sound "/t/" upward .bare).node ["x".toList] = some (.file [1]) ∧
      ¬ Contained "/t/" upward ∧
      (unZipFiles .sound "/t/" roundabout .bare).node ["u".toList] = some .dir := by
  have hwritten : (unZipFiles .sound "/t/" upward .bare).node ["x".toList] = some (.file [1]) := by
    decide +kernel
  refine ⟨hwritten, fun h => ?_, by decide +kernel⟩
  have hin := h .sound .bare ["x".toList] (by rw [hwritten]; decide +kernel)
  exact absurd hin (by decide +kernel)

end HapAndroid.ZipUtil
