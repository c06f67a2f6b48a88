import HapAndroid.Lib.FileTree
import HapAndroid.Lib.Pattern
import HapAndroid.Lib.Utf8

/-!
# Texts, path names and storage

A Java `String` is a list of characters.  A `java.io.File` is built from a path
name, a text with `/` between the components.  `toPath` reads a path name as the
system does, one component after the other: empty components are dropped, and
`.` and `..` are entries of a directory, the directory itself and the one above
it.  Below what is no directory there are no such entries, so there the
component stays in the path, and nothing is found or made at that path.
`toPath_cases` says that a path name ends in one of these two ways.
`toPath_concat` is the form in which the sources build their path names: a
directory, a slash and a name.

What a path name stands for can change with the directories.  A `Straight` path
name, one without dots, always stands for the same path.

The state of the file system is a `FileTree`.  Whether the storage accepts a
request also depends on things the tree does not show, such as free space, so
`Storage` gives its answer for every path.  `Storage.sound` accepts everything.
-/

namespace HapAndroid

/-- A Java string. -/
abbrev Text := List Char

instance : Coe String Text := ⟨String.toList⟩

/-- `s.indexOf(w)`, without the `-1`. -/
def indexOf (s w : Text) : Option Nat := Pattern.indexOf? (Pattern.literal w) s

/-- `s.indexOf(w) != -1`. -/
def containsText (s w : Text) : Bool := Pattern.occurs (Pattern.literal w) s

theorem indexOf_eq_none_iff {s w : Text} : indexOf s w = none ↔ containsText s w = false :=
  Pattern.indexOf?_eq_none_iff

theorem containsText_append (a w b : Text) : containsText (a ++ w ++ b) w = true :=
  Pattern.occurs_literal a w b

/-- What a dot of `java.util.regex` does not match: the line terminators of ICU,
which the platform uses. -/
def isLineTerminator (c : Char) : Bool :=
  (0x0A ≤ c.toNat && c.toNat ≤ 0x0D) || c.toNat = 0x85 || c.toNat = 0x2028 || c.toNat = 0x2029

/-- The files of the device. -/
abbrev Files := FileTree Text (List UInt8)

/-! ## Path names -/

/-- The components that are entries of every directory. -/
def IsDot (c : Text) : Prop := c = ['.'] ∨ c = ['.', '.']

instance (c : Text) : Decidable (IsDot c) := inferInstanceAs (Decidable (_ ∨ _))

/-- Where a component leads from a directory. -/
def follow (p : List Text) (c : Text) : List Text :=
  if c = [] ∨ c = ['.'] then p
  else if c = ['.', '.'] then p.dropLast
  else p ++ [c]

/-- Add one component of a path name. -/
def pushComponent (fs : Files) (p : List Text) (c : Text) : List Text :=
  if fs.isDir p then follow p c
  else if c = [] then p
  else p ++ [c]

/-- The path a path name stands for. -/
def toPath (fs : Files) (s : Text) : List Text := (s.splitOn '/').foldl (pushComponent fs) []

/-- The normalised path of a path name: what it stands for where all directories it
passes are there. -/
def normalise (s : Text) : List Text := (s.splitOn '/').foldl follow []

/-- The directories a path name passes there, with the one it ends at. -/
def stops (s : Text) : List (List Text) := (s.splitOn '/').scanl follow []

/-- A name that is one component: what a directory entry can be called. -/
def PlainName (n : Text) : Prop := n ≠ [] ∧ n ≠ ['.'] ∧ n ≠ ['.', '.'] ∧ '/' ∉ n

instance (n : Text) : Decidable (PlainName n) :=
  inferInstanceAs (Decidable (_ ∧ _ ∧ _ ∧ _))

section Paths

variable {fs fs' : Files}

theorem pushComponent_nil (p : List Text) : pushComponent fs p [] = p := by
  simp [pushComponent, follow]

theorem follow_of_not_dot {c : Text} (hne : c ≠ []) (h : ¬ IsDot c) (p : List Text) :
    follow p c = p ++ [c] := by
  obtain ⟨h1, h2⟩ := not_or.mp h
  simp [follow, hne, h1, h2]

theorem pushComponent_of_dir {p : List Text} (h : fs.node p = some .dir) (c : Text) :
    pushComponent fs p c = follow p c :=
  if_pos (fs.isDir_iff.mpr h)

theorem pushComponent_of_not_dir {p : List Text} (h : fs.node p ≠ some .dir) (c : Text) :
    pushComponent fs p c = p ++ [c].filter (· ≠ []) := by
  rw [pushComponent, if_neg (by simpa [fs.isDir_iff] using h)]
  by_cases hc : c = [] <;> simp [hc]

theorem pushComponent_of_not_dot {c : Text} (hne : c ≠ []) (h : ¬ IsDot c) (p : List Text) :
    pushComponent fs p c = p ++ [c] := by
  simp [pushComponent, follow_of_not_dot hne h, hne]

theorem pushComponent_plain {n : Text} (h : PlainName n) (p : List Text) :
    pushComponent fs p n = p ++ [n] :=
  pushComponent_of_not_dot h.1 (not_or.mpr ⟨h.2.1, h.2.2.1⟩) p

theorem toPath_append (d n : Text) :
    toPath fs (d ++ '/' :: n) = (n.splitOn '/').foldl (pushComponent fs) (toPath fs d) := by
  unfold toPath
  rw [List.splitOn_append_cons_self, List.foldl_append]

/-- The path of a plain name in a directory. -/
theorem toPath_concat {n : Text} (h : PlainName n) (d : Text) :
    toPath fs (d ++ '/' :: n) = toPath fs d ++ [n] := by
  rw [toPath_append, List.splitOn_eq_singleton h.2.2.2]
  simp [pushComponent_plain h]

/-- Only the directories matter to what a path name stands for. -/
theorem toPath_congr (h : ∀ p, fs'.node p = some .dir ↔ fs.node p = some .dir) (s : Text) :
    toPath fs' s = toPath fs s := by
  have hdir : ∀ p, fs'.isDir p = fs.isDir p := fun p => by
    rw [Bool.eq_iff_iff, fs'.isDir_iff, fs.isDir_iff, h p]
  have hpush : pushComponent fs' = pushComponent fs := by
    funext p c
    rw [pushComponent, pushComponent, hdir]
  rw [toPath, toPath, hpush]

/-- Below what is no directory every component is taken as it is. -/
theorem foldl_pushComponent_dead : ∀ (cs : List Text) {p : List Text}, fs.node p ≠ some .dir →
    cs.foldl (pushComponent fs) p = p ++ cs.filter (· ≠ [])
  | [], p, _ => by simp
  | c :: cs, p, hp => by
      have hpush := pushComponent_of_not_dir hp c
      have hnext : fs.node (pushComponent fs p c) ≠ some .dir := fun h =>
        hp (fs.dir_of_prefix (hpush ▸ List.prefix_append _ _) h)
      rw [List.foldl_cons, foldl_pushComponent_dead cs hnext, hpush, List.append_assoc,
        ← List.filter_append, List.singleton_append]

/-- The parts of a path in which no dot is left. -/
def NoDots (p : List Text) : Prop := ∀ c ∈ p, ¬ IsDot c

instance (p : List Text) : Decidable (NoDots p) := inferInstanceAs (Decidable (∀ c ∈ p, _))

theorem NoDots.above {p q : List Text} (h : NoDots p) (hq : q <+: p) : NoDots q :=
  fun c hc => h c (hq.subset hc)

/-- A list of components without dots is taken as it is. -/
theorem foldl_pushComponent_noDots : ∀ (cs : List Text) {p : List Text}, NoDots cs →
    cs.foldl (pushComponent fs) p = p ++ cs.filter (· ≠ [])
  | [], p, _ => by simp
  | c :: cs, p, hcs => by
      have hpush : pushComponent fs p c = p ++ [c].filter (· ≠ []) := by
        by_cases hc : c = []
        · simp [hc, pushComponent_nil]
        · simp [hc, pushComponent_of_not_dot hc (hcs c List.mem_cons_self)]
      rw [List.foldl_cons, foldl_pushComponent_noDots cs fun x hx =>
        hcs x (List.mem_cons_of_mem c hx), hpush, List.append_assoc, ← List.filter_append,
        List.singleton_append]

/-- A path with a dot left in it: what comes before the dot is no directory. -/
def Dead (fs : Files) (p : List Text) : Prop :=
  ∃ q c r, p = q ++ c :: r ∧ IsDot c ∧ NoDots q ∧ fs.node q ≠ some .dir

theorem NoDots.follow {p : List Text} (h : NoDots p) (c : Text) : NoDots (follow p c) := by
  by_cases hc : c = []
  · simpa [HapAndroid.follow, hc] using h
  by_cases hdot : IsDot c
  · rcases hdot with rfl | rfl
    · simpa [HapAndroid.follow] using h
    · exact h.above (by simpa [HapAndroid.follow] using p.dropLast_prefix)
  · rw [follow_of_not_dot hc hdot]
    intro x hx
    rcases List.mem_append.mp hx with hx | hx
    · exact h x hx
    · rw [List.mem_singleton.mp hx]
      exact hdot

theorem foldl_pushComponent_cases : ∀ (cs : List Text) {p : List Text}, NoDots p →
    (cs.foldl (pushComponent fs) p = cs.foldl follow p ∧ NoDots (cs.foldl (pushComponent fs) p)) ∨
      ∃ q ∈ cs.scanl follow p, ∃ c r, cs.foldl (pushComponent fs) p = q ++ c :: r ∧ IsDot c ∧
        NoDots q ∧ fs.node q ≠ some .dir
  | [], _, hp => .inl ⟨rfl, hp⟩
  | c :: cs, p, hp => by
      have hstep : pushComponent fs p c = follow p c →
          ((c :: cs).foldl (pushComponent fs) p = (c :: cs).foldl follow p ∧
              NoDots ((c :: cs).foldl (pushComponent fs) p)) ∨
            ∃ q ∈ (c :: cs).scanl follow p, ∃ d r,
              (c :: cs).foldl (pushComponent fs) p = q ++ d :: r ∧ IsDot d ∧
                NoDots q ∧ fs.node q ≠ some .dir := by
        intro hpush
        simp only [List.foldl_cons, List.scanl_cons, hpush]
        exact (foldl_pushComponent_cases cs (hp.follow c)).imp_right fun ⟨q, hq, hrest⟩ =>
          ⟨q, List.mem_cons_of_mem p hq, hrest⟩
      by_cases hdir : fs.node p = some .dir
      · exact hstep (pushComponent_of_dir hdir c)
      by_cases hdot : IsDot c
      · -- the dot stays, and with it everything behind it
        have hne : c ≠ [] := by rcases hdot with rfl | rfl <;> simp
        refine .inr ⟨p, by simp, c, cs.filter (· ≠ []), ?_, hdot, hp, hdir⟩
        rw [foldl_pushComponent_dead _ hdir, List.filter_cons_of_pos (by simpa using hne)]
      · refine hstep ?_
        by_cases hc : c = []
        · rw [hc, pushComponent_nil]
          simp [HapAndroid.follow]
        · rw [pushComponent_of_not_dot hc hdot, follow_of_not_dot hc hdot]

/-- A path name leads to its normalised path, or to a dot below one of the
directories it should pass, which is not there. -/
theorem toPath_stops (fs : Files) (s : Text) :
    (toPath fs s = normalise s ∧ NoDots (toPath fs s)) ∨
      ∃ q ∈ stops s, ∃ c r, toPath fs s = q ++ c :: r ∧ IsDot c ∧ NoDots q ∧
        fs.node q ≠ some .dir :=
  foldl_pushComponent_cases _ (by simp [NoDots])

/-- A path name leads to a path without dots, or is dead. -/
theorem toPath_cases (fs : Files) (s : Text) : NoDots (toPath fs s) ∨ Dead fs (toPath fs s) :=
  (toPath_stops fs s).imp And.right fun ⟨q, _, c, r, h⟩ => ⟨q, c, r, h⟩

theorem mem_scanl_follow {cs p q : List Text} :
    q ∈ cs.scanl follow p ↔ ∃ ds, ds <+: cs ∧ ds.foldl follow p = q := by
  induction cs generalizing p with
  | nil => simp [eq_comm]
  | cons c cs ih =>
      rw [List.scanl_cons, List.mem_cons, ih]
      constructor
      · rintro (rfl | ⟨ds, hds, rfl⟩)
        · exact ⟨[], List.nil_prefix, rfl⟩
        · exact ⟨c :: ds, List.cons_prefix_cons.mpr ⟨rfl, hds⟩, rfl⟩
      · rintro ⟨ds, hds, rfl⟩
        cases ds with
        | nil => exact .inl rfl
        | cons d ds =>
            obtain ⟨rfl, hrest⟩ := List.cons_prefix_cons.mp hds
            exact .inr ⟨ds, hrest, rfl⟩

theorem mem_stops {s : Text} {q : List Text} :
    q ∈ stops s ↔ ∃ ds, ds <+: s.splitOn '/' ∧ ds.foldl follow [] = q :=
  mem_scanl_follow

theorem normalise_mem_stops (s : Text) : normalise s ∈ stops s :=
  mem_stops.mpr ⟨_, List.prefix_refl _, rfl⟩

theorem foldl_pushComponent_of_dirs {cs p : List Text}
    (h : ∀ q ∈ cs.scanl follow p, fs.node q = some .dir) :
    cs.foldl (pushComponent fs) p = cs.foldl follow p := by
  induction cs generalizing p with
  | nil => rfl
  | cons c cs ih =>
      rw [List.scanl_cons] at h
      obtain ⟨hp, hcs⟩ := List.forall_mem_cons.mp h
      rw [List.foldl_cons, List.foldl_cons, pushComponent_of_dir hp, ih hcs]

/-- Where all directories it passes are there, a path name stands for its normalised
path. -/
theorem toPath_of_stops {s : Text} (h : ∀ q ∈ stops s, fs.node q = some .dir) :
    toPath fs s = normalise s :=
  foldl_pushComponent_of_dirs h

/-- Nothing stands at a dead path, and its parent is no directory. -/
theorem Dead.node {p : List Text} (h : Dead fs p) :
    fs.node p = none ∧ fs.node p.dropLast ≠ some .dir := by
  obtain ⟨q, c, r, rfl, -, -, hq⟩ := h
  constructor
  · by_contra hne
    exact hq (fs.dir_of_append (List.cons_ne_nil c r) hne)
  · intro hdir
    refine hq (fs.dir_of_prefix ?_ hdir)
    rw [List.dropLast_append_of_ne_nil (List.cons_ne_nil c r)]
    exact List.prefix_append _ _

/-- As long as its directories stay, a path name that does not end dead stands
for the same path. -/
theorem toPath_of_dirs (h : ∀ p, fs.node p = some .dir → fs'.node p = some .dir) {s : Text}
    (hs : NoDots (toPath fs s)) : toPath fs' s = toPath fs s := by
  suffices ∀ (cs : List Text) (p : List Text), NoDots (cs.foldl (pushComponent fs) p) →
      cs.foldl (pushComponent fs') p = cs.foldl (pushComponent fs) p from this _ _ hs
  intro cs
  induction cs with
  | nil => exact fun _ _ => rfl
  | cons c cs ih =>
      intro p hp
      rw [List.foldl_cons] at hp ⊢
      have hpush : pushComponent fs' p c = pushComponent fs p c := by
        by_cases hdir : fs.node p = some .dir
        · rw [pushComponent_of_dir hdir, pushComponent_of_dir (h p hdir)]
        · have hdot : ¬ IsDot c := by
            intro hdot
            rw [← List.foldl_cons, foldl_pushComponent_dead _ hdir] at hp
            have hne : c ≠ [] := by rcases hdot with rfl | rfl <;> simp
            exact hp c (by simp [hne]) hdot
          by_cases hc : c = []
          · rw [hc, pushComponent_nil, pushComponent_nil]
          · rw [pushComponent_of_not_dot hc hdot, pushComponent_of_not_dot hc hdot]
      rw [List.foldl_cons, hpush]
      exact ih _ hp

/-- When directories go, a path name stands for the same path or is dead. -/
theorem toPath_of_fewer (h : ∀ p, fs'.node p = some .dir → fs.node p = some .dir) (s : Text) :
    toPath fs' s = toPath fs s ∨ Dead fs' (toPath fs' s) :=
  (toPath_cases fs' s).imp_left fun hs => (toPath_of_dirs h hs).symm

theorem foldl_pushComponent_again
    (h : ∀ p, fs'.node p = some .dir → fs.node p = some .dir) :
    ∀ (cs : List Text) {p : List Text}, (fs'.node p = some .dir → NoDots p ∧ [] ∉ p) →
      (cs.foldl (pushComponent fs') p).foldl (pushComponent fs) [] =
        cs.foldl (pushComponent fs) (p.foldl (pushComponent fs) [])
  | [], _, _ => rfl
  | c :: cs, p, hp => by
      have hread : ∀ q : List Text, NoDots q → [] ∉ q → q.foldl (pushComponent fs) [] = q := by
        intro q hdots hne
        rw [foldl_pushComponent_noDots q hdots, List.nil_append, List.filter_eq_self]
        exact fun x hx => decide_eq_true fun h => hne (h ▸ hx)
      by_cases hc : c = []
      · simp only [List.foldl_cons, hc, pushComponent_nil]
        exact foldl_pushComponent_again h cs hp
      by_cases hdot : fs'.node p = some .dir ∧ IsDot c
      · -- the dot is followed in both
        obtain ⟨hdots, hne⟩ := hp hdot.1
        have hshort : [] ∉ follow p c := by
          rcases hdot.2 with rfl | rfl
          · simpa [HapAndroid.follow] using hne
          · simpa [HapAndroid.follow] using fun hx => hne (p.dropLast_subset hx)
        rw [List.foldl_cons, List.foldl_cons, pushComponent_of_dir hdot.1, hread p hdots hne,
          pushComponent_of_dir (h p hdot.1),
          foldl_pushComponent_again h cs fun _ => ⟨hdots.follow c, hshort⟩,
          hread _ (hdots.follow c) hshort]
      · have hpush : pushComponent fs' p c = p ++ [c] := by
          by_cases hdir : fs'.node p = some .dir
          · rw [pushComponent_of_dir hdir, follow_of_not_dot hc fun h => hdot ⟨hdir, h⟩]
          · rw [pushComponent_of_not_dir hdir]
            simp [hc]
        rw [List.foldl_cons, List.foldl_cons, hpush, foldl_pushComponent_again h cs,
          List.foldl_append, List.foldl_cons, List.foldl_nil]
        intro hdir
        have hpar := fs'.dir_of_prefix (List.prefix_append p [c]) hdir
        obtain ⟨hdots, hne⟩ := hp hpar
        refine ⟨fun x hx => ?_, by simp [hne, Ne.symm hc]⟩
        rcases List.mem_append.mp hx with hx | hx
        · exact hdots x hx
        · rw [List.mem_singleton.mp hx]
          exact fun hd => hdot ⟨hpar, hd⟩

/-- What is left of a path name, read while more directories were there, gives
what it stood for then. -/
theorem toPath_again (h : ∀ p, fs'.node p = some .dir → fs.node p = some .dir) (s : Text) :
    (toPath fs' s).foldl (pushComponent fs) [] = toPath fs s :=
  foldl_pushComponent_again h _ fun _ => by simp [NoDots]

/-- When directories go, different paths stay different. -/
theorem toPath_ne_of_fewer (h : ∀ p, fs'.node p = some .dir → fs.node p = some .dir) {s r : Text}
    (hne : toPath fs s ≠ toPath fs r) : toPath fs' s ≠ toPath fs' r := by
  intro heq
  apply hne
  rw [← toPath_again h s, ← toPath_again h r, heq]

/-! ### Path names without dots -/

/-- A path name without dots. -/
def Straight (s : Text) : Prop := NoDots (s.splitOn '/')

instance (s : Text) : Decidable (Straight s) := inferInstanceAs (Decidable (NoDots _))

/-- The components of a path name. -/
def components (s : Text) : List Text := (s.splitOn '/').filter (· ≠ [])

theorem toPath_of_straight {s : Text} (h : Straight s) : toPath fs s = components s :=
  foldl_pushComponent_noDots _ h

end Paths

/-! ## Storage -/

/-- What becomes of a request to write a file. -/
inductive WriteOutcome where
  /-- All bytes are written. -/
  | done
  /-- The file cannot be opened. -/
  | refused
  /-- The file is opened and only some bytes reach it. -/
  | cut (n : Nat)
deriving DecidableEq

/-- The answers of the storage to requests the tree would allow. -/
structure Storage where
  /-- Whether a directory can be made. -/
  mkdir : List Text → Bool
  /-- Whether a file can be written. -/
  write : List Text → WriteOutcome

/-- The storage that refuses nothing. -/
def Storage.sound : Storage := ⟨fun _ => true, fun _ => .done⟩

/-- The storage that refuses everything. -/
def Storage.full : Storage := ⟨fun _ => false, fun _ => .refused⟩

/-- `new File(name).exists()`. -/
def fileExists (fs : Files) (name : Text) : Bool := fs.existsAt (toPath fs name)

/-- `new File(name).isDirectory()`. -/
def isDirectory (fs : Files) (name : Text) : Bool := fs.isDir (toPath fs name)

/-- Whether a directory can be made below one that is there.  There is no making
a `.` or a `..`: once what comes before it is made, it is there. -/
def Storage.makes (st : Storage) (p : List Text) : Bool :=
  st.mkdir p && p.getLast?.all fun c => ¬ IsDot c

/-- `new File(name).mkdirs()`: the flag and the files after it.  The method goes
up to the first parent that is there and makes one directory after the other
from there.  When one of them fails, those already made stay. -/
def mkdirs (st : Storage) (fs : Files) (name : Text) : Bool × Files :=
  fs.mkdirs st.makes (toPath fs name)

section Mkdirs

variable {st : Storage} {fs : Files} {name : Text}

theorem Storage.makes_of_noDots {p : List Text} (h : NoDots p) : st.makes p = st.mkdir p := by
  have hlast : (p.getLast?.all fun c => decide (¬ IsDot c)) = true := by
    rw [Option.all_eq_true]
    intro c hc
    exact decide_eq_true (h c (List.mem_of_getLast? hc))
  rw [Storage.makes, hlast, Bool.and_true]

/-- A path with a dot left in it is not passed to its end. -/
theorem noDots_of_reaches (h : fs.Reaches st.makes (toPath fs name)) :
    NoDots (toPath fs name) := by
  refine (toPath_cases fs name).resolve_right ?_
  rintro ⟨q, c, r, heq, hdot, -, hq⟩
  rw [heq] at h
  rcases h (q ++ [c]) (by simp) with hdir | ⟨-, hmakes⟩
  · exact hq (fs.dir_of_prefix (List.prefix_append _ _) hdir)
  · simp [Storage.makes, hdot] at hmakes

/-- `mkdirs` succeeds on a path name where nothing stands, without a dot below a
missing directory, if the storage makes every missing directory. -/
theorem mkdirs_eq_true_iff :
    (mkdirs st fs name).1 = true ↔
      fs.node (toPath fs name) = none ∧ NoDots (toPath fs name) ∧
        fs.Reaches st.mkdir (toPath fs name) := by
  rw [mkdirs, FileTree.mkdirs_eq_true_iff]
  refine and_congr_right fun _ => ⟨fun h => ?_, fun h q hq => ?_⟩
  · have hdots := noDots_of_reaches h
    refine ⟨hdots, fun q hq => ?_⟩
    rw [← Storage.makes_of_noDots (hdots.above hq)]
    exact h q hq
  · rw [Storage.makes_of_noDots (h.1.above hq)]
    exact h.2 q hq

/-- Below a directory a path name leaves no dot. -/
theorem not_isDot_of_toPath {q : List Text} {n : Text} (hq : q ++ [n] <+: toPath fs name)
    (hdir : fs.node q = some .dir) : ¬ IsDot n := by
  intro hdot
  rcases toPath_cases fs name with h | ⟨p, c, r, heq, -, hp, hnot⟩
  · exact h n (hq.subset (by simp)) hdot
  · rw [heq] at hq
    rcases FileTree.prefix_or_concat_prefix hq with hpre | hpre
    · exact hp n (hpre.subset (by simp)) hdot
    · -- what comes before the first dot is above the directory
      refine hnot (fs.dir_of_prefix ?_ hdir)
      rcases List.prefix_concat_iff.mp ((List.prefix_append p [c]).trans hpre) with h | h
      · exact absurd (h ▸ hpre) FileTree.not_concat_prefix
      · exact h

/-- A storage that refuses nothing makes a directory, unless a file is in the way. -/
theorem stuck_sound_iff :
    fs.Stuck Storage.sound.makes (toPath fs name) ↔ fs.Blocked (toPath fs name) := by
  refine ⟨fun h => ?_, fun h => h.stuck⟩
  by_contra hfree
  obtain ⟨hnone, hway⟩ := not_or.mp hfree
  obtain ⟨q, n, hq, hdir, hmissing⟩ := FileTree.exists_first_missing (not_not.mp hnone)
    fun q hq => by
      by_contra hq'
      exact hway ⟨q, hq, not_or.mp hq'⟩
  rcases h with h | h
  · exact hnone h
  · refine h (q ++ [n]) hq hmissing fun r hr => ?_
    rcases List.prefix_concat_iff.mp hr with rfl | hr
    · exact .inr ⟨hmissing, by
        simp [Storage.makes, Storage.sound, not_isDot_of_toPath hq hdir]⟩
    · exact .inl (fs.dir_of_prefix hr hdir)

variable {fs' : Files} {ok : Bool}

/-- Directories are made where nothing was, and nothing else changes. -/
theorem node_mkdirs (h : mkdirs st fs name = (ok, fs')) (q : List Text) :
    fs'.node q = fs.node q ∨
      q <+: toPath fs name ∧ fs.node q = none ∧ fs'.node q = some .dir := by
  have hnode : (mkdirs st fs name).2.node q = fs.node q ∨ q <+: toPath fs name ∧
      fs.node q = none ∧ (mkdirs st fs name).2.node q = some .dir ∧ st.makes q = true :=
    FileTree.node_mkdirs _ q
  rw [h] at hnode
  exact hnode.imp_right fun hq => ⟨hq.1, hq.2.1, hq.2.2.1⟩

theorem mkdirs_keeps (h : mkdirs st fs name = (ok, fs')) {q : List Text} (hq : fs.node q ≠ none) :
    fs'.node q = fs.node q :=
  (node_mkdirs h q).resolve_right fun hmade => hq hmade.2.1

theorem mkdirs_only (h : mkdirs st fs name = (ok, fs')) {q : List Text}
    (hq : ¬ q <+: toPath fs name) : fs'.node q = fs.node q :=
  (node_mkdirs h q).resolve_right fun hmade => hq hmade.1

/-- What is made is on the way to a directory the path name should pass. -/
theorem mkdirs_stops (h : mkdirs st fs name = (ok, fs')) {q : List Text}
    (hq : fs'.node q ≠ fs.node q) : ∃ p ∈ stops name, q <+: p := by
  obtain ⟨hpre, -, hmade⟩ := (node_mkdirs h q).resolve_left hq
  rcases toPath_stops fs name with ⟨heq, -⟩ | ⟨p, hp, c, r, heq, hdot, -, hnot⟩
  · exact ⟨normalise name, normalise_mem_stops name, heq ▸ hpre⟩
  · refine ⟨p, hp, ?_⟩
    rw [heq] at hpre
    refine (FileTree.prefix_or_concat_prefix hpre).resolve_right fun hlong => ?_
    -- no dot is made
    have hdir := fs'.dir_of_prefix hlong hmade
    have hold : fs.node (p ++ [c]) ≠ some .dir := fun hdir =>
      hnot (fs.dir_of_prefix (List.prefix_append _ _) hdir)
    have hmay : st.makes (p ++ [c]) = true := by
      rcases FileTree.node_mkdirs (toPath fs name) (p ++ [c]) with hsame | ⟨-, -, -, hmay⟩
      · rw [← mkdirs, h, hdir] at hsame
        exact absurd hsame.symm hold
      · exact hmay
    simp [Storage.makes, hdot] at hmay

/-- A success makes a directory where nothing was. -/
theorem mkdirs_dir (h : mkdirs st fs name = (true, fs')) :
    fs.node (toPath fs name) = none ∧ fs'.node (toPath fs name) = some .dir := by
  have hdir : fs.node (toPath fs name) = none ∧
      (mkdirs st fs name).2.node (toPath fs name) = some .dir :=
    FileTree.mkdirs_dir (congrArg Prod.fst h)
  rwa [h] at hdir

theorem noDots_of_mkdirs (h : mkdirs st fs name = (true, fs')) : NoDots (toPath fs name) :=
  (mkdirs_eq_true_iff.mp (congrArg Prod.fst h)).2.1

/-- The path names that are not dead stand for the same paths afterwards. -/
theorem toPath_mkdirs (h : mkdirs st fs name = (ok, fs')) {s : Text} (hs : NoDots (toPath fs s)) :
    toPath fs' s = toPath fs s :=
  toPath_of_dirs (fun p hp => by rw [mkdirs_keeps h (by simp [hp]), hp]) hs

end Mkdirs

/-- `new File(name).delete()`: the flag and the files after it. -/
def deleteFile (fs : Files) (name : Text) : Bool × Files :=
  match fs.delete (toPath fs name) with
  | some fs' => (true, fs')
  | none => (false, fs)

theorem node_deleteFile_of_ne {fs : Files} {name : Text} {q : List Text} (hq : q ≠ toPath fs name) :
    (deleteFile fs name).2.node q = fs.node q := by
  rw [deleteFile]
  split
  · next fs' h => rw [fs.node_delete h, if_neg hq]
  · rfl

theorem deleteFile_dead {fs : Files} {name : Text} (h : Dead fs (toPath fs name)) :
    deleteFile fs name = (false, fs) := by
  have hnone : fs.delete (toPath fs name) = none := by
    rw [FileTree.delete, dif_neg]
    rintro ⟨-, hex, -⟩
    exact fs.existsAt_iff.mp hex h.node.1
  rw [deleteFile, hnone]

theorem dir_of_deleteFile {fs : Files} {name : Text} {q : List Text}
    (h : (deleteFile fs name).2.node q = some .dir) : fs.node q = some .dir := by
  rw [deleteFile] at h
  split at h
  · next fs' hdel =>
    rw [fs.node_delete hdel] at h
    split at h
    · cases h
    · exact h
  · exact h

/-- Deleting what is no directory changes no path name. -/
theorem toPath_deleteFile {fs : Files} {name : Text}
    (h : fs.node (toPath fs name) ≠ some .dir) (s : Text) :
    toPath (deleteFile fs name).2 s = toPath fs s := by
  refine toPath_congr (fun q => ⟨dir_of_deleteFile, fun hq => ?_⟩) s
  rw [node_deleteFile_of_ne, hq]
  rintro rfl
  exact h hq

/-- `new File(name).createNewFile()`: the files after it. -/
def createNewFile (st : Storage) (fs : Files) (name : Text) : Files :=
  match st.write (toPath fs name) with
  | .refused => fs
  | _ => (fs.createNew (toPath fs name) []).getD fs

theorem node_createNewFile_of_ne {st : Storage} {fs : Files} {name : Text} {q : List Text}
    (hq : q ≠ toPath fs name) : (createNewFile st fs name).node q = fs.node q := by
  rw [createNewFile]
  split
  · rfl
  · cases h : fs.createNew (toPath fs name) [] with
    | none => rfl
    | some fs' => rw [Option.getD_some, fs.node_createNew h, if_neg hq]

theorem dir_createNewFile_iff (st : Storage) (fs : Files) (name : Text) (q : List Text) :
    (createNewFile st fs name).node q = some .dir ↔ fs.node q = some .dir := by
  rw [createNewFile]
  split
  · rfl
  · cases h : fs.createNew (toPath fs name) [] with
    | none => rfl
    | some fs' =>
        rw [Option.getD_some, fs.node_createNew h]
        split
        · next hq => simp [hq, fs.node_of_createNew h]
        · rfl

/-- `new File(src).renameTo(new File(dst))`. -/
def renameTo (fs : Files) (src dst : Text) : Option Files :=
  fs.rename (toPath fs src) (toPath fs dst)

end HapAndroid
