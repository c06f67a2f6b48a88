import Mathlib.Data.List.Basic
import Mathlib.Data.List.Dedup
import Mathlib.Data.List.Infix

/-!
# File trees

A file tree maps paths to nodes.  A path is the list of names from the root.
The structure carries what makes the map a tree: the root is a directory, the
parent of every node is a directory, and a list of paths covers the nodes, so
the children of a directory can be listed.  An operation that would break one
of these is not defined on the tree, so an ill-formed tree cannot be built.

The operations are those of a POSIX file system, without links, as a program
sees them: each returns `none` when the system refuses it, and then nothing has
changed.  A `locked` node stands for a file that exists and may not be opened.
For every operation that can succeed there is one equation for the nodes of the
new tree (`node_put`, `node_delete`, `node_rename`).  `mkdirs` is the exception:
it makes one directory after the other, so it has a flag and a tree, and when it
fails on the way the directories it has made stay.  `mkdirs_made` and
`mkdirs_other` are its equations.
-/

/-- What stands at a path. -/
inductive Node (δ : Type) where
  /-- A directory. -/
  | dir
  /-- A file with its contents. -/
  | file (data : δ)
  /-- A file that may not be opened. -/
  | locked
deriving DecidableEq

/-- A finite tree of nodes. -/
structure FileTree (ν δ : Type) where
  /-- The node at a path. -/
  node : List ν → Option (Node δ)
  /-- A list that covers the nodes. -/
  paths : List (List ν)
  mem_paths : ∀ {p : List ν}, node p ≠ none → p ∈ paths
  root : node [] = some .dir
  parent : ∀ {p : List ν} {n : ν}, node (p ++ [n]) ≠ none → node p = some .dir

namespace FileTree

/-- The tree with a root and nothing else. -/
def bare {ν δ : Type} : FileTree ν δ where
  node
    | [] => some .dir
    | _ :: _ => none
  paths := [[]]
  mem_paths := by
    intro p hp
    cases p with
    | nil => exact List.mem_cons_self ..
    | cons n p => exact absurd rfl hp
  root := rfl
  parent := by
    intro p n hp
    cases p with
    | nil => exact absurd rfl hp
    | cons m p => exact absurd rfl hp

variable {ν δ : Type} (t : FileTree ν δ)

/-! ## Paths -/

/-- A path below a directory lies in the entry it starts with. -/
theorem concat_prefix_iff {p r : List ν} {m n : ν} : p ++ [m] <+: p ++ n :: r ↔ m = n := by
  rw [List.prefix_append_right_inj, List.cons_prefix_cons]
  simp

theorem not_concat_prefix {p : List ν} {n : ν} : ¬ p ++ [n] <+: p := by
  intro h
  have hlen := h.length_le
  rw [List.length_append, List.length_singleton] at hlen
  omega

/-! ## Queries -/

/-- Whether anything stands at a path. -/
def existsAt (p : List ν) : Bool := (t.node p).isSome

/-- Whether a directory stands at a path. -/
def isDir (p : List ν) : Bool :=
  match t.node p with
  | some .dir => true
  | _ => false

theorem isDir_iff {p : List ν} : t.isDir p = true ↔ t.node p = some .dir := by
  unfold isDir
  split
  · next h => simp [h]
  · next h => simpa using h

theorem isDir_eq_false_iff {p : List ν} : t.isDir p = false ↔ t.node p ≠ some .dir := by
  rw [ne_eq, ← t.isDir_iff, Bool.not_eq_true]

theorem existsAt_iff {p : List ν} : t.existsAt p = true ↔ t.node p ≠ none := by
  simp [existsAt, Option.isSome_iff_ne_none]

theorem existsAt_eq_false_iff {p : List ν} : t.existsAt p = false ↔ t.node p = none := by
  simp [existsAt]

/-- Every ancestor of a node is a directory. -/
theorem dir_of_append {p : List ν} : ∀ {r : List ν}, r ≠ [] → t.node (p ++ r) ≠ none →
    t.node p = some .dir := by
  intro r
  induction r using List.reverseRecOn with
  | nil => exact fun h => absurd rfl h
  | append_singleton r n ih =>
      intro _ h
      rw [← List.append_assoc] at h
      have hpr := t.parent h
      by_cases hr : r = []
      · rwa [hr, List.append_nil] at hpr
      · exact ih hr (by simp [hpr])

theorem dir_of_prefix {p q : List ν} (hpq : p <+: q) (hq : t.node q = some .dir) :
    t.node p = some .dir := by
  obtain ⟨r, rfl⟩ := hpq
  cases r with
  | nil => rwa [List.append_nil] at hq
  | cons n r => exact t.dir_of_append (List.cons_ne_nil n r) (by simp [hq])

theorem exists_of_append {p r : List ν} (h : t.node (p ++ r) ≠ none) : t.node p ≠ none := by
  cases r with
  | nil => rwa [List.append_nil] at h
  | cons n r => simp [t.dir_of_append (List.cons_ne_nil n r) h]

/-- Below a path whose parent is no directory there is no directory. -/
theorem not_dir_below {p : List ν} (hne : p ≠ []) (hpar : t.node p.dropLast ≠ some .dir) {q : List ν}
    (hq : p <+: q) : t.node q.dropLast ≠ some .dir := by
  obtain ⟨r, rfl⟩ := hq
  cases r using List.reverseRecOn with
  | nil => rwa [List.append_nil]
  | append_singleton r n =>
      rw [← List.append_assoc, List.dropLast_concat]
      intro hdir
      have hsplit : p ++ r = p.dropLast ++ (p.getLast hne :: r) := by
        rw [← List.singleton_append, ← List.append_assoc, List.dropLast_append_getLast hne]
      exact hpar (t.dir_of_append (List.cons_ne_nil _ _) (by rw [← hsplit, hdir]; simp))

variable [DecidableEq ν]

/-- The paths of the nodes directly below a path. -/
def children (p : List ν) : List (List ν) :=
  t.paths.dedup.filter fun q => decide (q ≠ []) && decide (q.dropLast = p) && t.existsAt q

theorem mem_children {p q : List ν} :
    q ∈ t.children p ↔ ∃ n, q = p ++ [n] ∧ t.node q ≠ none := by
  simp only [children, List.mem_filter, List.mem_dedup, Bool.and_eq_true, decide_eq_true_eq,
    existsAt_iff]
  constructor
  · rintro ⟨-, ⟨hne, hdrop⟩, hq⟩
    refine ⟨q.getLast hne, ?_, hq⟩
    rw [← hdrop, List.dropLast_concat_getLast]
  · rintro ⟨n, rfl, hq⟩
    exact ⟨t.mem_paths hq, ⟨by simp, by simp⟩, hq⟩

theorem children_eq_nil_iff {p : List ν} :
    t.children p = [] ↔ ∀ n, t.node (p ++ [n]) = none := by
  rw [List.eq_nil_iff_forall_not_mem]
  constructor
  · intro h n
    by_contra hn
    exact h _ (t.mem_children.mpr ⟨n, rfl, hn⟩)
  · intro h q hq
    obtain ⟨n, rfl, hn⟩ := t.mem_children.mp hq
    exact hn (h n)

theorem nodup_children (p : List ν) : (t.children p).Nodup :=
  (List.nodup_dedup _).filter _

/-! ## Height -/

/-- A bound of the lengths of the paths that lead to a node. -/
def height : Nat := (t.paths.map List.length).foldr max 0

omit [DecidableEq ν] in
theorem length_le_height {p : List ν} (h : t.node p ≠ none) : p.length ≤ t.height := by
  have hmem := t.mem_paths h
  rw [height]
  generalize t.paths = ps at hmem
  induction ps with
  | nil => cases hmem
  | cons q qs ih =>
      rw [List.map_cons, List.foldr_cons]
      rcases List.mem_cons.mp hmem with rfl | hmem
      · exact Nat.le_max_left ..
      · exact (ih hmem).trans (Nat.le_max_right ..)

/-! ## Setting and removing one node -/

/-- Set the node at a path that is no directory, below a directory. -/
def set (p : List ν) (x : Node δ) (hne : p ≠ []) (hpar : t.node p.dropLast = some .dir)
    (hleaf : t.node p ≠ some .dir) : FileTree ν δ where
  node q := if q = p then some x else t.node q
  paths := p :: t.paths
  mem_paths := by
    intro q hq
    by_cases h : q = p
    · exact h ▸ List.mem_cons_self ..
    · rw [if_neg h] at hq
      exact List.mem_cons_of_mem _ (t.mem_paths hq)
  root := by rw [if_neg (Ne.symm hne)]; exact t.root
  parent := by
    intro q n hq
    by_cases h : q ++ [n] = p
    · have hqd : q = p.dropLast := by rw [← h, List.dropLast_concat]
      have hqp : q ≠ p := by
        intro hqp
        rw [hqp] at h
        simp at h
      rw [if_neg hqp, hqd]
      exact hpar
    · rw [if_neg h] at hq
      have hdir := t.parent hq
      have hqp : q ≠ p := fun hqp => hleaf (hqp ▸ hdir)
      rw [if_neg hqp]
      exact hdir

/-- Remove a node that has nothing below it. -/
def erase (p : List ν) (hne : p ≠ []) (hempty : ∀ n, t.node (p ++ [n]) = none) :
    FileTree ν δ where
  node q := if q = p then none else t.node q
  paths := t.paths
  mem_paths := by
    intro q hq
    by_cases h : q = p
    · rw [if_pos h] at hq
      exact absurd rfl hq
    · rw [if_neg h] at hq
      exact t.mem_paths hq
  root := by rw [if_neg (Ne.symm hne)]; exact t.root
  parent := by
    intro q n hq
    by_cases h : q ++ [n] = p
    · rw [if_pos h] at hq
      exact absurd rfl hq
    · rw [if_neg h] at hq
      have hqp : q ≠ p := fun hqp => hq (hqp ▸ hempty n)
      rw [if_neg hqp]
      exact t.parent hq

/-- Put a node where the system allows a new entry. -/
def put (p : List ν) (x : Node δ) : Option (FileTree ν δ) :=
  if h : p ≠ [] ∧ t.isDir p.dropLast = true ∧ t.isDir p = false then
    some (t.set p x h.1 (t.isDir_iff.mp h.2.1) (t.isDir_eq_false_iff.mp h.2.2))
  else none

theorem put_eq_some {p : List ν} {x : Node δ} {t' : FileTree ν δ} (h : t.put p x = some t') :
    (p ≠ [] ∧ t.node p.dropLast = some .dir ∧ t.node p ≠ some .dir) ∧
      ∀ q, t'.node q = if q = p then some x else t.node q := by
  unfold put at h
  split at h
  · next hc =>
    rw [Option.some.injEq] at h
    subst h
    exact ⟨⟨hc.1, t.isDir_iff.mp hc.2.1, t.isDir_eq_false_iff.mp hc.2.2⟩, fun _ => rfl⟩
  · exact absurd h (by simp)

theorem node_put {p : List ν} {x : Node δ} {t' : FileTree ν δ} (h : t.put p x = some t')
    (q : List ν) : t'.node q = if q = p then some x else t.node q :=
  (t.put_eq_some h).2 q

theorem put_isSome {p : List ν} (x : Node δ) (hne : p ≠ []) (hpar : t.node p.dropLast = some .dir)
    (hleaf : t.node p ≠ some .dir) : ∃ t', t.put p x = some t' := by
  unfold put
  rw [dif_pos ⟨hne, t.isDir_iff.mpr hpar, t.isDir_eq_false_iff.mpr hleaf⟩]
  exact ⟨_, rfl⟩

theorem put_eq_none {p : List ν} (x : Node δ) (hpar : t.node p.dropLast ≠ some .dir) :
    t.put p x = none := by
  rw [Option.eq_none_iff_forall_ne_some]
  intro t' h
  exact hpar (t.put_eq_some h).1.2.1

/-! ## Files -/

/-- Open a file for writing and give it these contents. -/
def writeFile (p : List ν) (data : δ) : Option (FileTree ν δ) :=
  match t.node p with
  | some .locked => none
  | _ => t.put p (.file data)

theorem writeFile_eq_some {p : List ν} {data : δ} {t' : FileTree ν δ}
    (h : t.writeFile p data = some t') :
    t.node p ≠ some .locked ∧ t.put p (.file data) = some t' := by
  rw [writeFile] at h
  split at h
  · cases h
  · next hopen => exact ⟨hopen, h⟩

theorem node_writeFile {p : List ν} {data : δ} {t' : FileTree ν δ}
    (h : t.writeFile p data = some t') (q : List ν) :
    t'.node q = if q = p then some (.file data) else t.node q :=
  t.node_put (t.writeFile_eq_some h).2 q

theorem not_dir_of_writeFile {p : List ν} {data : δ} {t' : FileTree ν δ}
    (h : t.writeFile p data = some t') : t.node p ≠ some .dir :=
  (t.put_eq_some (t.writeFile_eq_some h).2).1.2.2

theorem writeFile_eq_none {p : List ν} (data : δ) (hpar : t.node p.dropLast ≠ some .dir) :
    t.writeFile p data = none := by
  rw [Option.eq_none_iff_forall_ne_some]
  intro t' h
  exact hpar (t.put_eq_some (t.writeFile_eq_some h).2).1.2.1

theorem writeFile_isSome {p : List ν} (data : δ) (hne : p ≠ [])
    (hpar : t.node p.dropLast = some .dir) (hfree : ∀ x, t.node p = some x → ∃ d, x = .file d) :
    ∃ t', t.writeFile p data = some t' := by
  have hleaf : t.node p ≠ some .dir := by
    intro h
    obtain ⟨d, hd⟩ := hfree _ h
    cases hd
  obtain ⟨t', ht'⟩ := t.put_isSome (.file data) hne hpar hleaf
  refine ⟨t', ?_⟩
  unfold writeFile
  split
  · next h =>
    obtain ⟨d, hd⟩ := hfree _ h
    cases hd
  · exact ht'

/-- Create a file that is not there. -/
def createNew (p : List ν) (data : δ) : Option (FileTree ν δ) :=
  if t.existsAt p then none else t.put p (.file data)

theorem node_createNew {p : List ν} {data : δ} {t' : FileTree ν δ}
    (h : t.createNew p data = some t') (q : List ν) :
    t'.node q = if q = p then some (.file data) else t.node q := by
  rw [createNew] at h
  split at h
  · cases h
  · exact t.node_put h q

theorem node_of_createNew {p : List ν} {data : δ} {t' : FileTree ν δ}
    (h : t.createNew p data = some t') : t.node p = none := by
  rw [createNew] at h
  split at h
  · cases h
  · next hfree => rwa [t.existsAt_iff, not_not] at hfree

/-- The contents of a file that can be opened. -/
def readFile (p : List ν) : Option δ :=
  match t.node p with
  | some (.file data) => some data
  | _ => none

omit [DecidableEq ν] in
theorem readFile_eq_some {p : List ν} {data : δ} :
    t.readFile p = some data ↔ t.node p = some (.file data) := by
  unfold readFile
  split
  · next d h => simp [h]
  · next h =>
    constructor
    · intro h'; cases h'
    · intro h'; exact absurd h' (h data)

/-- Remove a file, or a directory with nothing in it. -/
def delete (p : List ν) : Option (FileTree ν δ) :=
  if h : p ≠ [] ∧ t.existsAt p = true ∧ t.children p = [] then
    some (t.erase p h.1 (t.children_eq_nil_iff.mp h.2.2))
  else none

theorem node_delete {p : List ν} {t' : FileTree ν δ} (h : t.delete p = some t') (q : List ν) :
    t'.node q = if q = p then none else t.node q := by
  unfold delete at h
  split at h
  · rw [Option.some.injEq] at h
    subst h
    rfl
  · cases h

theorem delete_isSome {p : List ν} (hne : p ≠ []) (hex : t.node p ≠ none)
    (hempty : ∀ n, t.node (p ++ [n]) = none) : ∃ t', t.delete p = some t' := by
  rw [delete, dif_pos ⟨hne, t.existsAt_iff.mpr hex, t.children_eq_nil_iff.mpr hempty⟩]
  exact ⟨_, rfl⟩

/-- A directory with something in it is not removed. -/
theorem delete_eq_none {p : List ν} {n : ν} (h : t.node (p ++ [n]) ≠ none) :
    t.delete p = none := by
  rw [delete, dif_neg]
  rintro ⟨-, -, hempty⟩
  exact h (t.children_eq_nil_iff.mp hempty n)

/-- A node that is no directory has nothing below it. -/
theorem children_of_not_dir {p : List ν} (h : t.node p ≠ some .dir) : t.children p = [] := by
  rw [children_eq_nil_iff]
  intro n
  by_contra hn
  exact h (t.parent hn)

/-! ## Directories -/

/-- Create one directory where nothing stands. -/
def mkdir (p : List ν) : Option (FileTree ν δ) :=
  if t.existsAt p then none else t.put p .dir

theorem node_mkdir {p : List ν} {t' : FileTree ν δ} (h : t.mkdir p = some t') (q : List ν) :
    t'.node q = if q = p then some .dir else t.node q := by
  rw [mkdir] at h
  split at h
  · cases h
  · exact t.node_put h q

theorem mkdir_eq_none {p : List ν} (hpar : t.node p.dropLast ≠ some .dir) : t.mkdir p = none := by
  rw [mkdir]
  split
  · rfl
  · exact t.put_eq_none .dir hpar

theorem mkdir_isSome {p : List ν} (hne : p ≠ []) (hpar : t.node p.dropLast = some .dir)
    (hnone : t.node p = none) : ∃ t', t.mkdir p = some t' := by
  rw [mkdir, if_neg (by simp [existsAt, hnone])]
  exact t.put_isSome .dir hne hpar (by simp [hnone])

/-- Go down a path from a directory and make the directories that are not there,
as far as `may` allows it.  The flag says whether the end was reached.  What was
made on the way stays. -/
def ensureDir (may : List ν → Bool) (t : FileTree ν δ) : List ν → List ν → Bool × FileTree ν δ
  | _, [] => (true, t)
  | done, n :: rest =>
      match t.node (done ++ [n]) with
      | some .dir => ensureDir may t (done ++ [n]) rest
      | some _ => (false, t)
      | none =>
          match if may (done ++ [n]) then t.put (done ++ [n]) .dir else none with
          | some t' => ensureDir may t' (done ++ [n]) rest
          | none => (false, t)
termination_by structural _ todo => todo

/-- Make a directory and the missing ones above it.  A path where something
stands already is refused. -/
def mkdirs (may : List ν → Bool) (p : List ν) : Bool × FileTree ν δ :=
  if t.existsAt p then (false, t) else ensureDir may t [] p

/-- A directory stands at every step of the path, or can be made there. -/
def Reaches (may : List ν → Bool) (p : List ν) : Prop :=
  ∀ q, q <+: p → t.node q = some .dir ∨ t.node q = none ∧ may q = true

variable {t} {may : List ν → Bool}

omit [DecidableEq ν] in
theorem Reaches.above {p q : List ν} (h : t.Reaches may p) (hq : q <+: p) :
    t.Reaches may q :=
  fun r hr => h r (hr.trans hq)

omit [DecidableEq ν] in
theorem reaches_of_dir {p : List ν} (h : t.node p = some .dir) : t.Reaches may p :=
  fun _ hq => .inl (t.dir_of_prefix hq h)

/-- A directory that was made where it could be changes nothing about the ways. -/
theorem reaches_put_iff {u : FileTree ν δ} {p : List ν} (hnone : t.node p = none)
    (hmay : may p = true) (hu : t.put p .dir = some u) (q : List ν) :
    u.Reaches may q ↔ t.Reaches may q := by
  refine forall₂_congr fun r _ => ?_
  rw [t.node_put hu]
  split
  · next h => simp [h, hnone, hmay]
  · rfl

omit [DecidableEq ν] in
theorem prefix_or_concat_prefix {p q r : List ν} {n : ν} (h : q <+: p ++ n :: r) :
    q <+: p ∨ p ++ [n] <+: q := by
  have hn : p ++ [n] <+: p ++ n :: r := by simp
  rcases List.prefix_or_prefix_of_prefix h hn with hq | hq
  · rcases List.prefix_concat_iff.mp hq with rfl | hq
    · exact .inr (List.prefix_refl _)
    · exact .inl hq
  · exact .inr hq

omit [DecidableEq ν] in
/-- A path is passed no further than up to a step that is no directory and cannot
be made. -/
theorem not_reaches_of_stop {n : ν} {done : List ν} (rest : List ν)
    (hd : t.node done = some .dir) (hdir : t.node (done ++ [n]) ≠ some .dir)
    (hmake : ¬ (t.node (done ++ [n]) = none ∧ may (done ++ [n]) = true)) :
    ¬ t.Reaches may (done ++ n :: rest) ∧
      ∀ q, q <+: done ++ n :: rest → t.Reaches may q → t.node q = some .dir := by
  refine ⟨fun hr => ?_, fun q hq hr => ?_⟩
  · exact (hr (done ++ [n]) (by simp)).elim hdir hmake
  · rcases prefix_or_concat_prefix hq with hq | hq
    · exact t.dir_of_prefix hq hd
    · exact absurd (hr (done ++ [n]) hq) (not_or.mpr ⟨hdir, hmake⟩)

/-- What `ensureDir` answers and what it makes: the steps of the path up to the
first one that cannot be passed. -/
theorem ensureDir_spec : ∀ (todo : List ν) (t : FileTree ν δ) (done : List ν),
    t.node done = some .dir →
      ((ensureDir may t done todo).1 = true ↔ t.Reaches may (done ++ todo)) ∧
      ∀ q, (q <+: done ++ todo → t.Reaches may q →
          (ensureDir may t done todo).2.node q = some .dir) ∧
        (¬ (q <+: done ++ todo ∧ t.Reaches may q) →
          (ensureDir may t done todo).2.node q = t.node q)
  | [], t, done, hd => by
      rw [ensureDir, List.append_nil]
      exact ⟨iff_of_true rfl (reaches_of_dir hd),
        fun q => ⟨fun hq _ => t.dir_of_prefix hq hd, fun _ => rfl⟩⟩
  | n :: rest, t, done, hd => by
      have hassoc : done ++ n :: rest = (done ++ [n]) ++ rest := by simp
      rw [ensureDir]
      split
      · next hdir =>
        rw [hassoc]
        exact ensureDir_spec rest t (done ++ [n]) hdir
      · next x hx hnode =>
        have hdir : t.node (done ++ [n]) ≠ some .dir := by simpa [hnode] using hx
        have hmake : ¬ (t.node (done ++ [n]) = none ∧ may (done ++ [n]) = true) := by simp [hnode]
        obtain ⟨hnot, hmade⟩ := not_reaches_of_stop rest hd hdir hmake
        exact ⟨iff_of_false Bool.false_ne_true hnot, fun q => ⟨hmade q, fun _ => rfl⟩⟩
      · next hnone =>
        split
        · next u hu =>
          split at hu
          · next hmay =>
            have hmade : u.node (done ++ [n]) = some .dir := by rw [t.node_put hu, if_pos rfl]
            obtain ⟨hflag, hnodes⟩ := ensureDir_spec rest u (done ++ [n]) hmade
            simp only [reaches_put_iff hnone hmay hu] at hflag hnodes
            rw [hassoc]
            refine ⟨hflag, fun q => ⟨(hnodes q).1, fun hq => ?_⟩⟩
            rw [(hnodes q).2 hq, t.node_put hu, if_neg]
            rintro rfl
            exact hq ⟨List.prefix_append _ _,
              ((reaches_put_iff hnone hmay hu _).mp (reaches_of_dir hmade))⟩
          · cases hu
        · next hu =>
          have hmake : ¬ (t.node (done ++ [n]) = none ∧ may (done ++ [n]) = true) := by
            rintro ⟨-, hmay⟩
            obtain ⟨u, hput⟩ := t.put_isSome .dir (p := done ++ [n]) (by simp)
              (by rwa [List.dropLast_concat]) (by simp [hnone])
            rw [if_pos hmay, hput] at hu
            cases hu
          obtain ⟨hnot, hmade⟩ := not_reaches_of_stop rest hd (by simp [hnone]) hmake
          exact ⟨iff_of_false Bool.false_ne_true hnot, fun q => ⟨hmade q, fun _ => rfl⟩⟩

theorem mkdirs_of_exists {p : List ν} (h : t.node p ≠ none) : t.mkdirs may p = (false, t) := by
  rw [mkdirs, if_pos (t.existsAt_iff.mpr h)]

theorem mkdirs_of_free {p : List ν} (h : t.node p = none) :
    t.mkdirs may p = ensureDir may t [] p := by
  rw [mkdirs, if_neg (by simp [existsAt, h])]

/-- `mkdirs` succeeds where nothing stands and the whole path can be passed. -/
theorem mkdirs_eq_true_iff {p : List ν} :
    (t.mkdirs may p).1 = true ↔ t.node p = none ∧ t.Reaches may p := by
  by_cases h : t.node p = none
  · rw [mkdirs_of_free h, (ensureDir_spec p t [] t.root).1, List.nil_append, and_iff_right h]
  · rw [mkdirs_of_exists h]
    simp [h]

/-- `mkdirs` makes the steps of its path up to the first one that cannot be
passed, also when it fails in the end. -/
theorem mkdirs_made {p q : List ν} (hp : t.node p = none) (hq : q <+: p) (h : t.Reaches may q) :
    (t.mkdirs may p).2.node q = some .dir := by
  rw [mkdirs_of_free hp]
  exact ((ensureDir_spec p t [] t.root).2 q).1 hq h

theorem mkdirs_other {p q : List ν} (h : ¬ (t.node p = none ∧ q <+: p ∧ t.Reaches may q)) :
    (t.mkdirs may p).2.node q = t.node q := by
  by_cases hp : t.node p = none
  · rw [mkdirs_of_free hp]
    exact ((ensureDir_spec p t [] t.root).2 q).2 fun hq => h ⟨hp, hq⟩
  · rw [mkdirs_of_exists hp]

/-- `mkdirs` makes directories where nothing was, and changes nothing else. -/
theorem node_mkdirs (p q : List ν) :
    (t.mkdirs may p).2.node q = t.node q ∨
      q <+: p ∧ t.node q = none ∧ (t.mkdirs may p).2.node q = some .dir ∧ may q = true := by
  by_cases h : t.node p = none ∧ q <+: p ∧ t.Reaches may q
  · have hmade := mkdirs_made h.1 h.2.1 h.2.2
    rcases h.2.2 q (List.prefix_refl q) with hdir | ⟨hnone, hmay⟩
    · exact .inl (hmade.trans hdir.symm)
    · exact .inr ⟨h.2.1, hnone, hmade, hmay⟩
  · exact .inl (mkdirs_other h)

/-- `mkdirs` makes its path a directory that was not there. -/
theorem mkdirs_dir {p : List ν} (h : (t.mkdirs may p).1 = true) :
    t.node p = none ∧ (t.mkdirs may p).2.node p = some .dir := by
  obtain ⟨hp, hr⟩ := mkdirs_eq_true_iff.mp h
  exact ⟨hp, mkdirs_made hp (List.prefix_refl p) hr⟩

/-- Nothing can be made: something stands at the end of the path, or its first
missing step cannot be passed. -/
def Stuck (t : FileTree ν δ) (may : List ν → Bool) (p : List ν) : Prop :=
  t.node p ≠ none ∨ ∀ q, q <+: p → t.node q = none → ¬ t.Reaches may q

/-- `mkdirs` leaves the files as they were where it can make nothing. -/
theorem mkdirs_unchanged_iff {p : List ν} :
    (∀ q, (t.mkdirs may p).2.node q = t.node q) ↔ t.Stuck may p := by
  constructor
  · intro h
    refine or_iff_not_imp_left.mpr fun hp q hq hnone hr => ?_
    have hmade := mkdirs_made (not_not.mp hp) hq hr
    rw [h q, hnone] at hmade
    cases hmade
  · intro h q
    rcases node_mkdirs p q with heq | ⟨hq, hnone, hmade, -⟩
    · exact heq
    · rcases h with hp | hstuck
      · rw [mkdirs_of_exists hp]
      · exact mkdirs_other fun hr => hstuck q hq hnone hr.2.2

omit [DecidableEq ν] in
/-- Where no file is on the way, a missing path has a first missing step. -/
theorem exists_first_missing {p : List ν} (hp : t.node p = none)
    (hfree : ∀ q, q <+: p → t.node q = none ∨ t.node q = some .dir) :
    ∃ q n, q ++ [n] <+: p ∧ t.node q = some .dir ∧ t.node (q ++ [n]) = none := by
  induction p using List.reverseRecOn with
  | nil =>
      rw [t.root] at hp
      cases hp
  | append_singleton p n ih =>
      rcases hfree p (List.prefix_append _ _) with hnone | hdir
      · obtain ⟨q, m, hq, h⟩ := ih hnone fun q hq => hfree q (hq.trans (List.prefix_append _ _))
        exact ⟨q, m, hq.trans (List.prefix_append _ _), h⟩
      · exact ⟨p, n, List.prefix_refl _, hdir, hp⟩

/-- Where something stands, or a file on the way to it, no directory can be made. -/
def Blocked (t : FileTree ν δ) (p : List ν) : Prop :=
  t.node p ≠ none ∨ ∃ q, q <+: p ∧ t.node q ≠ none ∧ t.node q ≠ some .dir

omit [DecidableEq ν] in
theorem Blocked.stuck {p : List ν} (h : t.Blocked p) : t.Stuck may p := by
  refine h.imp_right ?_
  rintro ⟨q, hq, hex, hfile⟩ r hr hnone hreach
  rcases List.prefix_or_prefix_of_prefix hq hr with hqr | ⟨s, rfl⟩
  · rcases hreach q hqr with hdir | ⟨hmissing, -⟩
    · exact hfile hdir
    · exact hex hmissing
  · exact t.exists_of_append hex hnone

variable (t)

/-! ## Renaming -/

/-- The nodes after the subtree at `src` has moved to `dst`. -/
def movedNode (src dst q : List ν) : Option (Node δ) :=
  if dst <+: q then t.node (src ++ q.drop dst.length)
  else if src <+: q then none
  else t.node q

/-- What may stand at the target: nothing, an empty directory for a directory,
a file for a file. -/
def replaceable (src dst : List ν) : Bool :=
  match t.node src, t.node dst with
  | none, _ => false
  | some _, none => true
  | some .dir, some .dir => (t.children dst).isEmpty
  | some .dir, some _ => false
  | some _, some .dir => false
  | some _, some _ => true

theorem exists_of_replaceable {src dst : List ν} (h : t.replaceable src dst = true) :
    t.node src ≠ none := by
  intro hn
  unfold replaceable at h
  rw [hn] at h
  cases h

theorem children_of_replaceable {src dst : List ν} (h : t.replaceable src dst = true) :
    t.children dst = [] := by
  by_cases hdst : t.node dst = some .dir
  · obtain ⟨x, hsrc⟩ := Option.ne_none_iff_exists'.mp (t.exists_of_replaceable h)
    unfold replaceable at h
    rw [hsrc, hdst] at h
    cases x with
    | dir => exact List.isEmpty_iff.mp h
    | file data => cases h
    | locked => cases h
  · exact t.children_of_not_dir hdst

/-- Move the subtree at `src` to `dst`. -/
def move (src dst : List ν) (hsrc : src ≠ []) (hdst : dst ≠ [])
    (hpar : t.node dst.dropLast = some .dir) (hout : ¬ src <+: dst) : FileTree ν δ where
  node := t.movedNode src dst
  paths := t.paths ++ t.paths.map fun q => dst ++ q.drop src.length
  mem_paths := by
    intro q hq
    unfold movedNode at hq
    split at hq
    · next hd =>
      obtain ⟨r, rfl⟩ := hd
      rw [List.drop_left] at hq
      refine List.mem_append_right _ (List.mem_map.mpr ⟨src ++ r, t.mem_paths hq, ?_⟩)
      rw [List.drop_left]
    · split at hq
      · exact absurd rfl hq
      · exact List.mem_append_left _ (t.mem_paths hq)
  root := by
    unfold movedNode
    rw [if_neg (by simpa using hdst), if_neg (by simpa using hsrc)]
    exact t.root
  parent := by
    intro q n hq
    unfold movedNode at hq ⊢
    by_cases hd : dst <+: q
    · obtain ⟨r, rfl⟩ := hd
      have hdr : dst <+: dst ++ r ++ [n] := by
        rw [List.append_assoc]; exact List.prefix_append _ _
      rw [if_pos hdr, List.append_assoc, List.drop_left, ← List.append_assoc] at hq
      rw [if_pos (List.prefix_append _ _), List.drop_left]
      exact t.parent hq
    · by_cases hdn : dst <+: q ++ [n]
      · -- the moved subtree hangs below `q`, which is the parent of the target
        have hqn : dst = q ++ [n] := by
          rcases List.prefix_concat_iff.mp hdn with h | h
          · exact h
          · exact absurd h hd
        have hqd : q = dst.dropLast := by rw [hqn, List.dropLast_concat]
        have hsq : ¬ src <+: q := by
          intro h
          exact hout (h.trans (hqn ▸ List.prefix_append _ _))
        rw [if_neg hd, if_neg hsq, hqd]
        exact hpar
      · rw [if_neg hdn] at hq
        by_cases hs : src <+: q ++ [n]
        · rw [if_pos hs] at hq
          exact absurd rfl hq
        · rw [if_neg hs] at hq
          have hsq : ¬ src <+: q := fun h => hs (h.trans (List.prefix_append _ _))
          rw [if_neg hd, if_neg hsq]
          exact t.parent hq

/-- Rename a file or a directory. -/
def rename (src dst : List ν) : Option (FileTree ν δ) :=
  if src = dst then (if t.existsAt src then some t else none)
  else if h : src ≠ [] ∧ dst ≠ [] ∧ t.isDir dst.dropLast = true ∧ ¬ src <+: dst ∧
      t.replaceable src dst = true then
    some (t.move src dst h.1 h.2.1 (t.isDir_iff.mp h.2.2.1) h.2.2.2.1)
  else none

/-- A rename that succeeds moves the subtree.  The target held nothing that is
lost, and is not an ancestor of the source. -/
theorem node_rename {src dst : List ν} {t' : FileTree ν δ} (h : t.rename src dst = some t')
    (hne : src ≠ dst) :
    t.node src ≠ none ∧ t.children dst = [] ∧ ¬ src <+: dst ∧
      ∀ q, t'.node q = t.movedNode src dst q := by
  unfold rename at h
  rw [if_neg hne] at h
  split at h
  · next hc =>
    rw [Option.some.injEq] at h
    subst h
    exact ⟨t.exists_of_replaceable hc.2.2.2.2, t.children_of_replaceable hc.2.2.2.2,
      hc.2.2.2.1, fun _ => rfl⟩
  · cases h

theorem rename_self {src : List ν} {t' : FileTree ν δ} (h : t.rename src src = some t') :
    t' = t ∧ t.node src ≠ none := by
  unfold rename at h
  rw [if_pos rfl] at h
  split at h
  · next he =>
    rw [Option.some.injEq] at h
    exact ⟨h.symm, t.existsAt_iff.mp he⟩
  · cases h

/-! ## Trees of directories -/

/-- The tree with some directories, those above them, and nothing else. -/
def ofDirs (ps : List (List ν)) : FileTree ν δ where
  node q := if q = [] ∨ ∃ p ∈ ps, q <+: p then some .dir else none
  paths := [] :: ps.flatMap List.inits
  mem_paths := by
    intro q hq
    by_cases h : q = [] ∨ ∃ p ∈ ps, q <+: p
    · rcases h with rfl | ⟨p, hp, hqp⟩
      · exact List.mem_cons_self ..
      · exact List.mem_cons_of_mem _ (List.mem_flatMap.mpr ⟨p, hp, (List.mem_inits ..).mpr hqp⟩)
    · rw [if_neg h] at hq
      exact absurd rfl hq
  root := by rw [if_pos (.inl rfl)]
  parent := by
    intro q n hq
    by_cases h : q ++ [n] = [] ∨ ∃ p ∈ ps, q ++ [n] <+: p
    · obtain ⟨p, hp, hqp⟩ := h.resolve_left (by simp)
      rw [if_pos (.inr ⟨p, hp, (List.prefix_append _ _).trans hqp⟩)]
    · rw [if_neg h] at hq
      exact absurd rfl hq

theorem node_ofDirs (ps : List (List ν)) (q : List ν) :
    (ofDirs ps : FileTree ν δ).node q =
      if q = [] ∨ ∃ p ∈ ps, q <+: p then some .dir else none := rfl

end FileTree
