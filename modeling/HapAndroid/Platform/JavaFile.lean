import HapAndroid.Platform.Files

/-!
# `java.io.File`

A `File` normalises its path name: slashes that follow each other are one, and one at the end is
dropped.  So it holds the names between the slashes and whether there is a slash in front.  Parents
and names are taken off the text; dots are resolved by the system, which walks from directory to
directory (`walk`).  The working directory of an app is the root.
-/

namespace HapAndroid

/-- The names of a normalised path name, and whether it starts at the root. -/
structure JavaFile where
  absolute : Bool
  names : List Text
  ok : ∀ n ∈ names, n ≠ [] ∧ '/' ∉ n

theorem notMem_of_mem_splitOn {a : Char} {s n : Text} (h : n ∈ s.splitOn a) : a ∉ n := by
  induction s generalizing n with
  | nil =>
      rw [List.splitOn_nil, List.mem_singleton] at h
      exact h ▸ List.not_mem_nil
  | cons c s ih =>
      rw [List.splitOn_cons_eq_if_modifyHead] at h
      split at h
      · rcases List.mem_cons.mp h with rfl | h
        · exact List.not_mem_nil
        · exact ih h
      · next hc =>
        obtain ⟨w, ws, hws⟩ := List.exists_cons_of_ne_nil (List.splitOn_ne_nil a s)
        rw [hws] at h ih
        rcases List.mem_cons.mp h with rfl | h
        · have hw := ih List.mem_cons_self
          simp only [beq_iff_eq] at hc
          exact List.not_mem_cons_of_ne_of_not_mem (Ne.symm hc) hw
        · exact ih (List.mem_cons_of_mem w h)

theorem ok_components {s : Text} : ∀ n ∈ components s, n ≠ [] ∧ '/' ∉ n := by
  intro n hn
  obtain ⟨hmem, hne⟩ := List.mem_filter.mp hn
  exact ⟨of_decide_eq_true hne, notMem_of_mem_splitOn hmem⟩

theorem components_append (s t : Text) :
    components (s ++ '/' :: t) = components s ++ components t := by
  rw [components, List.splitOn_append_cons_self, List.filter_append]
  rfl

theorem components_single {n : Text} (hne : n ≠ []) (hslash : '/' ∉ n) : components n = [n] := by
  rw [components, List.splitOn_eq_singleton hslash, List.filter_cons_of_pos (by simpa using hne)]
  rfl

theorem components_intercalate {ns : List Text} (h : ∀ n ∈ ns, n ≠ [] ∧ '/' ∉ n) :
    components (['/'].intercalate ns) = ns := by
  by_cases hnil : ns = []
  · subst hnil
    rfl
  · rw [components, List.splitOn_intercalate '/' (fun n hn => (h n hn).2) hnil]
    exact List.filter_eq_self.mpr fun n hn => by simpa using (h n hn).1

namespace JavaFile

/-- `new File(s)`. -/
def new (s : Text) : JavaFile := ⟨s.head? == some '/', components s, ok_components⟩

def getPath (f : JavaFile) : Text :=
  (if f.absolute then ['/'] else []) ++ ['/'].intercalate f.names

def getName (f : JavaFile) : Text := f.names.getLast?.getD []

/-- The file with its last name dropped. -/
def parent (f : JavaFile) : JavaFile :=
  ⟨f.absolute, f.names.dropLast, fun n hn => f.ok n (List.mem_of_mem_dropLast hn)⟩

/-- `f.getParent()`.  A relative path name of one name has no parent. -/
def getParent (f : JavaFile) : Option Text :=
  if f.names = [] ∨ f.absolute = false ∧ f.names.length = 1 then none
  else some f.parent.getPath

/-- `new File(dir, n)`. -/
def child (dir : JavaFile) (n : Text) : JavaFile := new (dir.getPath ++ '/' :: n)

/-- Go from a directory along some names. -/
def walk (fs : Files) : List Text → List Text → Option (List Text)
  | p, [] => some p
  | p, c :: cs => if fs.isDir p then walk fs (follow p c) cs else none

/-- The path with its dots resolved, whether or not it can be walked. -/
def path (f : JavaFile) : List Text := f.names.foldl follow []

/-- Where a file is.  The empty path name is nowhere. -/
def lookup (fs : Files) (f : JavaFile) : Option (List Text) :=
  if f.absolute = false ∧ f.names = [] then none else walk fs [] f.names

/-- `f.exists()`. -/
def existsIn (fs : Files) (f : JavaFile) : Bool := (f.lookup fs).any fs.existsAt

def isDirectory (fs : Files) (f : JavaFile) : Bool := (f.lookup fs).any fs.isDir

/-! ## Path names -/

theorem ext {f g : JavaFile} (ha : f.absolute = g.absolute) (hn : f.names = g.names) : f = g := by
  cases f
  cases g
  cases ha
  cases hn
  rfl

/-- A path name is read back. -/
theorem new_getPath (f : JavaFile) : new f.getPath = f := by
  obtain ⟨absolute, names, ok⟩ := f
  cases absolute with
  | true =>
      refine ext rfl ?_
      have happend := components_append [] (['/'].intercalate names)
      rw [List.nil_append, components_intercalate ok] at happend
      exact happend
  | false =>
      refine ext ?_ (components_intercalate ok)
      cases names with
      | nil => rfl
      | cons n ns =>
          obtain ⟨hne, hslash⟩ := ok n List.mem_cons_self
          obtain ⟨c, n, rfl⟩ := List.exists_cons_of_ne_nil hne
          have hc : c ≠ '/' := fun h => hslash (h ▸ List.mem_cons_self)
          have hhead : (['/'].intercalate ((c :: n) :: ns)).head? = some c := by
            cases ns <;> rfl
          change ((['/'].intercalate ((c :: n) :: ns)).head? == some '/') = false
          rw [hhead]
          simpa using hc

theorem getPath_ne_nil {f : JavaFile} (h : f.names ≠ []) : f.getPath ≠ [] := by
  intro hnil
  have hnew := f.new_getPath
  rw [hnil] at hnew
  exact h (hnew ▸ rfl)

theorem names_child (dir : JavaFile) {n : Text} (hne : n ≠ []) (hslash : '/' ∉ n) :
    (dir.child n).names = dir.names ++ [n] := by
  change components _ = _
  rw [components_append, components_single hne hslash]
  exact congrArg (· ++ [n]) (congrArg names dir.new_getPath)

/-! ## Walking -/

theorem follow_plain {n : Text} (h : PlainName n) (p : List Text) : follow p n = p ++ [n] := by
  simp [follow, h.1, h.2.1, h.2.2.1]

theorem walk_append (fs : Files) (p cs ds : List Text) :
    walk fs p (cs ++ ds) = (walk fs p cs).bind fun q => walk fs q ds := by
  induction cs generalizing p with
  | nil => rfl
  | cons c cs ih =>
      rw [List.cons_append, walk, walk]
      split
      · exact ih _
      · rfl

theorem walk_eq {fs : Files} {p cs q : List Text} (h : walk fs p cs = some q) :
    q = cs.foldl follow p := by
  induction cs generalizing p with
  | nil => exact (Option.some.inj h).symm
  | cons c cs ih =>
      rw [walk] at h
      split at h
      · exact ih h
      · cases h

/-- Along plain names the walk gets to the path, if there is a directory at each stop. -/
theorem walk_plain {fs : Files} {p cs : List Text} (hplain : ∀ c ∈ cs, PlainName c)
    (hdir : ∀ ds, ds <+: cs → ds ≠ cs → fs.isDir (p ++ ds) = true) :
    walk fs p cs = some (p ++ cs) := by
  induction cs generalizing p with
  | nil => rw [walk, List.append_nil]
  | cons c cs ih =>
      obtain ⟨hc, hcs⟩ := List.forall_mem_cons.mp hplain
      have hp := hdir [] (List.nil_prefix) (List.cons_ne_nil c cs).symm
      rw [List.append_nil] at hp
      have hrest : ∀ ds, ds <+: cs → ds ≠ cs → fs.isDir (p ++ [c] ++ ds) = true := by
        intro ds hds hne
        have hcons := hdir (c :: ds) (List.cons_prefix_cons.mpr ⟨rfl, hds⟩)
          fun h => hne (List.cons.inj h).2
        rwa [List.append_assoc]
      rw [walk, if_pos hp, follow_plain hc, ih hcs hrest, List.append_assoc]
      rfl

/-- The file has no dots in it. -/
def Plain (f : JavaFile) : Prop := ∀ n ∈ f.names, PlainName n

instance (f : JavaFile) : Decidable f.Plain := List.decidableBAll ..

variable {fs : Files} {f : JavaFile}

theorem lookup_eq_path {q : List Text} (h : f.lookup fs = some q) : q = f.path := by
  rw [lookup] at h
  split at h
  · cases h
  · exact walk_eq h

theorem Plain.path_eq (h : f.Plain) : f.path = f.names := by
  have hfold : ∀ (ns p : List Text), (∀ n ∈ ns, PlainName n) →
      ns.foldl follow p = p ++ ns := by
    intro ns
    induction ns with
    | nil => exact fun p _ => (List.append_nil p).symm
    | cons n ns ih =>
        intro p hns
        obtain ⟨hn, hns⟩ := List.forall_mem_cons.mp hns
        rw [List.foldl_cons, follow_plain hn, ih _ hns, List.append_assoc]
        rfl
  exact hfold f.names [] h

/-- A file without dots is found where its names say. -/
theorem lookup_of_plain (hplain : f.Plain) (hne : f.getPath ≠ [])
    (hnode : fs.node f.names ≠ none) : f.lookup fs = some f.names := by
  have hsome : ¬ (f.absolute = false ∧ f.names = []) := by
    rintro ⟨habs, hnames⟩
    refine hne ?_
    rw [getPath, habs, hnames]
    rfl
  rw [lookup, if_neg hsome]
  refine walk_plain hplain fun ds hds hdne => fs.isDir_iff.mpr ?_
  obtain ⟨r, hr⟩ := hds
  refine fs.dir_of_append (r := r) ?_ (hr ▸ hnode)
  rintro rfl
  exact hdne (by simpa using hr)

theorem existsIn_iff_of_plain (hplain : f.Plain) (hne : f.getPath ≠ []) :
    f.existsIn fs = true ↔ fs.node f.names ≠ none := by
  rw [existsIn]
  constructor
  · intro h
    cases hp : f.lookup fs with
    | none =>
        rw [hp] at h
        cases h
    | some p =>
        obtain rfl : p = f.names := (lookup_eq_path hp).trans hplain.path_eq
        rw [hp] at h
        exact fs.existsAt_iff.mp h
  · intro h
    rw [lookup_of_plain hplain hne h]
    exact fs.existsAt_iff.mpr h

theorem getName_child {n : Text} (hn : PlainName n) : (f.child n).getName = n := by
  rw [getName, names_child f hn.1 hn.2.2.2, List.getLast?_concat]
  rfl

/-- An entry is found in its directory. -/
theorem lookup_child {p : List Text} {n : Text} (hf : f.lookup fs = some p)
    (hdir : fs.isDir p = true) (hn : PlainName n) : (f.child n).lookup fs = some (p ++ [n]) := by
  have hnames := names_child f hn.1 hn.2.2.2
  rw [lookup] at hf ⊢
  split at hf
  · cases hf
  · rw [if_neg (by simp [hnames]), hnames, walk_append, hf, Option.bind_some, walk, if_pos hdir,
      follow_plain hn]
    rfl

end JavaFile

/-- All entries of the tree have names that an entry can have. -/
def PlainTree (fs : Files) : Prop := ∀ p, fs.node p ≠ none → ∀ n ∈ p, PlainName n

theorem PlainTree.name {fs : Files} (h : PlainTree fs) {p : List Text} {n : Text}
    (hn : fs.node (p ++ [n]) ≠ none) : PlainName n :=
  h _ hn n List.mem_concat_self

/-- A tree that grows by plain paths stays plain. -/
theorem PlainTree.of_node {fs fs' : Files} (h : PlainTree fs)
    (hnode : ∀ q, fs'.node q ≠ none → fs.node q ≠ none ∨ ∀ n ∈ q, PlainName n) :
    PlainTree fs' := by
  intro q hq
  rcases hnode q hq with hq | hq
  · exact h q hq
  · exact hq

end HapAndroid
