import Mathlib.Algebra.GroupWithZero.Nat
import Mathlib.Data.Fintype.Basic
import HapAndroid.Lib.OpenFiles
import HapAndroid.Lib.Pipes
import HapAndroid.Lib.Threads
import HapAndroid.Tool.Shell

/-!
# Shells that run side by side

`Shell` and `DShell` are threads.  Each counts itself with `si++`, which reads and writes the shared
counter, reads it once more for its own number, writes its script to the file of that number, and
has a process run the file.  It waits for the process, deletes the file, and only then reads what
the process has written to its pipes.

Here are all interleavings of any number of them with their processes.  A shell whose number is its
own runs its own script (`shells_isolated`), and numbers are different if no shell counts itself
while another does, until `si` has come round.  Two shells of one class with one number can run each
other's script (`same_number_mixes`).  Because the pipes are read at the end, a shell comes to its
end exactly if its script does and all that it writes fits into them (`hangs_iff`).

A process reads its script at once, and what it does depends on the script only.
-/

namespace HapAndroid.SuperUser

open OpenFiles (Store)

/-- The two classes. -/
inductive Kind where
  | shell
  | dshell
deriving DecidableEq

/-- The first letter of the files of a class. -/
def Kind.letter : Kind → Text
  | .shell => "s"
  | .dshell => "d"

/-- A thread: its class and its script. -/
structure Job where
  kind : Kind
  scripts : Text

/-- The bytes of the file that is run. -/
def Job.data (j : Job) : List UInt8 := Utf8.encode (cleanUp j.scripts)

/-- What `run` of the class does before the process, if nothing comes in between. -/
def Job.run (j : Job) (st : Storage) (privpath : Text) (si : Nat) (fs : Files) : Bool × Files :=
  match j.kind with
  | .shell => Shell.run st privpath si j.scripts fs
  | .dshell => DShell.run st privpath si j.scripts fs

def Job.tfile (privpath : Text) (j : Job) (n : Nat) : Text := tempFile privpath j.kind.letter n

theorem Job.node_run (j : Job) {st : Storage} {privpath : Text} {si : Nat} {fs : Files}
    (h : (j.run st privpath si fs).1 = true) :
    (j.run st privpath si fs).2.node
      (toPath fs (j.tfile privpath (si + 1))) = some (.file j.data) := by
  obtain ⟨kind, scripts⟩ := j
  cases kind with
  | shell => exact FileTool.node_writeBytes_self h
  | dshell => exact FileTool.node_writeBytes_self h

/-- How far `writeSDFile` came; its answer is not looked at. -/
inductive Written where
  /-- The file could not be opened. -/
  | refused
  | upTo (k : Nat)
deriving DecidableEq

/-- What a process has run. -/
inductive Ran where
  /-- `su` has run nothing. -/
  | denied
  /-- The script was not there. -/
  | missing
  | script (data : List UInt8)
deriving DecidableEq

/-- How far a process is, with the bytes in its pipes. -/
abbrev Progress := Pipes.Progress UInt8

/-- Where a thread is in `run`. -/
inductive Pc where
  | begin
  /-- `si` has been read for `si++`. -/
  | counting (r : Nat)
  /-- `si` has been written. -/
  | counted
  /-- The number has been read. -/
  | named (n : Nat)
  /-- The file is open and has some of the bytes. -/
  | writing (n i k : Nat)
  | closed (n : Nat) (w : Written)
  /-- The process has its command. -/
  | started (n : Nat) (w : Written) (root : Bool)
  /-- The process runs, or is held up by a full pipe. -/
  | waiting (n : Nat) (w : Written) (root : Bool) (r : Ran) (s : Progress)
  /-- The process has ended. -/
  | exited (n : Nat) (w : Written) (root : Bool) (r : Ran) (s : Progress)
  /-- The file is deleted and the output is reported. -/
  | done (n : Nat) (w : Written) (root : Bool) (r : Ran) (report : Text)
  /-- No process, or none that took its command. -/
  | failed (n : Nat) (w : Written)
deriving DecidableEq

/-- The number of a thread. -/
def Pc.number : Pc → Option Nat
  | .begin | .counting _ | .counted => none
  | .named n | .writing n _ _ | .closed n _ | .started n _ _ => some n
  | .waiting n _ _ _ _ | .exited n _ _ _ _ | .done n _ _ _ _ | .failed n _ => some n

/-- Between the first read of `si` and the last. -/
def Pc.counts : Pc → Bool
  | .counting _ | .counted => true
  | _ => false

/-- `run` is left. -/
def Pc.ended : Pc → Bool
  | .done _ _ _ _ _ | .failed _ _ => true
  | _ => false

/-- The steps of a thread, its process, and what the storage answers. -/
inductive Act where
  | load
  | store
  | name
  | openFile
  | refuse
  | write (m : Nat)
  /-- The last byte is written, or the storage takes no more. -/
  | close
  /-- A process is started, with `is_root` as it is then. -/
  | exec (root : Bool)
  | fail
  | deny
  | read
  /-- The process does the next thing. -/
  | go
  | exit
  | finish

/-- The statics and the private directory. -/
structure Shared where
  /-- How often `si` has been counted up. -/
  si : Nat
  files : Store Text UInt8

/-- The device: the private directory, the size of a pipe, and what the scripts do, one thing after
the other. -/
structure Device where
  privpath : Text
  pipe : Nat
  does : Bool → Ran → Nat → Pipes.Deed UInt8

/-- What is reported: first what came from the error stream. -/
def reportOf (s : Progress) : Text := Utf8.decode s.err ++ Utf8.decode s.out

namespace Device

variable (d : Device)

/-- A step of `run`. -/
def act (j : Job) (g : Shared) : Pc → Act → Option (Shared × Pc)
  | .begin, .load => some (g, .counting g.si)
  | .counting r, .store => some ({ g with si := r + 1 }, .counted)
  | .counted, .name => some (g, .named g.si)
  | .named n, .openFile =>
      some ({ g with files := g.files.create (j.tfile d.privpath n) },
        .writing n (g.files.blockFor (j.tfile d.privpath n)) 0)
  | .named n, .refuse => some (g, .closed n .refused)
  | .writing n i k, .write m =>
      if k + m ≤ j.data.length then
        some ({ g with files := g.files.writeAt i k ((j.data.drop k).take m) },
          .writing n i (k + m))
      else none
  | .writing n _ k, .close => some (g, .closed n (.upTo k))
  | .closed n w, .exec root => some (g, .started n w root)
  | .closed n w, .fail => some (g, .failed n w)
  | .started n w true, .deny => some (g, .waiting n w true .denied .start)
  | .started n w root, .read =>
      some (g, .waiting n w root
        ((g.files.content (j.tfile d.privpath n)).elim .missing .script) .start)
  | .waiting n w root r s, .go =>
      (Pipes.step d.pipe (d.does root r) s).map fun s' => (g, .waiting n w root r s')
  | .waiting n w root r s, .exit =>
      if d.does root r s.pos = .exit then some (g, .exited n w root r s) else none
  | .exited n w root r s, .finish =>
      some ({ g with files := g.files.remove (j.tfile d.privpath n) },
        .done n w root r (reportOf s))
  | _, _ => none

/-- What a step does. -/
inductive Move (j : Job) (g : Shared) : Pc → Shared → Pc → Prop
  | load : Move j g .begin g (.counting g.si)
  | store {r : Nat} : Move j g (.counting r) { g with si := r + 1 } .counted
  | name : Move j g .counted g (.named g.si)
  | openFile {n : Nat} : Move j g (.named n)
      { g with files := g.files.create (j.tfile d.privpath n) }
      (.writing n (g.files.blockFor (j.tfile d.privpath n)) 0)
  | refuse {n : Nat} : Move j g (.named n) g (.closed n .refused)
  | write {n i k m : Nat} (h : k + m ≤ j.data.length) : Move j g (.writing n i k)
      { g with files := g.files.writeAt i k ((j.data.drop k).take m) } (.writing n i (k + m))
  | close {n i k : Nat} : Move j g (.writing n i k) g (.closed n (.upTo k))
  | exec {n : Nat} {w : Written} {root : Bool} : Move j g (.closed n w) g (.started n w root)
  | fail {n : Nat} {w : Written} : Move j g (.closed n w) g (.failed n w)
  | deny {n : Nat} {w : Written} :
      Move j g (.started n w true) g (.waiting n w true .denied .start)
  | read {n : Nat} {w : Written} {root : Bool} : Move j g (.started n w root) g
      (.waiting n w root ((g.files.content (j.tfile d.privpath n)).elim .missing .script) .start)
  | go {n : Nat} {w : Written} {root : Bool} {r : Ran} {s s' : Progress}
      (h : Pipes.step d.pipe (d.does root r) s = some s') :
      Move j g (.waiting n w root r s) g (.waiting n w root r s')
  | exit {n : Nat} {w : Written} {root : Bool} {r : Ran} {s : Progress}
      (h : d.does root r s.pos = .exit) :
      Move j g (.waiting n w root r s) g (.exited n w root r s)
  | finish {n : Nat} {w : Written} {root : Bool} {r : Ran} {s : Progress} :
      Move j g (.exited n w root r s) { g with files := g.files.remove (j.tfile d.privpath n) }
        (.done n w root r (reportOf s))

variable {d} {j : Job} {g g' : Shared} {pc pc' : Pc} {a : Act}

theorem move_of_act (h : d.act j g pc a = some (g', pc')) : d.Move j g pc g' pc' := by
  unfold act at h
  split at h
  · cases h; exact .load
  · cases h; exact .store
  · cases h; exact .name
  · cases h; exact .openFile
  · cases h; exact .refuse
  · split at h
    · next hle => cases h; exact .write hle
    · cases h
  · cases h; exact .close
  · cases h; exact .exec
  · cases h; exact .fail
  · cases h; exact .deny
  · cases h; exact .read
  · obtain ⟨s', hstep, heq⟩ := Option.map_eq_some_iff.mp h
    cases heq
    exact .go hstep
  · split at h
    · next hexit => cases h; exact .exit hexit
    · cases h
  · cases h; exact .finish
  · cases h

theorem act_read (n : Nat) (w : Written) (root : Bool) : d.act j g (.started n w root) .read =
    some (g, .waiting n w root
      ((g.files.content (j.tfile d.privpath n)).elim .missing .script) .start) := by
  cases root <;> rfl

end Device

/-! ## Files and numbers -/

theorem toDigits_inj {m m' : Nat} (h : Nat.toDigits 10 m = Nat.toDigits 10 m') : m = m' := by
  rw [← Nat.ofDigitChars_ten_toDigits (n := m), h, Nat.ofDigitChars_ten_toDigits]

theorem toDigits_ne_minus (m : Nat) (t : Text) : Nat.toDigits 10 m ≠ '-' :: t := by
  intro h
  have hmem : '-' ∈ Nat.toDigits 10 m := h ▸ List.mem_cons_self ..
  exact absurd (Nat.isDigit_of_mem_toDigits (by decide) (by decide) hmem) (by decide)

/-- Two counters with one text are the same but for a full round. -/
theorem intText_inj {n n' : Nat} (h : intText n = intText n') : n % 2 ^ 32 = n' % 2 ^ 32 := by
  have hint : (Int32.ofNat n).toInt = (Int32.ofNat n').toInt := by
    rw [intText, intText] at h
    generalize (Int32.ofNat n).toInt = a at h ⊢
    generalize (Int32.ofNat n').toInt = b at h ⊢
    cases a with
    | ofNat m =>
        cases b with
        | ofNat m' => rw [toDigits_inj h]
        | negSucc m' => exact absurd h (toDigits_ne_minus _ _)
    | negSucc m =>
        cases b with
        | ofNat m' => exact absurd h.symm (toDigits_ne_minus _ _)
        | negSucc m' => rw [Nat.succ.inj (toDigits_inj (List.cons.inj h).2)]
  have hbits := congrArg BitVec.toNat (congrArg Int32.toBitVec (Int32.toInt_inj.mp hint))
  rwa [Int32.toBitVec_ofNat', Int32.toBitVec_ofNat', BitVec.toNat_ofNat, BitVec.toNat_ofNat]
    at hbits

theorem tempFile_inj {privpath : Text} {k k' : Kind} {n n' : Nat}
    (h : tempFile privpath k.letter n = tempFile privpath k'.letter n') :
    k = k' ∧ n % 2 ^ 32 = n' % 2 ^ 32 := by
  have htail := List.append_cancel_left h
  have hkind : k = k' := by
    cases k <;> cases k' <;> first | rfl | cases htail
  subst hkind
  have hname : intText n = intText n' := by simpa using (List.cons.inj htail).2
  exact ⟨rfl, intText_inj hname⟩

namespace Device.Move

variable {d : Device} {j : Job} {g g' : Shared} {pc pc' : Pc} {n : Nat}

/-- A number is kept. -/
theorem number (h : d.Move j g pc g' pc') (hn : pc.number = some n) : pc'.number = some n := by
  cases h <;> first | exact hn | cases hn

/-- Before it has its number a thread has none. -/
theorem number_eq_none (h : d.Move j g pc g' pc') (hn : pc' = .named n) : pc.number = none := by
  cases h <;> first | rfl | cases hn

/-- What a step does to the counter and to the number of the thread. -/
theorem counts (h : d.Move j g pc g' pc') :
    pc.number = none ∧ pc' = .counting g.si ∧ g'.si = g.si ∨
      (∃ r, pc = .counting r ∧ pc' = .counted ∧ g'.si = r + 1) ∨
      pc = .counted ∧ pc' = .named g.si ∧ g'.si = g.si ∨
      pc'.number = pc.number ∧ pc'.counts = false ∧ g'.si = g.si := by
  cases h with
  | load => exact .inl ⟨rfl, rfl, rfl⟩
  | store => exact .inr (.inl ⟨_, rfl, rfl, rfl⟩)
  | name => exact .inr (.inr (.inl ⟨rfl, rfl, rfl⟩))
  | _ => exact .inr (.inr (.inr ⟨rfl, rfl, rfl⟩))

end Device.Move

/-! ## The pool -/

abbrev Pool (ι : Type) := Threads.Pool ι Shared Pc

section
variable {ι : Type} [DecidableEq ι] (d : Device) (jobs : ι → Job)

omit [DecidableEq ι] in
/-- What each thread can do. -/
abbrev poolAct (i : ι) : Shared → Pc → Act → Option (Shared × Pc) := d.act (jobs i)

/-- One of the threads takes a step. -/
def poolStep : Pool ι → ι × Act → Option (Pool ι) := Threads.step (poolAct d jobs)

/-- No thread has begun. -/
def Pool.Fresh (p : Pool ι) : Prop := ∀ i, p.own i = .begin

variable {d jobs} {p p' : Pool ι} {e : ι × Act}

theorem poolStep_move (h : poolStep d jobs p e = some p') :
    d.Move (jobs e.1) p.shared (p.own e.1) p'.shared (p'.own e.1) ∧
      ∀ i, i ≠ e.1 → p'.own i = p.own i := by
  obtain ⟨hact, hsame⟩ := Threads.step_eq_some h
  exact ⟨Device.move_of_act hact, hsame⟩

theorem number_of_poolStep (h : poolStep d jobs p e = some p') {i : ι} {n : Nat}
    (hn : (p.own i).number = some n) : (p'.own i).number = some n := by
  obtain ⟨hmove, hsame⟩ := poolStep_move h
  rcases eq_or_ne i e.1 with rfl | hi
  · exact hmove.number hn
  · rwa [hsame i hi]

/-! ### What a thread owns -/

/-- What stands in the file of a thread when its process reads it: its script as far as it was
written, or what was there before. -/
def Job.left (privpath : Text) (before : Text → Option (List UInt8)) (j : Job) (n : Nat) :
    Written → Option (List UInt8)
  | .refused => before (j.tfile privpath n)
  | .upTo k => some (j.data.take k)

/-- What the process of a thread runs, unless it is denied. -/
def Job.runs (privpath : Text) (before : Text → Option (List UInt8)) (j : Job) (n : Nat)
    (w : Written) : Ran :=
  (j.left privpath before n w).elim .missing .script

variable (d) (before : Text → Option (List UInt8)) (j : Job) (g : Shared)

/-- What a thread can rely on. -/
def Owns : Pc → Prop
  | .begin | .counting _ | .counted => True
  | .named n => g.files.content (j.tfile d.privpath n) = before (j.tfile d.privpath n)
  | .writing n i k =>
      k ≤ j.data.length ∧ g.files.Holds (j.tfile d.privpath n) i (j.data.take k)
  | .closed n w | .started n w _ | .failed n w =>
      g.files.content (j.tfile d.privpath n) = j.left d.privpath before n w
  | .waiting n w root r s =>
      g.files.content (j.tfile d.privpath n) = j.left d.privpath before n w ∧
        (r = .denied ∨ r = j.runs d.privpath before n w) ∧
        Pipes.Reached d.pipe (d.does root r) s
  | .exited n w root r s =>
      g.files.content (j.tfile d.privpath n) = j.left d.privpath before n w ∧
        (r = .denied ∨ r = j.runs d.privpath before n w) ∧
        ∃ k, Pipes.Exits (d.does root r) k ∧ s = Pipes.upTo (d.does root r) k
  | .done n w root r report =>
      g.files.content (j.tfile d.privpath n) = none ∧
        (r = .denied ∨ r = j.runs d.privpath before n w) ∧
        ∃ k, Pipes.Exits (d.does root r) k ∧ report = reportOf (Pipes.upTo (d.does root r) k)

variable {d before j g} {g' : Shared} {pc pc' : Pc}

/-- A step keeps what the thread relies on, if the file of a new number has not been touched. -/
theorem Owns.move (h : Owns d before j g pc) (hmove : d.Move j g pc g' pc')
    (hnew : ∀ n, pc' = .named n →
      g.files.content (j.tfile d.privpath n) = before (j.tfile d.privpath n)) :
    Owns d before j g' pc' := by
  cases hmove with
  | load | store => trivial
  | name => exact hnew _ rfl
  | openFile => exact ⟨Nat.zero_le _, g.files.holds_create _⟩
  | refuse => exact h
  | @write n i k m hle =>
      have hholds := h.2.writeAt k ((j.data.drop k).take m)
      rw [OpenFiles.overwrite_take h.1] at hholds
      exact ⟨hle, hholds⟩
  | close => exact h.2.content
  | exec | fail => exact h
  | deny => exact ⟨h, .inl rfl, Pipes.reached_start⟩
  | read =>
      refine ⟨h, .inr ?_, Pipes.reached_start⟩
      rw [Job.runs, ← h]
  | go hstep => exact ⟨h.1, h.2.1, h.2.2.of_step hstep⟩
  | exit hexit => exact ⟨h.1, h.2.1, _, h.2.2.exits hexit, h.2.2.eq_upTo⟩
  | finish =>
      obtain ⟨-, hran, k, hexits, rfl⟩ := h
      exact ⟨g.files.content_remove _, hran, k, hexits, rfl⟩

/-- A step leaves the other files alone. -/
theorem Owns.others (h : Owns d before j g pc) (hmove : d.Move j g pc g' pc') {f : Text}
    (hf : ∀ n, pc'.number = some n → f ≠ j.tfile d.privpath n) :
    g'.files.content f = g.files.content f ∧
      ∀ i data, g.files.Holds f i data → g'.files.Holds f i data := by
  cases hmove with
  | openFile =>
      have hne := hf _ rfl
      exact ⟨g.files.content_create_of_ne hne, fun i data hi => hi.create_of_ne hne⟩
  | write =>
      have hne := hf _ rfl
      exact ⟨OpenFiles.Store.content_writeAt_of_ne h.2 hne _ _,
        fun i data => OpenFiles.Store.Holds.writeAt_of_ne h.2 hne _ _⟩
  | finish =>
      have hne := hf _ rfl
      exact ⟨g.files.content_remove_of_ne hne, fun i data hi => hi.remove_of_ne hne⟩
  | _ => exact ⟨rfl, fun i data hi => hi⟩

/-- What a thread relies on concerns its own file. -/
theorem Owns.frame (h : Owns d before j g pc)
    (hf : ∀ n, pc.number = some n →
      g'.files.content (j.tfile d.privpath n) = g.files.content (j.tfile d.privpath n) ∧
        ∀ i data, g.files.Holds (j.tfile d.privpath n) i data →
          g'.files.Holds (j.tfile d.privpath n) i data) : Owns d before j g' pc := by
  cases pc with
  | begin | counting | counted => trivial
  | named n => exact (hf n rfl).1.trans h
  | writing n i k => exact ⟨h.1, (hf n rfl).2 _ _ h.2⟩
  | closed n w => exact (hf n rfl).1.trans h
  | started n w root => exact (hf n rfl).1.trans h
  | failed n w => exact (hf n rfl).1.trans h
  | waiting n w root r s => exact ⟨(hf n rfl).1.trans h.1, h.2⟩
  | exited n w root r s => exact ⟨(hf n rfl).1.trans h.1, h.2⟩
  | done n w root r report => exact ⟨(hf n rfl).1.trans h.1, h.2⟩

end

/-! ### Threads with numbers of their own -/

section
variable {ι : Type} [DecidableEq ι] {d : Device} {jobs : ι → Job} {p p' : Pool ι} {e : ι × Act}
  {before : Text → Option (List UInt8)}

/-- Two threads do not have the same file. -/
def Apart (jobs : ι → Job) (i j : ι) (pc pc' : Pc) : Prop :=
  ∀ n n', (jobs i).kind = (jobs j).kind → pc.number = some n → pc'.number = some n' →
    n % 2 ^ 32 ≠ n' % 2 ^ 32

/-- The files of no thread are as they were. -/
def Untouched (d : Device) (jobs : ι → Job) (before : Text → Option (List UInt8)) (p : Pool ι) :
    Prop :=
  ∀ f, (∀ i n, (p.own i).number = some n → f ≠ (jobs i).tfile d.privpath n) →
    p.shared.files.content f = before f

omit [DecidableEq ι] in
theorem tfile_ne {i j : ι} {pc pc' : Pc} {n n' : Nat} (h : Apart jobs i j pc pc')
    (hn : pc.number = some n) (hn' : pc'.number = some n') (privpath : Text) :
    (jobs i).tfile privpath n ≠ (jobs j).tfile privpath n' := by
  intro heq
  obtain ⟨hkind, hround⟩ := tempFile_inj heq
  exact h n n' hkind hn hn' hround

theorem Untouched.step (h : Untouched d jobs before p)
    (howns : Owns d before (jobs e.1) p.shared (p.own e.1))
    (hstep : poolStep d jobs p e = some p') : Untouched d jobs before p' := by
  intro f hf
  obtain ⟨hmove, -⟩ := poolStep_move hstep
  rw [(howns.others hmove (hf e.1)).1]
  exact h f fun i n hn => hf i n (number_of_poolStep hstep hn)

/-- What a thread relies on, with the files that nobody has touched. -/
def Relies (d : Device) (jobs : ι → Job) (before : Text → Option (List UInt8)) (i : ι)
    (p : Pool ι) : Prop :=
  Owns d before (jobs i) p.shared (p.own i) ∧ Untouched d jobs before p

theorem Relies.own (hapart : Threads.AllApart (Apart jobs) p') (h : Relies d jobs before e.1 p)
    (hstep : poolStep d jobs p e = some p') : Relies d jobs before e.1 p' := by
  obtain ⟨hmove, hsame⟩ := poolStep_move hstep
  refine ⟨h.1.move hmove fun n hn => h.2 _ fun i m hm => ?_, h.2.step h.1 hstep⟩
  have hnumber : (p'.own e.1).number = some n := by rw [hn]; rfl
  rcases eq_or_ne i e.1 with rfl | hi
  · rw [hmove.number_eq_none hn] at hm
    cases hm
  · exact tfile_ne (hapart e.1 i hi.symm) hnumber (number_of_poolStep hstep hm) d.privpath

theorem Relies.other {i : ι} (hi : i ≠ e.1) (hapart : Threads.AllApart (Apart jobs) p')
    (h : Relies d jobs before i p) (he : Relies d jobs before e.1 p)
    (hstep : poolStep d jobs p e = some p') : Relies d jobs before i p' := by
  obtain ⟨hmove, hsame⟩ := poolStep_move hstep
  refine ⟨?_, h.2.step he.1 hstep⟩
  rw [hsame i hi]
  refine h.1.frame fun n hn => he.1.others hmove fun m hm => ?_
  exact tfile_ne (hapart i e.1 hi) (by rwa [hsame i hi]) hm d.privpath

/-- In every run that leaves the threads with files of their own, a thread can rely on its file. -/
theorem owns_of_run {es : List (ι × Act)} (hfresh : p.Fresh)
    (hrun : Run.run (poolStep d jobs) p es = some p')
    (hapart : Threads.AllApart (Apart jobs) p') (i : ι) :
    Owns d p.shared.files.content (jobs i) p'.shared (p'.own i) := by
  have hback : ∀ i j l m m' g g' a, d.act (jobs j) g m a = some (g', m') →
      (Apart jobs i j l m' → Apart jobs i j l m) ∧ (Apart jobs j i m' l → Apart jobs j i m l) := by
    intro i j l m m' g g' a hact
    have hmove := Device.move_of_act hact
    exact ⟨fun h n n' hkind hl hm => h n n' hkind hl (hmove.number hm),
      fun h n n' hkind hm => h n n' hkind (hmove.number hm)⟩
  have hstart : ∀ i, Relies d jobs p.shared.files.content i p := fun i =>
    ⟨by rw [hfresh i]; trivial, fun f _ => rfl⟩
  exact (Threads.run_stable hback (fun _ _ _ => Relies.own) (fun _ _ _ _ => Relies.other) hstart
    hrun hapart i).1

/-! ### Counting -/

/-- At most one thread is counting itself. -/
def OneCounts (p : Pool ι) : Prop :=
  ∀ i j, (p.own i).counts = true → (p.own j).counts = true → i = j

instance [Fintype ι] (p : Pool ι) : Decidable (OneCounts p) :=
  inferInstanceAs (Decidable (∀ _ _, _))

/-- The numbers that have been given since `si` was `base`, while at most one thread counts
itself. -/
structure Counted (base : Nat) (p : Pool ι) : Prop where
  base_le : base ≤ p.shared.si
  base_lt : ∀ i, p.own i = .counted → base < p.shared.si
  lt : ∀ i n, (p.own i).number = some n → base < n
  le : ∀ i n, (p.own i).number = some n → n ≤ p.shared.si
  inj : ∀ i j n, (p.own i).number = some n → (p.own j).number = some n → i = j
  counting : ∀ i r, p.own i = .counting r → r = p.shared.si
  counted : ∀ i j n, p.own i = .counted → (p.own j).number = some n → n < p.shared.si

variable {base : Nat}

theorem Counted.si_le (h : Counted base p) (hstep : poolStep d jobs p e = some p') :
    p'.shared.si = p.shared.si ∨
      p'.shared.si = p.shared.si + 1 ∧ p.own e.1 = .counting p.shared.si ∧
        p'.own e.1 = .counted := by
  rcases (poolStep_move hstep).1.counts with
    ⟨-, -, hsi⟩ | ⟨r, hpc, hpc', hsi⟩ | ⟨-, -, hsi⟩ | ⟨-, -, hsi⟩
  · exact .inl hsi
  · obtain rfl := h.counting e.1 r hpc
    exact .inr ⟨hsi, hpc, hpc'⟩
  · exact .inl hsi
  · exact .inl hsi

/-- A number in the next state was given before, or it is that of the counter. -/
theorem number_of_step {i : ι} {n : Nat} (hstep : poolStep d jobs p e = some p')
    (hn : (p'.own i).number = some n) : (p.own i).number = some n ∨
      i = e.1 ∧ p.own e.1 = .counted ∧ n = p.shared.si := by
  obtain ⟨hmove, hsame⟩ := poolStep_move hstep
  rcases eq_or_ne i e.1 with rfl | hi
  · rcases hmove.counts with ⟨-, hpc', -⟩ | ⟨r, -, hpc', -⟩ | ⟨hpc, hpc', -⟩ | ⟨hnumber, -, -⟩
    · rw [hpc'] at hn
      cases hn
    · rw [hpc'] at hn
      cases hn
    · rw [hpc'] at hn
      cases hn
      exact .inr ⟨rfl, hpc, rfl⟩
    · exact .inl (hnumber ▸ hn)
  · exact .inl (hsame i hi ▸ hn)

/-- A thread that has counted itself did so before, or in this step. -/
theorem Counted.lt_of_step (h : Counted base p) (hstep : poolStep d jobs p e = some p') {i : ι}
    (hi : p'.own i = .counted) : base < p'.shared.si := by
  obtain ⟨hmove, hsame⟩ := poolStep_move hstep
  have hbase := h.base_le
  have hsi := h.si_le hstep
  rcases eq_or_ne i e.1 with rfl | hne
  · rcases hmove.counts with ⟨-, hpc', -⟩ | ⟨r, hpc, -, hsi'⟩ | ⟨-, hpc', -⟩ | ⟨-, hpc', -⟩
    · cases hpc'.symm.trans hi
    · obtain rfl := h.counting _ r hpc
      omega
    · cases hpc'.symm.trans hi
    · rw [hi] at hpc'
      cases hpc'
  · rw [hsame i hne] at hi
    have hlt := h.base_lt i hi
    omega

theorem Counted.step (h : Counted base p) (hone : OneCounts p)
    (hstep : poolStep d jobs p e = some p') : Counted base p' := by
  have hsame := (poolStep_move hstep).2
  have hsi := h.si_le hstep
  refine ⟨?_, fun i => h.lt_of_step hstep, fun i n hn => ?_, fun i n hn => ?_,
    fun i j n hi hj => ?_, fun i r hi => ?_, fun i j n hi hj => ?_⟩
  · have hbase := h.base_le
    omega
  · rcases number_of_step hstep hn with hold | ⟨-, hpc, rfl⟩
    · exact h.lt i n hold
    · exact h.base_lt _ hpc
  · rcases number_of_step hstep hn with hold | ⟨-, -, rfl⟩
    · have := h.le i n hold
      omega
    · omega
  · rcases number_of_step hstep hi with hold | ⟨rfl, hpc, rfl⟩ <;>
      rcases number_of_step hstep hj with hold' | ⟨rfl, hpc', hn⟩
    · exact h.inj i j n hold hold'
    · exact absurd (h.counted e.1 i n hpc' hold) (by omega)
    · exact absurd (h.counted e.1 j _ hpc hold') (by omega)
    · rfl
  · rcases eq_or_ne i e.1 with rfl | hne
    · rcases (poolStep_move hstep).1.counts with
        ⟨-, hpc', hsi⟩ | ⟨r', -, hpc', -⟩ | ⟨-, hpc', -⟩ | ⟨-, hpc', -⟩
      · rw [hpc'] at hi
        cases hi
        exact hsi.symm
      · cases hpc'.symm.trans hi
      · cases hpc'.symm.trans hi
      · rw [hi] at hpc'
        cases hpc'
    · rw [hsame i hne] at hi
      rcases hsi with hsi | ⟨-, hpc, -⟩
      · rw [hsi]
        exact h.counting i r hi
      · exact absurd (hone i e.1 (by rw [hi]; rfl) (by rw [hpc]; rfl)) hne
  · rcases eq_or_ne i e.1 with rfl | hne
    · rcases (poolStep_move hstep).1.counts with
        ⟨-, hpc', -⟩ | ⟨r, hpc, -, hsi'⟩ | ⟨-, hpc', -⟩ | ⟨-, hpc', -⟩
      · cases hpc'.symm.trans hi
      · obtain rfl := h.counting _ r hpc
        rcases number_of_step hstep hj with hold | ⟨-, hpc'', -⟩
        · have := h.le j n hold
          omega
        · cases hpc.symm.trans hpc''
      · cases hpc'.symm.trans hi
      · rw [hi] at hpc'
        cases hpc'
    · rw [hsame i hne] at hi
      have hcounts : (p.own i).counts = true := by rw [hi]; rfl
      have hle : p.shared.si ≤ p'.shared.si := by omega
      rcases number_of_step hstep hj with hold | ⟨rfl, hpc, -⟩
      · exact Nat.lt_of_lt_of_le (h.counted i j n hi hold) hle
      · exact absurd (hone i e.1 hcounts (by rw [hpc]; rfl)) hne

theorem Counted.run {es : List (ι × Act)} (h : Counted base p)
    (hone : Run.Always (poolStep d jobs) OneCounts p es)
    (hrun : Run.run (poolStep d jobs) p es = some p') : Counted base p' := by
  induction es generalizing p with
  | nil =>
      cases hrun
      exact h
  | cons e es ih =>
      obtain ⟨q, hq, hrest⟩ := Run.run_cons_eq_some.mp hrun
      exact ih (h.step hone.1 hq) (hone.2 q hq) hrest

omit [DecidableEq ι] in
/-- Before `si` has come round no two threads have the same file. -/
theorem Counted.apart (h : Counted base p) (hwrap : p.shared.si ≤ base + 2 ^ 32) :
    Threads.AllApart (Apart jobs) p := by
  intro i j hij n n' _ hi hj hround
  have hne : n ≠ n' := by
    rintro rfl
    exact hij (h.inj i j n hi hj)
  have hn := h.lt i n hi
  have hn' := h.lt j n' hj
  have hle := h.le i n hi
  have hle' := h.le j n' hj
  omega

omit [DecidableEq ι] in
theorem counted_of_fresh (h : p.Fresh) : Counted p.shared.si p where
  base_le := Nat.le_refl _
  base_lt i hi := by rw [h i] at hi; cases hi
  lt i n hn := by rw [h i] at hn; cases hn
  le i n hn := by rw [h i] at hn; cases hn
  inj i j n hn := by rw [h i] at hn; cases hn
  counting i r hi := by rw [h i] at hi; cases hi
  counted i j n hi := by rw [h i] at hi; cases hi

/-- If no thread counts itself while another does, and `si` has not come round, a thread can rely on
its file. -/
theorem owns_of_oneCounts {es : List (ι × Act)} (hfresh : p.Fresh)
    (hone : Run.Always (poolStep d jobs) OneCounts p es)
    (hrun : Run.run (poolStep d jobs) p es = some p')
    (hwrap : p'.shared.si ≤ p.shared.si + 2 ^ 32) (i : ι) :
    Owns d p.shared.files.content (jobs i) p'.shared (p'.own i) :=
  owns_of_run hfresh hrun (((counted_of_fresh hfresh).run hone hrun).apart hwrap) i

/-- In every interleaving in which no thread counts itself while another does, and `si` does not
come round, a thread whose process has ended has run its own script, as far as it could be written,
or nothing if `su` denied it; it reports what that has written up to its exit, and its file is gone
then.  Only a thread that could not open its file runs what stood there.  A thread that has no
process leaves its file as it is. -/
theorem shells_isolated {es : List (ι × Act)} (hfresh : p.Fresh)
    (hone : Run.Always (poolStep d jobs) OneCounts p es)
    (hrun : Run.run (poolStep d jobs) p es = some p')
    (hwrap : p'.shared.si ≤ p.shared.si + 2 ^ 32) (i : ι) :
    (∀ n w root r report, p'.own i = .done n w root r report →
      (r = .denied ∨ r = (jobs i).runs d.privpath p.shared.files.content n w) ∧
        (∃ k, Pipes.Exits (d.does root r) k ∧
          report = reportOf (Pipes.upTo (d.does root r) k)) ∧
        p'.shared.files.content ((jobs i).tfile d.privpath n) = none) ∧
      ∀ n w, p'.own i = .failed n w →
        p'.shared.files.content ((jobs i).tfile d.privpath n) =
          (jobs i).left d.privpath p.shared.files.content n w := by
  have howns := owns_of_oneCounts hfresh hone hrun hwrap i
  constructor
  · intro n w root r report hdone
    rw [hdone] at howns
    exact ⟨howns.2.1, howns.2.2, howns.1⟩
  · intro n w hfailed
    rwa [hfailed] at howns

/-- Two threads of the two classes. -/
def twoJobs : Bool → Job
  | false => ⟨.dshell, "id"⟩
  | true => ⟨.shell, "ls"⟩

/-- A device on which a script prints itself. -/
def echoDevice (pipe : Nat) : Device where
  privpath := "/p"
  pipe := pipe
  does _ r k :=
    match r with
    | .script data => data[k]?.elim .exit .out
    | _ => .exit

/-- A device on which a script runs for ever. -/
def loopDevice (pipe : Nat) : Device where
  privpath := "/p"
  pipe := pipe
  does _ _ _ := .work

def emptyStore : Store Text UInt8 where
  names _ := none
  blocks _ := []
  next := 0
  lt_next _ _ h := nomatch h
  inj _ _ _ h := nomatch h

def twoFresh : Pool Bool := ⟨⟨0, emptyStore⟩, fun _ => .begin⟩

/-- The steps of a thread with a script of two bytes, up to its process. -/
def upToRead (i : Bool) : List (Bool × Act) :=
  [.load, .store, .name, .openFile, .write 2, .close, .exec false, .read].map (i, ·)

/-- The two count themselves one after the other and then run side by side; the first one finds no
process. -/
def twoRuns : List (Bool × Act) :=
  [.load, .store, .name, .openFile].map (false, ·) ++ upToRead true ++
    [(false, .write 2), (true, .go), (false, .close), (true, .go), (false, .fail), (true, .exit),
      (true, .finish)]

theorem two_isolated : ∃ p',
    Run.run (poolStep (echoDevice 4) twoJobs) twoFresh twoRuns = some p' ∧
      p'.own true = .done 2 (.upTo 2) false (.script (twoJobs true).data) "ls" ∧
      (∃ k, Pipes.Exits ((echoDevice 4).does false (.script (twoJobs true).data)) k ∧ "ls".toList =
        reportOf (Pipes.upTo ((echoDevice 4).does false (.script (twoJobs true).data)) k)) ∧
      p'.shared.files.content ((twoJobs true).tfile "/p" 2) = none ∧
      p'.shared.files.content ((twoJobs false).tfile "/p" 1) = some (twoJobs false).data := by
  have hown : (Run.run (poolStep (echoDevice 4) twoJobs) twoFresh twoRuns).map
      (fun p => (p.own true, p.own false, p.shared.si)) =
      some (.done 2 (.upTo 2) false (.script (twoJobs true).data) "ls", .failed 1 (.upTo 2),
        2) := by
    decide +kernel
  obtain ⟨p', hrun, hend⟩ := Option.map_eq_some_iff.mp hown
  have hdone : p'.own true = .done 2 (.upTo 2) false (.script (twoJobs true).data) "ls" :=
    congrArg Prod.fst hend
  have hfailed : p'.own false = .failed 1 (.upTo 2) := congrArg (·.2.1) hend
  have hsi : p'.shared.si = 2 := congrArg (·.2.2) hend
  have hwrap : p'.shared.si ≤ twoFresh.shared.si + 2 ^ 32 := by
    rw [hsi]
    decide
  have hall := shells_isolated (fun _ => rfl) (by decide +kernel) hrun hwrap
  obtain ⟨-, hreport, hgone⟩ := (hall true).1 _ _ _ _ _ hdone
  exact ⟨p', hrun, hdone, hreport, hgone, (hall false).2 _ _ hfailed⟩

/-! ### Steps that can be taken -/

/-- Some steps lead from one state to the other. -/
def Leads (d : Device) (jobs : ι → Job) (p p' : Pool ι) : Prop :=
  ∃ es, Run.run (poolStep d jobs) p es = some p'

theorem Leads.step (h : poolStep d jobs p e = some p') : Leads d jobs p p' :=
  ⟨[e], Run.run_cons_eq_some.mpr ⟨p', h, rfl⟩⟩

theorem Leads.trans {p'' : Pool ι} (h : Leads d jobs p p') (h' : Leads d jobs p' p'') :
    Leads d jobs p p'' := by
  obtain ⟨es, hes⟩ := h
  obtain ⟨es', hes'⟩ := h'
  exact ⟨es ++ es', by rw [Run.run_append, hes, Option.bind_some, hes']⟩

/-! ### Waiting -/

/-- A thread that waits for a process, is behind it or has ended. -/
def AtProcess (d : Device) (root : Bool) (r : Ran) : Pc → Prop
  | .waiting _ _ root' r' s => root' = root ∧ r' = r ∧ Pipes.Reached d.pipe (d.does root r) s
  | .exited _ _ _ _ _ | .done _ _ _ _ _ => Pipes.Ends d.pipe (d.does root r)
  | _ => False

/-- A thread gets on behind its process only if the process ends. -/
theorem AtProcess.move {j : Job} {g g' : Shared} {pc pc' : Pc} {root : Bool} {r : Ran}
    (h : AtProcess d root r pc) (hmove : d.Move j g pc g' pc') : AtProcess d root r pc' := by
  cases hmove with
  | go hstep =>
      obtain ⟨rfl, rfl, hreached⟩ := h
      exact ⟨rfl, rfl, hreached.of_step hstep⟩
  | exit hexit =>
      obtain ⟨rfl, rfl, hreached⟩ := h
      exact hreached.ends hexit
  | finish => exact h
  | _ => exact h.elim

theorem AtProcess.run {es : List (ι × Act)} {i : ι} {root : Bool} {r : Ran}
    (h : AtProcess d root r (p.own i)) (hrun : Run.run (poolStep d jobs) p es = some p') :
    AtProcess d root r (p'.own i) := by
  have hstay : ∀ p e p', AtProcess d root r (p.own i) → poolStep d jobs p e = some p' →
      AtProcess d root r (p'.own i) := by
    intro p e p' hi hstep
    obtain ⟨hmove, hsame⟩ := poolStep_move hstep
    rcases eq_or_ne i e.1 with rfl | hne
    · exact hi.move hmove
    · rwa [hsame i hne]
  exact Run.run_invariant hstay es h hrun

/-- A process that ends can come to its exit, and then its thread to its end. -/
theorem leads_done {i : ι} {n : Nat} {w : Written} {root : Bool} {r : Ran} {k : Nat}
    (hexits : Pipes.Exits (d.does root r) k)
    (hfits : (Pipes.upTo (d.does root r) k).Fits d.pipe) {s : Progress}
    (hreached : Pipes.Reached d.pipe (d.does root r) s)
    (hi : p.own i = .waiting n w root r s) :
    ∃ p', Leads d jobs p p' ∧ (p'.own i).ended = true := by
  -- By induction on the deeds that are left.
  obtain ⟨m, hm⟩ := Nat.exists_eq_add_of_le (hreached.pos_le hexits)
  induction m generalizing p s with
  | zero =>
      have hexit : d.does root r s.pos = .exit := by
        rw [← Nat.add_zero s.pos, ← hm]
        exact hexits.1
      obtain ⟨p₁, h₁, -, hi₁, -⟩ :=
        Threads.exists_step (poolAct d jobs) rfl hi (a := .exit) (if_pos hexit)
      obtain ⟨p₂, h₂, -, hi₂, -⟩ := Threads.exists_step (poolAct d jobs) rfl hi₁ (a := .finish) rfl
      refine ⟨p₂, (Leads.step h₁).trans (Leads.step h₂), ?_⟩
      rw [hi₂]
      rfl
  | succ m ih =>
      have hstep := hreached.exists_step hexits hfits (by omega)
      obtain ⟨p₁, h₁, -, hi₁, -⟩ := Threads.exists_step (poolAct d jobs) rfl hi (a := .go)
        (Option.map_eq_some_iff.mpr ⟨_, hstep, rfl⟩)
      have hleft : k = (s.after (d.does root r s.pos)).pos + m := by
        rw [Pipes.Progress.pos_after]
        omega
      obtain ⟨p', h, hended⟩ := ih (hreached.of_step hstep) hi₁ hleft
      exact ⟨p', (Leads.step h₁).trans h, hended⟩

/-- The pipes are read only behind the process.  So a thread whose script has been written and read
never ends exactly if its script does not exit, or writes more before that than the pipes hold. -/
theorem hangs_iff {es : List (ι × Act)} (hfresh : p.Fresh)
    (hone : Run.Always (poolStep d jobs) OneCounts p es)
    (hrun : Run.run (poolStep d jobs) p es = some p')
    (hwrap : p'.shared.si ≤ p.shared.si + 2 ^ 32) {i : ι} {n : Nat} {root : Bool} {r : Ran}
    {s : Progress} (hi : p'.own i = .waiting n (.upTo (jobs i).data.length) root r s)
    (hr : r ≠ .denied) :
    (∀ es' p'', Run.run (poolStep d jobs) p' es' = some p'' → (p''.own i).ended = false) ↔
      ¬ Pipes.Ends d.pipe (d.does root (.script (jobs i).data)) := by
  have howns := owns_of_oneCounts hfresh hone hrun hwrap i
  rw [hi] at howns
  obtain ⟨-, hran, hreached⟩ := howns
  have hown : r = .script (jobs i).data := by
    have hr' := hran.resolve_left hr
    rwa [Job.runs, Job.left, List.take_length] at hr'
  subst hown
  constructor
  · rintro hnever ⟨k, hexits, hfits⟩
    obtain ⟨p'', ⟨es', hrun'⟩, hended⟩ := leads_done hexits hfits hreached hi
    rw [hnever es' p'' hrun'] at hended
    cases hended
  · intro hends es' p'' hrun'
    have hat : AtProcess d root (.script (jobs i).data) (p'.own i) := by
      rw [hi]
      exact ⟨rfl, rfl, hreached⟩
    have hafter := hat.run hrun'
    cases hpc : p''.own i with
    | done n w root' r' report =>
        rw [hpc] at hafter
        exact absurd hafter hends
    | failed n w =>
        rw [hpc] at hafter
        exact hafter.elim
    | _ => rfl

/-- Two bytes do not go into a pipe for one, and a script that never exits needs no pipe to hang. -/
theorem two_hang :
    (∃ p', Run.run (poolStep (echoDevice 1) twoJobs) twoFresh (upToRead true) = some p' ∧
      ∀ es p'', Run.run (poolStep (echoDevice 1) twoJobs) p' es = some p'' →
        (p''.own true).ended = false) ∧
    ∃ p', Run.run (poolStep (loopDevice 1) twoJobs) twoFresh (upToRead true) = some p' ∧
      ∀ es p'', Run.run (poolStep (loopDevice 1) twoJobs) p' es = some p'' →
        (p''.own true).ended = false := by
  constructor
  · have hown : (Run.run (poolStep (echoDevice 1) twoJobs) twoFresh (upToRead true)).map
        (fun p => (p.own true, p.shared.si)) =
        some (.waiting 1 (.upTo 2) false (.script (twoJobs true).data) .start, 1) := by
      decide +kernel
    obtain ⟨p', hrun, hend⟩ := Option.map_eq_some_iff.mp hown
    obtain ⟨hwait, hsi⟩ := Prod.mk.inj hend
    have hexits : Pipes.Exits ((echoDevice 1).does false (.script (twoJobs true).data)) 2 := by
      decide +kernel
    exact ⟨p', hrun, (hangs_iff (fun _ => rfl) (by decide +kernel) hrun (by rw [hsi]; decide) hwait
      (by decide)).mpr (hexits.not_ends (by decide +kernel))⟩
  · have hown : (Run.run (poolStep (loopDevice 1) twoJobs) twoFresh (upToRead true)).map
        (fun p => (p.own true, p.shared.si)) =
        some (.waiting 1 (.upTo 2) false (.script (twoJobs true).data) .start, 1) := by
      decide +kernel
    obtain ⟨p', hrun, hend⟩ := Option.map_eq_some_iff.mp hown
    obtain ⟨hwait, hsi⟩ := Prod.mk.inj hend
    refine ⟨p', hrun, (hangs_iff (fun _ => rfl) (by decide +kernel) hrun (by rw [hsi]; decide) hwait
      (by decide)).mpr ?_⟩
    rintro ⟨k, hexits, -⟩
    cases hexits.1

/-! ### Two threads with one number -/

/-- Two threads that read the counter together get one number. -/
theorem leads_same_number (d : Device) (jobs : ι → Job) {i j : ι} (hij : i ≠ j)
    (hi : p.own i = .begin) (hj : p.own j = .begin) :
    ∃ p' n, Leads d jobs p p' ∧ p'.own i = .named n ∧ p'.own j = .named n := by
  obtain ⟨p₁, h₁, hg₁, hi₁, hk₁⟩ := Threads.exists_step (poolAct d jobs) rfl hi (a := .load) rfl
  obtain ⟨p₂, h₂, hg₂, hj₂, hk₂⟩ := Threads.exists_step (poolAct d jobs) rfl
    ((hk₁ j hij.symm).trans hj) (a := .load) rfl
  obtain ⟨p₃, h₃, hg₃, hi₃, hk₃⟩ := Threads.exists_step (poolAct d jobs) rfl
    ((hk₂ i hij).trans hi₁) (a := .store) rfl
  obtain ⟨p₄, h₄, hg₄, hj₄, hk₄⟩ := Threads.exists_step (poolAct d jobs) rfl
    ((hk₃ j hij.symm).trans hj₂) (a := .store) rfl
  obtain ⟨p₅, h₅, hg₅, hi₅, hk₅⟩ := Threads.exists_step (poolAct d jobs) rfl
    ((hk₄ i hij).trans hi₃) (a := .name) rfl
  obtain ⟨p₆, h₆, hg₆, hj₆, hk₆⟩ := Threads.exists_step (poolAct d jobs) rfl
    ((hk₅ j hij.symm).trans hj₄) (a := .name) rfl
  refine ⟨p₆, p₄.shared.si, ?_, (hk₆ i hij).trans hi₅, ?_⟩
  · exact (Leads.step h₁).trans ((Leads.step h₂).trans ((Leads.step h₃).trans
      ((Leads.step h₄).trans ((Leads.step h₅).trans (Leads.step h₆)))))
  · rw [hj₆, hg₅]

/-- A thread writes its script. -/
theorem leads_written (d : Device) (jobs : ι → Job) {i : ι} {n : Nat} (hi : p.own i = .named n) :
    ∃ p', Leads d jobs p p' ∧ p'.own i = .closed n (.upTo (jobs i).data.length) ∧
      p'.shared.files.content ((jobs i).tfile d.privpath n) = some (jobs i).data ∧
      ∀ k, k ≠ i → p'.own k = p.own k := by
  obtain ⟨p₁, h₁, hg₁, hi₁, hk₁⟩ :=
    Threads.exists_step (poolAct d jobs) rfl hi (a := .openFile) rfl
  obtain ⟨p₂, h₂, hg₂, hi₂, hk₂⟩ := Threads.exists_step (poolAct d jobs) rfl hi₁
    (a := .write (jobs i).data.length) (if_pos (by omega))
  obtain ⟨p₃, h₃, hg₃, hi₃, hk₃⟩ := Threads.exists_step (poolAct d jobs) rfl hi₂ (a := .close) rfl
  refine ⟨p₃, (Leads.step h₁).trans ((Leads.step h₂).trans (Leads.step h₃)), ?_, ?_, ?_⟩
  · rw [hi₃, Nat.zero_add]
  · rw [hg₃, hg₂, hg₁]
    have hholds := (p.shared.files.holds_create ((jobs i).tfile d.privpath n)).writeAt 0
      (((jobs i).data.drop 0).take (jobs i).data.length)
    rw [hholds.content]
    simp [OpenFiles.overwrite]
  · intro k hk
    rw [hk₃ k hk, hk₂ k hk, hk₁ k hk]

/-- A thread that nothing comes in between writes the file that `run` of its class writes. -/
theorem alone_writes {i : ι} (hi : p.own i = .begin) {st : Storage} {fs : Files}
    (hrun : ((jobs i).run st d.privpath p.shared.si fs).1 = true) :
    ∃ p', Leads d jobs p p' ∧
      p'.own i = .closed (p.shared.si + 1) (.upTo (jobs i).data.length) ∧
      (p'.shared.files.content ((jobs i).tfile d.privpath (p.shared.si + 1))).map Node.file =
        ((jobs i).run st d.privpath p.shared.si fs).2.node
          (toPath fs ((jobs i).tfile d.privpath (p.shared.si + 1))) := by
  obtain ⟨p₁, h₁, hg₁, hi₁, -⟩ := Threads.exists_step (poolAct d jobs) rfl hi (a := .load) rfl
  obtain ⟨p₂, h₂, hg₂, hi₂, -⟩ := Threads.exists_step (poolAct d jobs) rfl hi₁ (a := .store) rfl
  obtain ⟨p₃, h₃, -, hi₃, -⟩ := Threads.exists_step (poolAct d jobs) rfl hi₂ (a := .name) rfl
  rw [hg₂] at hi₃
  obtain ⟨p₄, h₄, hi₄, hfile, -⟩ := leads_written d jobs hi₃
  refine ⟨p₄, (Leads.step h₁).trans ((Leads.step h₂).trans ((Leads.step h₃).trans h₄)), hi₄, ?_⟩
  rw [hfile, Option.map_some, ← (jobs i).node_run hrun]

/-- Of two threads of one class that have not begun, one can run the script of the other. -/
theorem same_number_mixes {i j : ι} (hij : i ≠ j) (hkind : (jobs i).kind = (jobs j).kind)
    (hi : p.own i = .begin) (hj : p.own j = .begin) (root : Bool) :
    ∃ es p' n, Run.run (poolStep d jobs) p es = some p' ∧
      p'.own i = .waiting n (.upTo (jobs i).data.length) root (.script (jobs j).data) .start := by
  obtain ⟨p₁, n, h₁, hi₁, hj₁⟩ := leads_same_number d jobs hij hi hj
  obtain ⟨p₂, h₂, hi₂, -, hk₂⟩ := leads_written d jobs hi₁
  obtain ⟨p₃, h₃, -, hfile, hk₃⟩ := leads_written d jobs
    ((hk₂ j hij.symm).trans hj₁)
  obtain ⟨p₄, h₄, hg₄, hi₄, -⟩ := Threads.exists_step (poolAct d jobs) rfl
    ((hk₃ i hij).trans hi₂) (a := .exec root) rfl
  obtain ⟨p₅, h₅, -, hi₅, -⟩ :=
    Threads.exists_step (poolAct d jobs) rfl hi₄ (Device.act_read n _ root)
  have hsame : (jobs i).tfile d.privpath n = (jobs j).tfile d.privpath n := by
    rw [Job.tfile, Job.tfile, hkind]
  obtain ⟨es, hes⟩ := h₁.trans (h₂.trans (h₃.trans ((Leads.step h₄).trans (Leads.step h₅))))
  refine ⟨es, p₅, n, hes, ?_⟩
  rw [hi₅, hg₄, hsame, hfile]
  rfl

/-- Two threads of one class. -/
def twinJobs : Bool → Job
  | false => ⟨.dshell, "id"⟩
  | true => ⟨.dshell, "ls"⟩

theorem twins_mixed : ∃ es p' n,
    Run.run (poolStep (echoDevice 4) twinJobs) twoFresh es = some p' ∧
      p'.own false = .waiting n (.upTo 2) true (.script (twinJobs true).data) .start :=
  same_number_mixes (i := false) (j := true) (by decide) rfl rfl rfl true

end

end HapAndroid.SuperUser
