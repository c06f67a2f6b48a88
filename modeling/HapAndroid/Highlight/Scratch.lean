import HapAndroid.Lib.Machine
import HapAndroid.Highlight.Load
import HapAndroid.Highlight.Parse
import HapAndroid.Highlight.StoredWord

/-!
# The memory of fixed size

`parse_file` keeps the tags in two arrays of ten entries, `match_region` copies a pattern to a
buffer of 255 bytes, and a `\z` keeps its word in 80 bytes, which the calls of `parse_file` do not
have.  The accesses to them are lists of indices here, beside the calls that a step makes.

`scratch_inside_iff` says when all of them stay inside in a run.  Nothing of it is checked by the
loader; `inside_of_bounded` gives bounds on the configuration and the text that are enough.
-/

namespace HapAndroid.Highlight

/-! ## Accesses -/

/-- A call of `match_region`. -/
structure RegionCall where
  pos : Nat
  syn : Bytes
  mem : Option Bytes
deriving DecidableEq

/-- The cells of the buffer that the loop over the pattern writes, from `i` on. -/
def splitWrites : Bytes → Nat → List Nat
  | [], i => [i]
  | _ :: p, i => i :: splitWrites p (i + 1)

/-- The cells of its memory that a `\z` at a letter reads or writes: the first one; then the word
that is stored, or the stored word with the zero byte behind it. -/
def zTouches (t : FileText) (pos : Nat) : Option Bytes → List Nat
  | none => [0]
  | some [] => 0 :: List.range (t.run isKeyword pos)
  | some w => List.range (w.length + 1)

/-- The size of the memory. -/
def memSize (mem : Option Bytes) : Nat := if mem.isSome then maxForwardMatchLength else 0

/-- The accesses of a test to the memory stay inside. -/
def Probe.Inside (t : FileText) : Probe → Prop
  | .elem p pos mem => isEscape p 'z' = true → isAlpha (t.byte pos) = true →
      ∀ i ∈ zTouches t pos mem, i < memSize mem
  | _ => True

/-- The accesses of a call stay inside. -/
def RegionCall.Inside (t : FileText) (c : RegionCall) : Prop :=
  (∀ i ∈ splitWrites c.syn 0, i < maxSplitMatchLength) ∧
    ∀ pr ∈ regionProbes t c.pos c.syn c.mem, pr.Inside t

/-! ### The calls of a step -/

/-- The call for a pattern that may be absent. -/
def callFor (pos : Nat) (mem : Bytes) (p : Option Bytes) : List RegionCall :=
  p.toList.map fun syn => ⟨pos, syn, some mem⟩

/-- The calls for a pattern and, when it does not match, for a second one. -/
def callsFor (e : ScanEnv) (s : Scan) (p q : Option Bytes) : List RegionCall :=
  callFor s.pos s.mem p ++
    match e.tryMatch s.pos s.mem p with
    | some (none, m) => callFor s.pos m q
    | _ => []

/-- The calls of a step of `scan_syntax`. -/
def Scan.calls (e : ScanEnv) (s : Scan) : List RegionCall :=
  match s.pc with
  | .item idx =>
      match e.buf.patterns[idx]? with
      | none => []
      | some pat =>
          if e.text.byte s.pos = 0 then []
          else if skipsItem pat then []
          else callsFor e s pat.match pat.start
  | .region idx _ =>
      match e.buf.patterns[idx]? with
      | none => []
      | some pat => if e.text.byte s.pos = 0 then [] else callsFor e s pat.skip pat.end
  | _ => []

/-- The calls of a step of `parse_file`, whose own calls have no memory for `\z`. -/
def Parse.calls (e : ParseEnv) (s : Parse) : List RegionCall :=
  match s.pc with
  | .tag idx =>
      match e.tags[idx]? with
      | none => []
      | some tag => tag.pat.start.toList.map fun syn => ⟨s.scan.pos, syn, none⟩
  | .scanning tag => s.scan.calls (e.scanEnv tag)
  | _ => []

/-- The entries of the two arrays of tags that are written. -/
def ParseEnv.tagWrites (e : ParseEnv) : List Nat := List.range e.tags.length

/-! ## The condition -/

/-- The pattern fits, and every `\z` that is tested at a letter has a memory, stores a word that
fits into it or compares with a word that ends in it. -/
def RegionCall.Fits (t : FileText) (c : RegionCall) : Prop :=
  c.syn.length < maxSplitMatchLength ∧
    ∀ p pos mem, .elem p pos mem ∈ regionProbes t c.pos c.syn c.mem → ZInMemory t p pos mem

section
variable {t : FileText}

theorem mem_splitWrites {p : Bytes} {i j : Nat} : j ∈ splitWrites p i ↔ i ≤ j ∧ j ≤ i + p.length := by
  induction p generalizing i with
  | nil =>
      rw [splitWrites, List.mem_singleton, List.length_nil]
      omega
  | cons c p ih =>
      rw [splitWrites, List.mem_cons, ih, List.length_cons]
      omega

theorem splitWrites_inside {p : Bytes} :
    (∀ i ∈ splitWrites p 0, i < maxSplitMatchLength) ↔ p.length < maxSplitMatchLength := by
  constructor
  · exact fun h => h p.length (mem_splitWrites.mpr (by omega))
  · intro h i hi
    have := mem_splitWrites.mp hi
    omega

theorem zTouches_inside {pos : Nat} {mem : Option Bytes} :
    (∀ i ∈ zTouches t pos mem, i < memSize mem) ↔ ∃ w, mem = some w ∧
      (w = [] → t.run isKeyword pos ≤ maxForwardMatchLength) ∧
      (w ≠ [] → w.length < maxForwardMatchLength) := by
  have hsize : ∀ w, memSize (some w) = maxForwardMatchLength := fun w => rfl
  have hpos : 0 < maxForwardMatchLength := by decide
  unfold zTouches
  split
  · simp [memSize]
  · rw [hsize, List.forall_mem_cons]
    constructor
    · rintro ⟨-, hrun⟩
      refine ⟨[], rfl, fun _ => ?_, fun h => absurd rfl h⟩
      by_contra hlt
      exact absurd (hrun _ (List.mem_range.mpr (Nat.lt_of_not_le hlt))) (Nat.lt_irrefl _)
    · rintro ⟨_, heq, hrun, -⟩
      cases heq
      refine ⟨hpos, fun i hi => ?_⟩
      exact Nat.lt_of_lt_of_le (List.mem_range.mp hi) (hrun rfl)
  · next w hne =>
    have hw : w ≠ [] := hne
    rw [hsize]
    constructor
    · intro h
      refine ⟨w, rfl, fun h => absurd h hw, fun _ => h _ (List.mem_range.mpr (Nat.lt_succ_self _))⟩
    · rintro ⟨_, heq, -, hlen⟩ i hi
      cases heq
      have := hlen hw
      have := List.mem_range.mp hi
      omega

theorem RegionCall.inside_iff {c : RegionCall} : c.Inside t ↔ c.Fits t := by
  refine and_congr splitWrites_inside ⟨fun h p pos mem hpr => ?_, fun h pr hpr => ?_⟩
  · exact fun hz ha => zTouches_inside.mp (h _ hpr hz ha)
  · cases pr with
    | start _ | caret _ | lineEnd _ => trivial
    | elem p pos mem => exact fun hz ha => zTouches_inside.mpr (h p pos mem hpr hz ha)

end

namespace Parse

open Machine

/-- All accesses to memory of fixed size stay inside. -/
def ScratchInside (e : ParseEnv) : Prop :=
  (∀ i ∈ e.tagWrites, i < maxTagNum) ∧
    ∀ s, Reaches (step e) (init e) s → ∀ c ∈ calls e s, c.Inside e.text

theorem tagWrites_inside (e : ParseEnv) :
    (∀ i ∈ e.tagWrites, i < maxTagNum) ↔ e.tags.length ≤ maxTagNum := by
  constructor
  · intro h
    by_contra hlt
    exact absurd (h _ (List.mem_range.mpr (Nat.lt_of_not_le hlt))) (Nat.lt_irrefl _)
  · exact fun h i hi => Nat.lt_of_lt_of_le (List.mem_range.mp hi) h

/-- They do exactly when there are no more tags than entries and every call of every step of the
run fits. -/
theorem scratch_inside_iff (e : ParseEnv) : ScratchInside e ↔
    e.tags.length ≤ maxTagNum ∧
      ∀ s, Reaches (step e) (init e) s → ∀ c ∈ calls e s, c.Fits e.text := by
  refine and_congr (tagWrites_inside e) (forall₂_congr fun s _ => forall₂_congr fun c _ => ?_)
  exact RegionCall.inside_iff

/-- A region that ends at the word it starts with. -/
def heredocFiles : Files := fun conf =>
  if conf = bytes "c" then some (bytes "syn region String start=\"<\\z\" end=\"\\z\"\n") else none

/-- What the loader makes of it. -/
def heredocLoader : Loader :=
  (loadConf heredocFiles 1 (bytes "c") .fresh .fresh).getD ⟨false, [], [], .fresh, .fresh⟩

/-- A text with a word of 81 letters. -/
def heredocEnv : ParseEnv :=
  ⟨⟨0x3C :: List.replicate 81 0x61, by decide +kernel, 0⟩, heredocLoader.buf,
    heredocLoader.groups.items⟩

/-- The word is copied behind the memory of 80 bytes. -/
theorem heredoc_overruns : loadConf heredocFiles 1 (bytes "c") .fresh .fresh = some heredocLoader ∧
    ¬ ScratchInside heredocEnv := by
  refine ⟨by decide +kernel, fun h => ?_⟩
  have hcall : ⟨0, bytes "<\\z", some []⟩ ∈ calls heredocEnv ((step heredocEnv)^[2] (init heredocEnv)) := by
    decide +kernel
  have hprobe : Probe.elem (bytes "\\z") 1 (some []) ∈
      regionProbes heredocEnv.text 0 (bytes "<\\z") (some []) := by
    decide +kernel
  have hinside := (h.2 _ ⟨2, rfl⟩ _ hcall).2 _ hprobe (by decide +kernel) (by decide +kernel)
  exact absurd (hinside 80 (by decide +kernel)) (by decide)

end Parse

/-! ## Bounds that are enough -/

/-- The words of the text are shorter than the memory. -/
def ShortWords (t : FileText) : Prop :=
  ∀ pos, isAlpha (t.byte pos) = true → t.run isKeyword pos < maxForwardMatchLength

/-- At most ten tags, whose starts have no `\z`, patterns of less than 255 bytes and words of less
than 80. -/
structure Bounded (e : ParseEnv) : Prop where
  tags : e.tags.length ≤ maxTagNum
  pattern : ∀ pat ∈ e.buf.patterns, ∀ p, p ∈ [pat.start, pat.skip, pat.end, pat.match] →
    ∀ syn ∈ p, syn.length < maxSplitMatchLength
  noZ : ∀ tag ∈ e.tags, ∀ syn ∈ tag.pat.start, ∀ p ∈ syn.splitOn 0x7C, ¬[0x5C, 0x7A] <:+: p
  word : ShortWords e.text

section
variable {t : FileText} {p : Bytes} {pos : Nat} {mem : Option Bytes}

/-! ### What the tests of a call have in common -/

theorem unescape_suffix (p : Bytes) : unescape p <:+ p := by
  unfold unescape
  split
  · exact List.drop_suffix 1 p
  · exact List.suffix_refl p

/-- `match_text` goes on in the pattern. -/
theorem matchText_suffix {r : TextMatch} (h : matchText t p pos mem = some r) : r.pat <:+ p := by
  cases tested_matchText h with
  | stays => exact List.suffix_refl p
  | takes k _ => exact List.drop_suffix k p
  | blanks => exact List.drop_suffix 3 p
  | wordEnd _ _ => exact List.drop_suffix 2 p
  | literal => exact (List.drop_suffix 1 (unescape p)).trans (unescape_suffix p)
  | z _ _ _ => exact List.drop_suffix 2 p

section
variable {Q : Bytes → Prop} {R : Option Bytes → Prop} {prs : List Probe}
  (hQ : ∀ {p q}, q <:+ p → Q p → Q q)
  (hR : ∀ {p pos mem r}, R mem → matchText t p pos mem = some r → R r.mem)

/-- Every call of `match_text` has a pattern and a memory of this kind. -/
def AllElems (Q : Bytes → Prop) (R : Option Bytes → Prop) (prs : List Probe) : Prop :=
  ∀ p pos mem, .elem p pos mem ∈ prs → Q p ∧ R mem

theorem AllElems.cons (hpr : Q p ∧ R mem) (h : AllElems Q R prs) :
    AllElems Q R (.elem p pos mem :: prs) := by
  intro q i m hmem
  rcases List.mem_cons.mp hmem with heq | hmem
  · cases heq
    exact hpr
  · exact h q i m hmem

theorem AllElems.skip {pr : Probe} (hpr : ∀ p pos mem, pr ≠ .elem p pos mem)
    (h : AllElems Q R prs) : AllElems Q R (pr :: prs) := by
  intro q i m hmem
  rcases List.mem_cons.mp hmem with heq | hmem
  · exact absurd heq.symm (hpr q i m)
  · exact h q i m hmem

theorem allElems_nil : AllElems Q R [] := fun _ _ _ h => absurd h List.not_mem_nil

include hQ hR

theorem LoopRun.allElems {ret : Nat} {res : Option (AltEnd × Option Bytes)}
    (h : LoopRun t p pos mem ret prs res) (hp : Q p) (hmem : R mem) :
    AllElems Q R prs ∧ ∀ e m, res = some (e, m) → R m := by
  induction h with
  | nil => exact ⟨allElems_nil, fun e m h => by cases h; exact hmem⟩
  | lineEnd => exact ⟨allElems_nil.skip (by simp), fun e m h => by cases h; exact hmem⟩
  | fault _ _ => exact ⟨allElems_nil.cons ⟨hp, hmem⟩, fun e m h => by cases h⟩
  | stop _ hr _ =>
      exact ⟨allElems_nil.cons ⟨hp, hmem⟩, fun e m h => by cases h; exact hR hmem hr⟩
  | cons _ hr _ _ ih =>
      obtain ⟨hrest, hres⟩ := ih (hQ (matchText_suffix hr) hp) (hR hmem hr)
      exact ⟨hrest.cons ⟨hp, hmem⟩, hres⟩

theorem AltRun.allElems {res : Option (AltEnd × Option Bytes)} (h : AltRun t p pos mem prs res)
    (hp : Q p) (hmem : R mem) : AllElems Q R prs ∧ ∀ e m, res = some (e, m) → R m := by
  have hp1 : Q (p.drop 1) := hQ (List.drop_suffix 1 p) hp
  cases h with
  | plain _ hloop =>
      obtain ⟨hrest, hres⟩ := hloop.allElems hQ hR hp hmem
      exact ⟨hrest.skip (by simp), hres⟩
  | noLine _ _ =>
      exact ⟨(allElems_nil.skip (by simp)).skip (by simp), fun e m h => by cases h; exact hmem⟩
  | fault _ _ _ =>
      exact ⟨((allElems_nil.cons ⟨hp1, hmem⟩).skip (by simp)).skip (by simp),
        fun e m h => by cases h⟩
  | stop _ _ hr _ =>
      exact ⟨((allElems_nil.cons ⟨hp1, hmem⟩).skip (by simp)).skip (by simp),
        fun e m h => by cases h; exact hR hmem hr⟩
  | caret _ _ hr _ hloop =>
      obtain ⟨hrest, hres⟩ := hloop.allElems hQ hR (hQ (matchText_suffix hr) hp1) (hR hmem hr)
      exact ⟨((hrest.cons ⟨hp1, hmem⟩).skip (by simp)).skip (by simp), hres⟩

theorem AltsRun.allElems {ps : List Bytes} {res : Option RegionMatch}
    (h : AltsRun t pos ps mem prs res) (hps : ∀ p ∈ ps, Q p) (hmem : R mem) :
    AllElems Q R prs ∧ ∀ r, res = some r → R r.mem := by
  induction h with
  | nil => exact ⟨allElems_nil, fun r h => by cases h; exact hmem⟩
  | fault halt =>
      obtain ⟨hp, -⟩ := List.forall_mem_cons.mp hps
      exact ⟨(halt.allElems hQ hR hp hmem).1, fun r h => by cases h⟩
  | matched halt | leave halt =>
      obtain ⟨hp, -⟩ := List.forall_mem_cons.mp hps
      obtain ⟨hprs, hres⟩ := halt.allElems hQ hR hp hmem
      exact ⟨hprs, fun r h => by cases h; exact hres _ _ rfl⟩
  | next halt _ ih =>
      obtain ⟨hp, hps⟩ := List.forall_mem_cons.mp hps
      obtain ⟨hprs, hres⟩ := halt.allElems hQ hR hp hmem
      obtain ⟨hrest, hr⟩ := ih hps (hres _ _ rfl)
      refine ⟨fun q i m hmem => ?_, hr⟩
      rcases List.mem_append.mp hmem with h | h
      · exact hprs q i m h
      · exact hrest q i m h

/-- What holds of the alternatives of a pattern and of the memory, the tests of a call have, and
the memory keeps. -/
theorem allElems_region {syn : Bytes} (hps : ∀ p ∈ syn.splitOn 0x7C, Q p) (hmem : R mem) :
    AllElems Q R (regionProbes t pos syn mem) ∧
      ∀ r, matchRegion t pos syn mem = some r → R r.mem := by
  have hrun : AltsRun t pos (syn.splitOn 0x7C) mem (regionProbes t pos syn mem)
      (matchAlts t pos (syn.splitOn 0x7C) mem) := altsRun pos _ mem
  obtain ⟨hprs, hres⟩ := hrun.allElems hQ hR hps hmem
  refine ⟨hprs, fun r hr => ?_⟩
  rw [matchRegion] at hr
  split at hr
  · exact hres r hr
  · cases hr

end

end

/-! ### Short words -/

section
variable {t : FileText}

/-- The memory is there and ends in it. -/
def ShortMem (mem : Option Bytes) : Prop := ∃ w, mem = some w ∧ w.length < maxForwardMatchLength

theorem shortMem_matchText {p : Bytes} {pos : Nat} {mem : Option Bytes} {r : TextMatch}
    (ht : ShortWords t) (hmem : ShortMem mem) (h : matchText t p pos mem = some r) :
    ShortMem r.mem := by
  obtain ⟨w, rfl, hw⟩ := hmem
  refine ⟨_, matchText_mem h, ?_⟩
  rw [Probe.leaves, Probe.zTake]
  split
  · next hz =>
    simp only [Bool.and_eq_true] at hz
    simp only [Option.toList_some, afterTakes, List.foldl_cons, List.foldl_nil]
    split
    · exact Nat.lt_of_le_of_lt (List.length_take_le _ _) (ht pos hz.1.2)
    · decide
  · exact hw

variable {pos : Nat} {syn w : Bytes}

/-- A call with a short memory keeps it short. -/
theorem shortMem_matchRegion {r : RegionMatch} (ht : ShortWords t)
    (hw : w.length < maxForwardMatchLength) (h : matchRegion t pos syn (some w) = some r) :
    ShortMem r.mem :=
  (allElems_region (Q := fun _ => True) (fun _ _ => trivial) (shortMem_matchText ht)
    (fun _ _ => trivial) ⟨w, rfl, hw⟩).2 r h

theorem fits_of_short (ht : ShortWords t) (hsyn : syn.length < maxSplitMatchLength)
    (hw : w.length < maxForwardMatchLength) : RegionCall.Fits t ⟨pos, syn, some w⟩ := by
  have hall : AllElems (fun _ => True) ShortMem (regionProbes t pos syn (some w)) :=
    (allElems_region (fun _ _ => trivial) (shortMem_matchText ht) (fun _ _ => trivial)
      ⟨w, rfl, hw⟩).1
  refine ⟨hsyn, fun p q mem hpr _ ha => ?_⟩
  obtain ⟨-, w', rfl, hw'⟩ := hall p q mem hpr
  exact ⟨w', rfl, fun _ => Nat.le_of_lt (ht q ha), fun _ => hw'⟩

theorem fits_of_noZ {mem : Option Bytes} (hsyn : syn.length < maxSplitMatchLength)
    (hz : ∀ p ∈ syn.splitOn 0x7C, ¬[0x5C, 0x7A] <:+: p) : RegionCall.Fits t ⟨pos, syn, mem⟩ := by
  have hall : AllElems (fun p => ¬[0x5C, 0x7A] <:+: p) (fun _ => True)
      (regionProbes t pos syn mem) :=
    (allElems_region (fun hsuf hp hin => hp (hin.trans hsuf.isInfix)) (fun _ _ => trivial) hz
      trivial).1
  refine ⟨hsyn, fun p q m hpr hesc _ => ?_⟩
  obtain ⟨rest, rfl⟩ := eq_cons_of_isEscape (by decide) hesc
  exact absurd (List.prefix_append [0x5C, 0x7A] rest).isInfix (hall _ q m hpr).1

end

/-! ### Along a run -/

namespace Scan

variable {e : ScanEnv} {s : Scan}

/-- What the tests of patterns keep of the memory, the steps of the scanner keep. -/
theorem mem_step {P : Bytes → Prop} (h0 : P [])
    (h : ∀ {pos m p n m'}, P m → e.tryMatch pos m p = some (n, m') → P m') (hs : P s.mem) :
    P (step e s).mem := by
  unfold step
  split
  · split
    · exact hs
    · exact h0
  · unfold stepTop
    split
    · exact hs
    · split
      · exact hs
      · split
        · split <;> exact hs
        · exact hs
  · unfold stepItem
    split
    · unfold stepWord
      split <;> exact hs
    · split
      · unfold stepWord
        split <;> exact hs
      · split
        · exact hs
        · split
          · exact hs
          · next hm => exact h hs hm
          · next hm =>
            split
            · exact hs
            · next hm' => exact h (h hs hm) hm'
            · next hm' => exact h (h hs hm) hm'
  · unfold stepRegion
    split
    · exact hs
    · split
      · exact hs
      · split
        · exact hs
        · next hm => exact h hs hm
        · next hm =>
          split
          · exact hs
          · split
            · exact hs
            · next hm' =>
              split
              · exact h (h hs hm) hm'
              · unfold closeRegion
                split <;> exact h (h hs hm) hm'
            · next hm' => split <;> exact h (h hs hm) hm'
  · split <;> exact hs
  · exact hs
  · exact hs

theorem short_tryMatch {pos : Nat} {m m' : Bytes} {p : Option Bytes} {n : Option Nat}
    (ht : ShortWords e.text) (hm : m.length < maxForwardMatchLength)
    (h : e.tryMatch pos m p = some (n, m')) : m'.length < maxForwardMatchLength := by
  cases p with
  | none =>
      cases h
      exact hm
  | some syn =>
      obtain ⟨r, hr, heq⟩ := Option.map_eq_some_iff.mp h
      cases heq
      obtain ⟨w, hw, hlen⟩ := shortMem_matchRegion ht hm hr
      rw [hw]
      exact hlen

theorem callsFor_fit {p q : Option Bytes} (ht : ShortWords e.text)
    (hs : s.mem.length < maxForwardMatchLength)
    (hp : ∀ syn ∈ p, syn.length < maxSplitMatchLength)
    (hq : ∀ syn ∈ q, syn.length < maxSplitMatchLength) : ∀ c ∈ callsFor e s p q, c.Fits e.text := by
  have hfor : ∀ {p : Option Bytes} {m : Bytes}, m.length < maxForwardMatchLength →
      (∀ syn ∈ p, syn.length < maxSplitMatchLength) →
      ∀ c ∈ callFor s.pos m p, c.Fits e.text := by
    intro p m hm hp c hc
    obtain ⟨syn, hsyn, rfl⟩ := List.mem_map.mp hc
    exact fits_of_short ht (hp syn (Option.mem_toList.mp hsyn)) hm
  intro c hc
  rcases List.mem_append.mp hc with hc | hc
  · exact hfor hs hp c hc
  · split at hc
    · next m hm => exact hfor (short_tryMatch ht hs hm) hq c hc
    · exact absurd hc List.not_mem_nil

/-- With short words and a short memory every call of a step fits. -/
theorem calls_fit (ht : ShortWords e.text) (hs : s.mem.length < maxForwardMatchLength)
    (hpat : ∀ pat ∈ e.buf.patterns, ∀ p, p ∈ [pat.start, pat.skip, pat.end, pat.match] →
      ∀ syn ∈ p, syn.length < maxSplitMatchLength) : ∀ c ∈ calls e s, c.Fits e.text := by
  have hnone : ∀ c ∈ ([] : List RegionCall), c.Fits e.text := fun c hc => absurd hc List.not_mem_nil
  unfold calls
  split
  · split
    · exact hnone
    · next pat hget =>
      have hlen := hpat pat (List.mem_of_getElem? hget)
      split
      · exact hnone
      · split
        · exact hnone
        · exact callsFor_fit ht hs (hlen _ (by simp)) (hlen _ (by simp))
  · split
    · exact hnone
    · next pat hget =>
      have hlen := hpat pat (List.mem_of_getElem? hget)
      split
      · exact hnone
      · exact callsFor_fit ht hs (hlen _ (by simp)) (hlen _ (by simp))
  · exact hnone

end Scan

namespace Parse

open Machine

variable {e : ParseEnv} {s : Parse}

theorem mem_openTag (tag : Tag) (n : Nat) : (s.openTag tag n).scan.mem = s.scan.mem := by
  unfold openTag markTag
  split <;> split <;> rfl

/-- The memory stays short in a run over short words. -/
theorem short_step (ht : ShortWords e.text) (hs : s.scan.mem.length < maxForwardMatchLength) :
    (step e s).scan.mem.length < maxForwardMatchLength := by
  generalize hu : step e s = u
  have hmove : Move e s u := hu ▸ move_step e s
  cases hmove with
  | openTag _ tag _ n _ _ _ _ _ _ =>
      rw [mem_openTag]
      exact hs
  | scan tag _ _ _ =>
      exact Scan.mem_step (P := fun m => m.length < maxForwardMatchLength) (by decide)
        (fun hm h => Scan.short_tryMatch (e := e.scanEnv tag) ht hm h) hs
  | _ => exact hs

theorem mem_init (e : ParseEnv) : (init e).scan.mem = [] := by
  unfold init
  split
  · rfl
  · split <;> rfl

/-- Bounds that the loader does not check keep all accesses inside. -/
theorem inside_of_bounded (h : Bounded e) : ScratchInside e := by
  refine ⟨(tagWrites_inside e).mpr h.tags, fun s hs c hc => RegionCall.inside_iff.mpr ?_⟩
  have hshort : s.scan.mem.length < maxForwardMatchLength := by
    refine hs.invariant (I := fun s => s.scan.mem.length < maxForwardMatchLength)
      (fun _ => short_step h.word) ?_
    rw [mem_init]
    decide
  revert c
  have hnone : ∀ c ∈ ([] : List RegionCall), c.Fits e.text := fun c hc => absurd hc List.not_mem_nil
  unfold calls
  split
  · split
    · exact hnone
    · next tag htag =>
      intro c hc
      have hmem := List.mem_of_getElem? htag
      obtain ⟨syn, hsyn, rfl⟩ := List.mem_map.mp hc
      have hstart : syn ∈ tag.pat.start := Option.mem_toList.mp hsyn
      refine fits_of_noZ (h.pattern tag.pat ?_ _ (by simp) syn hstart) (h.noZ tag hmem syn hstart)
      obtain ⟨pat, hpat, rfl⟩ := List.mem_map.mp hmem
      exact (List.mem_filter.mp hpat).1
  · exact Scan.calls_fit h.word hshort h.pattern
  · exact hnone

end Parse

end HapAndroid.Highlight
