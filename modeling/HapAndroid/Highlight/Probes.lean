import HapAndroid.Highlight.Match

/-!
# The tests of `match_region`

The tests that a call makes, in order: the start of an alternative, `^`, `$`, and the calls of
`match_text`.  The relations `LoopRun`, `AltRun` and `AltsRun` say once how the three loops go
on after a test, with the tests that they make and what they return.
-/

namespace HapAndroid.Highlight

inductive Probe where
  /-- The pointer into the text is set for an alternative. -/
  | start (pos : Nat)
  /-- `^` -/
  | caret (pos : Nat)
  /-- `$` -/
  | lineEnd (pos : Nat)
  /-- `match_text` is called. -/
  | elem (p : Bytes) (pos : Nat) (mem : Option Bytes)
deriving DecidableEq

section
variable (t : FileText)

def loopProbes : Nat → Bytes → Nat → Option Bytes → List Probe
  | _, [], _, _ => []
  | 0, _ :: _, _, _ => []
  | fuel + 1, c :: p, pos, mem =>
      if c = 0x24 then [.lineEnd pos]
      else
        .elem (c :: p) pos mem ::
          match matchText t (c :: p) pos mem with
          | none => []
          | some r => if r.len = 0 then [] else loopProbes fuel r.pat r.pos r.mem

def altProbes (p : Bytes) (pos : Nat) (mem : Option Bytes) : List Probe :=
  .start pos ::
    if p.getD 0 0 = 0x5E then
      .caret pos ::
        if t.LineStart pos then
          .elem (p.drop 1) pos mem ::
            match matchText t (p.drop 1) pos mem with
            | none => []
            | some r => if r.len = 0 then [] else loopProbes t r.pat.length r.pat r.pos r.mem
        else []
    else loopProbes t p.length p pos mem

def altsProbes (pos : Nat) : List Bytes → Option Bytes → List Probe
  | [], _ => []
  | p :: ps, mem =>
      altProbes t p pos mem ++
        match matchAlt t p pos mem with
        | some (.next, mem) => altsProbes pos ps mem
        | _ => []

/-- The tests of a call. -/
def regionProbes (pos : Nat) (syn : Bytes) (mem : Option Bytes) : List Probe :=
  altsProbes t pos (syn.splitOn 0x7C) mem

end

/-! ## The runs of the loops -/

section
variable (t : FileText)

/-- The loop over the elements: what is left of the alternative, the position, the stored word and
the length so far, the tests from there on and the result. -/
inductive LoopRun : Bytes → Nat → Option Bytes → Nat → List Probe →
    Option (AltEnd × Option Bytes) → Prop where
  | nil {pos mem ret} : LoopRun [] pos mem ret [] (some (.matched ret, mem))
  | lineEnd {p pos mem ret} : LoopRun (0x24 :: p) pos mem ret [.lineEnd pos]
      (some (if t.byte pos = 0x0A ∨ t.byte pos = 0 then .matched ret else .next, mem))
  | fault {c p pos mem ret} : c ≠ 0x24 → matchText t (c :: p) pos mem = none →
      LoopRun (c :: p) pos mem ret [.elem (c :: p) pos mem] none
  | stop {c p pos mem ret r} : c ≠ 0x24 → matchText t (c :: p) pos mem = some r → r.len = 0 →
      LoopRun (c :: p) pos mem ret [.elem (c :: p) pos mem]
        (some (if r.pat = [] then .matched ret else .next, r.mem))
  | cons {c p pos mem ret r prs res} : c ≠ 0x24 → matchText t (c :: p) pos mem = some r →
      r.len ≠ 0 → LoopRun r.pat r.pos r.mem (ret + r.len.toNat) prs res →
      LoopRun (c :: p) pos mem ret (.elem (c :: p) pos mem :: prs) res

/-- One alternative. -/
inductive AltRun (p : Bytes) (pos : Nat) (mem : Option Bytes) : List Probe →
    Option (AltEnd × Option Bytes) → Prop where
  | plain {prs res} : p.getD 0 0 ≠ 0x5E → LoopRun t p pos mem 0 prs res →
      AltRun p pos mem (.start pos :: prs) res
  | noLine : p.getD 0 0 = 0x5E → ¬t.LineStart pos →
      AltRun p pos mem [.start pos, .caret pos] (some (.leave, mem))
  | fault : p.getD 0 0 = 0x5E → t.LineStart pos →
      matchText t (p.drop 1) pos mem = none →
      AltRun p pos mem [.start pos, .caret pos, .elem (p.drop 1) pos mem] none
  | stop {r} : p.getD 0 0 = 0x5E → t.LineStart pos →
      matchText t (p.drop 1) pos mem = some r → r.len = 0 →
      AltRun p pos mem [.start pos, .caret pos, .elem (p.drop 1) pos mem] (some (.leave, r.mem))
  | caret {r prs res} : p.getD 0 0 = 0x5E → t.LineStart pos →
      matchText t (p.drop 1) pos mem = some r → r.len ≠ 0 →
      LoopRun t r.pat r.pos r.mem r.len.toNat prs res →
      AltRun p pos mem (.start pos :: .caret pos :: .elem (p.drop 1) pos mem :: prs) res

/-- The loop over the alternatives. -/
inductive AltsRun (pos : Nat) : List Bytes → Option Bytes → List Probe → Option RegionMatch →
    Prop where
  | nil {mem} : AltsRun pos [] mem [] (some ⟨none, mem⟩)
  | fault {p ps mem prs} : AltRun t p pos mem prs none → AltsRun pos (p :: ps) mem prs none
  | matched {p ps mem mem' prs n} : AltRun t p pos mem prs (some (.matched n, mem')) →
      AltsRun pos (p :: ps) mem prs (some ⟨some n, mem'⟩)
  | leave {p ps mem mem' prs} : AltRun t p pos mem prs (some (.leave, mem')) →
      AltsRun pos (p :: ps) mem prs (some ⟨none, mem'⟩)
  | next {p ps mem mem' prs prs' res} : AltRun t p pos mem prs (some (.next, mem')) →
      AltsRun pos ps mem' prs' res → AltsRun pos (p :: ps) mem (prs ++ prs') res

end

section
variable {t : FileText}

theorem loopRun {fuel : Nat} {p : Bytes} (h : p.length ≤ fuel) (pos : Nat) (mem : Option Bytes)
    (ret : Nat) :
    LoopRun t p pos mem ret (loopProbes t fuel p pos mem) (matchLoop t fuel p pos mem ret) := by
  induction fuel generalizing p pos mem ret with
  | zero =>
      obtain rfl := List.eq_nil_of_length_eq_zero (Nat.le_zero.mp h)
      rw [loopProbes, matchLoop]
      exact .nil
  | succ fuel ih =>
      cases p with
      | nil =>
          rw [loopProbes, matchLoop]
          exact .nil
      | cons c p =>
          rw [loopProbes, matchLoop]
          split
          · next hc => exact hc ▸ .lineEnd
          · next hc =>
            cases hr : matchText t (c :: p) pos mem with
            | none => exact .fault hc hr
            | some r =>
                dsimp only
                split
                · next hlen => exact .stop hc hr hlen
                · next hlen =>
                  have hlt := (sound_matchText hr).pat_lt hlen
                  rw [List.length_cons] at h hlt
                  exact .cons hc hr hlen (ih (by omega) ..)

theorem altRun (p : Bytes) (pos : Nat) (mem : Option Bytes) :
    AltRun t p pos mem (altProbes t p pos mem) (matchAlt t p pos mem) := by
  rw [altProbes, matchAlt]
  split
  · next hc =>
    by_cases hline : t.LineStart pos
    · rw [if_pos hline, if_pos (show t.prev pos = 0 ∨ t.prev pos = 0x0A from hline)]
      cases hr : matchText t (p.drop 1) pos mem with
      | none => exact .fault hc hline hr
      | some r =>
          dsimp only
          split
          · next hlen => exact .stop hc hline hr hlen
          · next hlen => exact .caret hc hline hr hlen (loopRun (Nat.le_refl _) ..)
    · rw [if_neg hline, if_neg (show ¬(t.prev pos = 0 ∨ t.prev pos = 0x0A) from hline)]
      exact .noLine hc hline
  · next hc => exact .plain hc (loopRun (Nat.le_refl _) ..)

theorem altsRun (pos : Nat) (ps : List Bytes) (mem : Option Bytes) :
    AltsRun t pos ps mem (altsProbes t pos ps mem) (matchAlts t pos ps mem) := by
  induction ps generalizing mem with
  | nil => exact .nil
  | cons p ps ih =>
      have hrun : AltRun t p pos mem (altProbes t p pos mem) (matchAlt t p pos mem) := altRun p pos mem
      rw [altsProbes, matchAlts]
      cases hres : matchAlt t p pos mem with
      | none =>
          rw [hres] at hrun
          rw [List.append_nil]
          exact .fault hrun
      | some e =>
          obtain ⟨e, mem'⟩ := e
          rw [hres] at hrun
          cases e with
          | matched n =>
              rw [List.append_nil]
              exact .matched hrun
          | next => exact .next hrun (ih mem')
          | leave =>
              rw [List.append_nil]
              exact .leave hrun

end

/-! ## The memory of a test -/

/-- A `\z` at a letter has a memory, a word that it stores fits into it, and a word that it compares
with ends in it. -/
def ZInMemory (t : FileText) (p : Bytes) (pos : Nat) (mem : Option Bytes) : Prop :=
  isEscape p 'z' = true → isAlpha (t.byte pos) = true → ∃ w, mem = some w ∧
    (w = [] → t.run isKeyword pos ≤ maxForwardMatchLength) ∧
    (w ≠ [] → w.length < maxForwardMatchLength)

/-- The test stays in its memory. -/
def Probe.InMemory (t : FileText) : Probe → Prop
  | .elem p pos mem => ZInMemory t p pos mem ∧ ¬(p.getD 0 0 = 0 ∧ t.byte pos = 0)
  | _ => True

section
variable {t : FileText} {p : Bytes} {pos : Nat} {mem : Option Bytes}

theorem matchZ_isSome_iff : (matchZ t p pos mem).isSome = true ↔ ∃ w, mem = some w ∧
    (w = [] → t.run isKeyword pos ≤ maxForwardMatchLength) ∧
    (w ≠ [] → w.length < maxForwardMatchLength) := by
  unfold matchZ
  split
  · simp
  · split <;> simp_all
  · next w hne =>
    have hw : w ≠ [] := hne
    split
    · next hlen =>
      refine ⟨fun _ => ⟨w, rfl, fun h => absurd h hw, fun _ => hlen⟩, fun _ => ?_⟩
      split <;> rfl
    · next hlen =>
      constructor
      · intro h
        cases h
      · rintro ⟨_, heq, -, h⟩
        cases heq
        exact absurd (h hw) hlen

theorem isEscape_iff {c : Char} :
    isEscape p c = true ↔ p.getD 0 0 = 0x5C ∧ p.getD 1 0 = c.toUInt8 := by
  simp only [isEscape, Bool.and_eq_true, beq_iff_eq]

theorem eq_cons_of_isEscape {c : Char} (hc : c.toUInt8 ≠ 0) (h : isEscape p c = true) :
    ∃ q, p = 0x5C :: c.toUInt8 :: q := by
  obtain ⟨h0, h1⟩ := isEscape_iff.mp h
  match p with
  | [] => cases h0
  | [_] => exact absurd h1.symm hc
  | a :: b :: q =>
      obtain rfl : a = 0x5C := h0
      obtain rfl : b = c.toUInt8 := h1
      exact ⟨q, rfl⟩

theorem ne_zero_of_isEscape {c : Char} (h : isEscape p c = true) : p.getD 0 0 ≠ 0 := by
  rw [(isEscape_iff.mp h).1]
  decide

theorem unescape_eq_zero_iff : (unescape p).getD 0 0 = 0 ↔ p.getD 0 0 = 0 := by
  unfold unescape
  split
  · next h =>
    have h1 : (p.drop 1).getD 0 0 = '$'.toUInt8 := by
      rw [← (isEscape_iff.mp h).2, List.getD_eq_getElem?_getD, List.getElem?_drop,
        List.getD_eq_getElem?_getD]
    refine iff_of_false ?_ (ne_zero_of_isEscape h)
    rw [h1]
    decide
  · rfl

theorem matchLiteral_isSome_iff :
    (matchLiteral t p pos mem).isSome = true ↔ ¬(p.getD 0 0 = 0 ∧ t.byte pos = 0) := by
  rw [← unescape_eq_zero_iff, matchLiteral]
  split
  · next h => exact iff_of_false (by simp) (not_not_intro h)
  · next h =>
    refine iff_of_true ?_ h
    split <;> rfl

theorem matchText_isSome_iff : (matchText t p pos mem).isSome = true ↔
    ZInMemory t p pos mem ∧ ¬(p.getD 0 0 = 0 ∧ t.byte pos = 0) := by
  unfold matchText ZInMemory
  split
  · next hz =>
    obtain ⟨hesc, halpha⟩ := Bool.and_eq_true_iff.mp hz
    have hbyte : t.byte pos ≠ 0 := fun h => by simp [h, isAlpha] at halpha
    rw [matchZ_isSome_iff]
    exact ⟨fun h => ⟨fun _ _ => h, fun h0 => hbyte h0.2⟩, fun h => h.1 hesc halpha⟩
  · next hz =>
    have hno : isEscape p 'z' = true → isAlpha (t.byte pos) = true → False :=
      fun h h' => hz (Bool.and_eq_true_iff.mpr ⟨h, h'⟩)
    have hz' : ∀ {P : Prop}, (isEscape p 'z' = true → isAlpha (t.byte pos) = true → P) :=
      fun h h' => (hno h h').elim
    split
    · next hs =>
      refine iff_of_true ?_ ⟨hz', fun h0 => ne_zero_of_isEscape hs h0.1⟩
      split
      · rfl
      · split <;> rfl
    · split
      · next hw =>
        refine iff_of_true ?_ ⟨hz', fun h0 => ne_zero_of_isEscape hw h0.1⟩
        split <;> rfl
      · split
        · next hb => exact iff_of_true rfl ⟨hz', fun h0 => ne_zero_of_isEscape hb h0.1⟩
        · rw [matchLiteral_isSome_iff]
          exact ⟨fun h => ⟨hz', h⟩, And.right⟩

/-! ## Tests that return 0 -/

theorem run_pos_of_isAlpha (h : isAlpha (t.byte pos) = true) : 0 < t.run isKeyword pos := by
  rw [FileText.byte_eq_headD] at h
  rw [FileText.run]
  cases hrest : t.rest pos with
  | nil => simp [hrest, isAlpha] at h
  | cons b w =>
      rw [hrest, List.headD_cons] at h
      simp [isKeyword, h]

/-- What a test can do. -/
inductive Tested (t : FileText) (p : Bytes) (pos : Nat) (mem : Option Bytes) : TextMatch → Prop where
  | stays : Tested t p pos mem (noText p pos mem)
  | takes (k : Nat) {n : Nat} (hn : 0 < n) : Tested t p pos mem (takes p pos mem k n)
  | blanks : Tested t p pos mem (matchBlanks t p pos mem)
  | wordEnd (hb : isEscape p 'b' = true) (hend : t.WordEnd pos) :
      Tested t p pos mem { Highlight.takes p pos mem 2 1 with len := 0 }
  | literal : Tested t p pos mem (Highlight.takes (unescape p) pos mem 1 1)
  /-- A `\z` stores a word, or forgets it. -/
  | z (hz : (isEscape p 'z' && isAlpha (t.byte pos)) = true) (mem' : Option Bytes) {n : Nat}
      (hn : 0 < n) : Tested t p pos mem (Highlight.takes p pos mem' 2 n)

theorem tested_matchRun (cls : UInt8 → Bool) : Tested t p pos mem (matchRun t p pos mem cls) := by
  unfold matchRun
  split
  · exact .stays
  · next hrun => exact .takes 3 (Nat.pos_of_ne_zero hrun)

theorem tested_matchOne (cls : UInt8 → Bool) : Tested t p pos mem (matchOne t p pos mem cls) := by
  unfold matchOne
  split
  · exact .takes 2 Nat.one_pos
  · exact .stays

theorem tested_matchZ {r : TextMatch} (hz : (isEscape p 'z' && isAlpha (t.byte pos)) = true)
    (h : matchZ t p pos mem = some r) : Tested t p pos mem r := by
  unfold matchZ at h
  split at h
  · cases h
  · split at h
    · cases h
      exact .z hz _ (run_pos_of_isAlpha (Bool.and_eq_true_iff.mp hz).2)
    · cases h
  · next w hne =>
    split at h
    · split at h
      · cases h
        exact .z hz _ (List.length_pos_of_ne_nil hne)
      · cases h
        exact .stays
    · cases h

theorem tested_matchLiteral {r : TextMatch} (h : matchLiteral t p pos mem = some r) :
    Tested t p pos mem r := by
  unfold matchLiteral at h
  split at h
  · cases h
  · split at h
    · cases h
      exact .literal
    · cases h
      exact .stays

theorem tested_matchText {r : TextMatch} (h : matchText t p pos mem = some r) :
    Tested t p pos mem r := by
  unfold matchText at h
  split at h
  · next hz => exact tested_matchZ hz h
  · split at h
    · split at h
      · cases h
        exact .blanks
      · split at h
        · cases h
          exact tested_matchRun isBlank
        · cases h
          exact tested_matchOne isBlank
    · split at h
      · split at h
        · cases h
          exact tested_matchRun isKeyword
        · cases h
          exact tested_matchOne isKeyword
      · split at h
        · next hb =>
          cases h
          unfold matchWordEnd
          split
          · next hend =>
            rw [Bool.and_eq_true_iff, Bool.not_eq_true'] at hend
            exact .wordEnd hb hend
          · exact .stays
        · exact tested_matchLiteral h

/-- A test that returns 0 changes nothing, but for a `\b` at the end of a word. -/
theorem matchText_len_zero {r : TextMatch} (h : matchText t p pos mem = some r) (hlen : r.len = 0) :
    r = noText p pos mem ∨
      isEscape p 'b' = true ∧ t.WordEnd pos ∧ r = { takes p pos mem 2 1 with len := 0 } := by
  cases tested_matchText h with
  | stays => exact .inl rfl
  | takes k hn => exact absurd (Int.natCast_eq_zero.mp hlen) (Nat.ne_of_gt hn)
  | blanks =>
      -- The length of `\s*` is -1 where there are no blanks.
      simp only [matchBlanks] at hlen
      split at hlen
      · cases hlen
      · next hne => exact absurd (Int.natCast_eq_zero.mp hlen) hne
  | wordEnd hb hend => exact .inr ⟨hb, hend, rfl⟩
  | literal => cases hlen
  | z _ _ hn => exact absurd (Int.natCast_eq_zero.mp hlen) (Nat.ne_of_gt hn)

end

/-! ## Calls that return -/

section
variable {t : FileText} {pos : Nat} {mem : Option Bytes}

theorem Probe.inMemory_elem_iff {p : Bytes} :
    (Probe.elem p pos mem).InMemory t ↔ (matchText t p pos mem).isSome = true :=
  matchText_isSome_iff.symm

theorem inMemory_of_some {p : Bytes} {r : TextMatch} (h : matchText t p pos mem = some r) :
    (Probe.elem p pos mem).InMemory t :=
  Probe.inMemory_elem_iff.mpr (h ▸ rfl)

theorem not_inMemory_of_none {p : Bytes} (h : matchText t p pos mem = none) :
    ¬(Probe.elem p pos mem).InMemory t := by
  rw [Probe.inMemory_elem_iff, h]
  exact Bool.false_ne_true

theorem LoopRun.isSome_iff {p : Bytes} {ret : Nat} {prs : List Probe}
    {res : Option (AltEnd × Option Bytes)} (h : LoopRun t p pos mem ret prs res) :
    res.isSome = true ↔ ∀ pr ∈ prs, pr.InMemory t := by
  induction h with
  | nil => simp
  | lineEnd => simp [Probe.InMemory]
  | fault _ hr => simpa using not_inMemory_of_none hr
  | stop _ hr _ => simpa using inMemory_of_some hr
  | cons _ hr _ _ ih =>
      rw [ih, List.forall_mem_cons]
      exact ⟨fun h => ⟨inMemory_of_some hr, h⟩, And.right⟩

theorem AltRun.isSome_iff {p : Bytes} {prs : List Probe} {res : Option (AltEnd × Option Bytes)}
    (h : AltRun t p pos mem prs res) : res.isSome = true ↔ ∀ pr ∈ prs, pr.InMemory t := by
  have htrivial : (Probe.start pos).InMemory t ∧ (Probe.caret pos).InMemory t := ⟨trivial, trivial⟩
  cases h with
  | plain _ hloop => simp [hloop.isSome_iff, htrivial]
  | noLine _ _ => simp [htrivial]
  | fault _ _ hr => simpa [htrivial] using not_inMemory_of_none hr
  | stop _ _ hr _ => simpa [htrivial] using inMemory_of_some hr
  | caret _ _ hr _ hloop =>
      have helem := inMemory_of_some hr
      rw [hloop.isSome_iff, List.forall_mem_cons, List.forall_mem_cons, List.forall_mem_cons]
      exact ⟨fun h => ⟨htrivial.1, htrivial.2, helem, h⟩, fun h => h.2.2.2⟩

theorem AltsRun.isSome_iff {ps : List Bytes} {prs : List Probe} {res : Option RegionMatch}
    (h : AltsRun t pos ps mem prs res) : res.isSome = true ↔ ∀ pr ∈ prs, pr.InMemory t := by
  induction h with
  | nil => simp
  | fault halt => simpa using halt.isSome_iff
  | matched halt => simpa using halt.isSome_iff
  | leave halt => simpa using halt.isSome_iff
  | next halt _ ih =>
      have hfirst := halt.isSome_iff.mp rfl
      rw [ih, List.forall_mem_append]
      exact ⟨fun h => ⟨hfirst, h⟩, And.right⟩

/-- A call returns when the pattern fits into the buffer and every test stays in its memory. -/
theorem matchRegion_isSome_iff {syn : Bytes} : (matchRegion t pos syn mem).isSome = true ↔
    syn.length < maxSplitMatchLength ∧ ∀ pr ∈ regionProbes t pos syn mem, pr.InMemory t := by
  have hrun : AltsRun t pos (syn.splitOn 0x7C) mem (regionProbes t pos syn mem)
      (matchAlts t pos (syn.splitOn 0x7C) mem) := altsRun pos _ mem
  rw [matchRegion, ← hrun.isSome_iff]
  split
  · next h => exact ⟨fun hs => ⟨h, hs⟩, And.right⟩
  · next h => exact iff_of_false Bool.false_ne_true fun hs => h hs.1

end

end HapAndroid.Highlight
