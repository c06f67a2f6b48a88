import HapAndroid.Highlight.Scratch
import HapAndroid.Highlight.TextReads

/-!
# The byte in front of the text

The byte in front of the text is one of the heap: it is what an earlier use of the memory or the
allocator has left there.  `^` and `\b` read it when they are tested at the first byte of the text.
A run in which no test does so is the same with any byte there (`iterate_behind`).
-/

namespace HapAndroid.Highlight

/-- The text with another byte in front of it. -/
def FileText.behind (t : FileText) (b : UInt8) : FileText := { t with before := b }

/-- No test of a call reads the byte in front of the text. -/
def RegionCall.LooksInside (t : FileText) (c : RegionCall) : Prop :=
  ∀ pr ∈ regionProbes t c.pos c.syn c.mem, pr.LooksInside

instance (pr : Probe) : Decidable pr.LooksInside :=
  match pr with
  | .start _ | .lineEnd _ => isTrue trivial
  | .caret pos => inferInstanceAs (Decidable (pos ≠ 0))
  | .elem p pos _ => inferInstanceAs (Decidable (isEscape p 'b' = true → pos ≠ 0))

instance (t : FileText) (c : RegionCall) : Decidable (c.LooksInside t) :=
  inferInstanceAs (Decidable (∀ pr ∈ regionProbes t c.pos c.syn c.mem, pr.LooksInside))

section
variable {t : FileText} (b : UInt8) {p : Bytes} {pos : Nat} {mem : Option Bytes}

theorem FileText.prev_behind (h : pos ≠ 0) : (t.behind b).prev pos = t.prev pos := by
  rw [prev, prev, if_neg h, if_neg h]
  rfl

/-! ## One call -/

theorem matchText_behind (h : (Probe.elem p pos mem).LooksInside) :
    matchText (t.behind b) p pos mem = matchText t p pos mem := by
  by_cases hb : isEscape p 'b' = true
  · have hend : matchWordEnd (t.behind b) p pos mem = matchWordEnd t p pos mem := by
      rw [matchWordEnd, matchWordEnd, FileText.prev_behind b (h hb)]
      rfl
    rw [matchText, matchText, hend]
    rfl
  · rw [matchText, matchText, if_neg hb, if_neg hb]
    rfl

theorem matchLoop_behind {fuel : Nat} {ret : Nat}
    (h : ∀ pr ∈ loopProbes t fuel p pos mem, pr.LooksInside) :
    matchLoop (t.behind b) fuel p pos mem ret = matchLoop t fuel p pos mem ret := by
  induction fuel generalizing p pos mem ret with
  | zero => cases p <;> rfl
  | succ fuel ih =>
      cases p with
      | nil => rfl
      | cons c p =>
          rw [loopProbes] at h
          rw [matchLoop, matchLoop]
          split
          · rfl
          · next hc =>
            rw [if_neg hc] at h
            obtain ⟨helem, hrest⟩ := List.forall_mem_cons.mp h
            rw [matchText_behind b helem]
            cases hr : matchText t (c :: p) pos mem with
            | none => rfl
            | some r =>
                rw [hr] at hrest
                dsimp only at hrest ⊢
                split
                · rfl
                · next hlen =>
                  rw [if_neg hlen] at hrest
                  exact ih hrest

theorem matchAlt_behind (h : ∀ pr ∈ altProbes t p pos mem, pr.LooksInside) :
    matchAlt (t.behind b) p pos mem = matchAlt t p pos mem := by
  rw [altProbes, List.forall_mem_cons] at h
  replace h := h.2
  rw [matchAlt, matchAlt]
  split
  · next hc =>
    rw [if_pos hc] at h
    obtain ⟨hcaret, hrest⟩ := List.forall_mem_cons.mp h
    rw [FileText.prev_behind b hcaret]
    split
    · next hline =>
      rw [if_pos (show t.LineStart pos from hline)] at hrest
      obtain ⟨helem, hloop⟩ := List.forall_mem_cons.mp hrest
      rw [matchText_behind b helem]
      cases hr : matchText t (p.drop 1) pos mem with
      | none => rfl
      | some r =>
          rw [hr] at hloop
          dsimp only at hloop ⊢
          split
          · rfl
          · next hlen =>
            rw [if_neg hlen] at hloop
            exact matchLoop_behind b hloop
    · rfl
  · next hc =>
    rw [if_neg hc] at h
    exact matchLoop_behind b h

theorem matchAlts_behind {ps : List Bytes}
    (h : ∀ pr ∈ altsProbes t pos ps mem, pr.LooksInside) :
    matchAlts (t.behind b) pos ps mem = matchAlts t pos ps mem := by
  induction ps generalizing mem with
  | nil => rfl
  | cons p ps ih =>
      rw [altsProbes, List.forall_mem_append] at h
      obtain ⟨halt, hrest⟩ := h
      rw [matchAlts, matchAlts, matchAlt_behind b halt]
      cases hres : matchAlt t p pos mem with
      | none => rfl
      | some e =>
          obtain ⟨e, mem'⟩ := e
          rw [hres] at hrest
          cases e with
          | matched n | leave => rfl
          | next => exact ih hrest

theorem matchRegion_behind {syn : Bytes} (h : RegionCall.LooksInside t ⟨pos, syn, mem⟩) :
    matchRegion (t.behind b) pos syn mem = matchRegion t pos syn mem := by
  rw [matchRegion, matchRegion, matchAlts_behind b h]

end

/-! ## One step -/

namespace ScanEnv

/-- The same with another byte in front of the text. -/
def behind (e : ScanEnv) (b : UInt8) : ScanEnv := { e with text := e.text.behind b }

variable {e : ScanEnv} (b : UInt8) {pos : Nat} {m : Bytes} {p : Option Bytes}

theorem tryMatch_behind (h : ∀ c ∈ callFor pos m p, c.LooksInside e.text) :
    (e.behind b).tryMatch pos m p = e.tryMatch pos m p := by
  cases p with
  | none => rfl
  | some syn =>
      have hcall : RegionCall.LooksInside e.text ⟨pos, syn, some m⟩ := h _ (by simp [callFor])
      exact congrArg (Option.map _) (matchRegion_behind b hcall)

end ScanEnv

namespace Scan

variable {e : ScanEnv} (b : UInt8) {s : Scan}

/-- The two tests of a step. -/
theorem tryMatch_callsFor {p q : Option Bytes} (h : ∀ c ∈ callsFor e s p q, c.LooksInside e.text) :
    (e.behind b).tryMatch s.pos s.mem p = e.tryMatch s.pos s.mem p ∧
      ∀ m, e.tryMatch s.pos s.mem p = some (none, m) →
        (e.behind b).tryMatch s.pos m q = e.tryMatch s.pos m q := by
  obtain ⟨hfirst, hsecond⟩ := List.forall_mem_append.mp h
  refine ⟨ScanEnv.tryMatch_behind b hfirst, fun m hm => ScanEnv.tryMatch_behind b ?_⟩
  rwa [hm] at hsecond

theorem stepItem_behind {idx : Nat} (hpc : s.pc = .item idx)
    (h : ∀ c ∈ calls e s, c.LooksInside e.text) :
    stepItem (e.behind b) s idx = stepItem e s idx := by
  rw [calls, hpc] at h
  dsimp only at h
  have hbuf : (e.behind b).buf = e.buf := rfl
  have hbyte : (e.behind b).text.byte s.pos = e.text.byte s.pos := rfl
  rw [stepItem, stepItem, hbuf, hbyte]
  cases hget : e.buf.patterns[idx]? with
  | none => rfl
  | some pat =>
      rw [hget] at h
      dsimp only at h ⊢
      split
      · rfl
      · next h0 =>
        rw [if_neg h0] at h
        split
        · rfl
        · next hskip =>
          rw [if_neg hskip] at h
          obtain ⟨hmatch, hstart⟩ := tryMatch_callsFor b h
          rw [hmatch]
          cases hm : e.tryMatch s.pos s.mem pat.match with
          | none => rfl
          | some r =>
              obtain ⟨n, m⟩ := r
              cases n with
              | none =>
                  dsimp only
                  rw [hstart m hm]
              | some n => rfl

theorem stepRegion_behind {idx : Nat} {second : Bool} (hpc : s.pc = .region idx second)
    (h : ∀ c ∈ calls e s, c.LooksInside e.text) :
    stepRegion (e.behind b) s idx second = stepRegion e s idx second := by
  rw [calls, hpc] at h
  dsimp only at h
  have hbuf : (e.behind b).buf = e.buf := rfl
  have hbyte : (e.behind b).text.byte s.pos = e.text.byte s.pos := rfl
  rw [stepRegion, stepRegion, hbuf, hbyte]
  cases hget : e.buf.patterns[idx]? with
  | none => rfl
  | some pat =>
      rw [hget] at h
      dsimp only at h ⊢
      split
      · rfl
      · next h0 =>
        rw [if_neg h0] at h
        obtain ⟨hskip, hend⟩ := tryMatch_callsFor b h
        rw [hskip]
        cases hm : e.tryMatch s.pos s.mem pat.skip with
        | none => rfl
        | some r =>
            obtain ⟨n, m⟩ := r
            cases n with
            | none =>
                dsimp only
                rw [hend m hm]
                rfl
            | some n => rfl

theorem step_behind (h : ∀ c ∈ calls e s, c.LooksInside e.text) :
    step (e.behind b) s = step e s := by
  rw [step, step]
  cases hpc : s.pc with
  | item idx => exact stepItem_behind b hpc h
  | region idx second => exact stepRegion_behind b hpc h
  | enter | top | advance | stop | fault => rfl

end Scan

namespace ParseEnv

/-- The same with another byte in front of the text. -/
def behind (e : ParseEnv) (b : UInt8) : ParseEnv := { e with text := e.text.behind b }

end ParseEnv

namespace Parse

open Machine

variable {e : ParseEnv} (b : UInt8) {s : Parse}

theorem step_behind (h : ∀ c ∈ calls e s, c.LooksInside e.text) :
    step (e.behind b) s = step e s := by
  rw [calls] at h
  rw [step, step]
  cases hpc : s.pc with
  | tag idx =>
      rw [hpc] at h
      dsimp only at h ⊢
      have htags : (e.behind b).tags = e.tags := rfl
      rw [stepTag, stepTag, htags]
      cases htag : e.tags[idx]? with
      | none => rfl
      | some tag =>
          rw [htag] at h
          dsimp only at h ⊢
          cases hsyn : tag.pat.start with
          | none => rfl
          | some syn =>
              rw [hsyn] at h
              have hcall : RegionCall.LooksInside e.text ⟨s.scan.pos, syn, none⟩ := h _ (by simp)
              have hmatch : matchRegion (e.behind b).text s.scan.pos syn none =
                  matchRegion e.text s.scan.pos syn none := matchRegion_behind b hcall
              dsimp only
              rw [hmatch]
  | scanning tag =>
      rw [hpc] at h
      dsimp only at h ⊢
      have hscan : Scan.step ((e.behind b).scanEnv tag) s.scan = Scan.step (e.scanEnv tag) s.scan :=
        Scan.step_behind b h
      split
      · rfl
      · rfl
      · rw [on, on, hscan]
  | head | other tag | after tag | done | fault => rfl

/-! ## A run -/

/-- No test of the run reads the byte in front of the text. -/
def LooksInside (e : ParseEnv) : Prop :=
  ∀ s, Reaches (step e) (init e) s → ∀ c ∈ calls e s, c.LooksInside e.text

/-- Such a run is the same with any byte there. -/
theorem iterate_behind (h : LooksInside e) (n : Nat) :
    (step (e.behind b))^[n] (init (e.behind b)) = (step e)^[n] (init e) := by
  induction n with
  | zero => rfl
  | succ n ih =>
      rw [Function.iterate_succ_apply', Function.iterate_succ_apply', ih]
      exact step_behind b (h _ ⟨n, rfl⟩)

end Parse

end HapAndroid.Highlight
