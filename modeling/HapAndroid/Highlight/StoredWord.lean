import Mathlib.Algebra.Group.Nat.Even
import HapAndroid.Highlight.Probes

/-!
# The word that `\z` stores

A `\z` at a letter stores the word that stands there, or, where a word is stored and stands
there again, forgets it.  This is done at once, also when the alternative fails later.  So after
a call that returns `FALSE` the memory is as before exactly when the `\z` that took a word come
in pairs, and the last pair has stored the word that was there (`memory_kept_iff`).
-/

namespace HapAndroid.Highlight

/-- The word at a position. -/
def FileText.wordAt (t : FileText) (pos : Nat) : Bytes := (t.rest pos).take (t.run isKeyword pos)

/-- Where a test is a `\z` that takes a word. -/
def Probe.zTake (t : FileText) : Probe → Option Nat
  | .elem p pos (some w) =>
      if isEscape p 'z' && isAlpha (t.byte pos) && t.startsWith pos w then some pos else none
  | _ => none

/-- The places of a call where a `\z` takes a word. -/
def zTakes (t : FileText) (pos : Nat) (syn : Bytes) (mem : Option Bytes) : List Nat :=
  (regionProbes t pos syn mem).filterMap (Probe.zTake t)

/-! ## A memory that is filled and emptied -/

/-- The stored word after some of them. -/
def afterTakes (t : FileText) (w : Bytes) (qs : List Nat) : Bytes :=
  qs.foldl (fun w q => if w = [] then t.wordAt q else []) w

section
variable {t : FileText} {w : Bytes} {qs : List Nat}

/-- The memory is empty after an even number, if it was before. -/
theorem afterTakes_eq_nil_iff (h : ∀ q ∈ qs, t.wordAt q ≠ []) :
    afterTakes t w qs = [] ↔ (w = [] ↔ Even qs.length) := by
  induction qs generalizing w with
  | nil => simp [afterTakes]
  | cons q qs ih =>
      obtain ⟨hq, hqs⟩ := List.forall_mem_cons.mp h
      rw [afterTakes, List.foldl_cons, List.length_cons, Nat.even_add_one]
      refine (ih hqs).trans ?_
      by_cases hw : w = []
      · simp [hw, hq]
      · simp [hw]

theorem afterTakes_eq_iff (h : ∀ q ∈ qs, t.wordAt q ≠ []) :
    afterTakes t w qs = w ↔
      Even qs.length ∧ (w ≠ [] → ∀ q ∈ qs.getLast?, t.wordAt q = w) := by
  by_cases hw : w = []
  · subst hw
    rw [afterTakes_eq_nil_iff h]
    simp
  · rcases List.eq_nil_or_concat qs with rfl | ⟨qs, q, rfl⟩
    · simp [afterTakes]
    · rw [List.concat_eq_append] at h ⊢
      have hempty : afterTakes t w qs = [] ↔ (w = [] ↔ Even qs.length) :=
        afterTakes_eq_nil_iff fun q hq => h q (List.mem_append_left _ hq)
      have hlast : afterTakes t w (qs ++ [q]) = if afterTakes t w qs = [] then t.wordAt q else [] :=
        List.foldl_concat ..
      rw [hlast, List.length_append, List.length_singleton, Nat.even_add_one]
      by_cases heven : Even qs.length
      · -- The last one empties the memory.
        rw [if_neg (by simp [hempty, hw, heven])]
        exact iff_of_false (Ne.symm hw) fun h => h.1 heven
      · rw [if_pos (by simp [hempty, hw, heven])]
        simp [heven, hw]

end

/-! ## The memory along a call -/

section
variable {t : FileText} {p : Bytes} {pos : Nat} {w : Bytes}

theorem wordAt_ne_nil (h : isAlpha (t.byte pos) = true) : t.wordAt pos ≠ [] := by
  have hrun := run_pos_of_isAlpha h
  have hle : t.run isKeyword pos ≤ (t.rest pos).length := (List.takeWhile_prefix _).length_le
  intro hnil
  have hlen := congrArg List.length hnil
  rw [FileText.wordAt, List.length_take, List.length_nil] at hlen
  omega

theorem wordAt_of_zTake {pr : Probe} {q : Nat} (h : pr.zTake t = some q) : t.wordAt q ≠ [] := by
  unfold Probe.zTake at h
  split at h
  · split at h
    · next hz =>
      cases h
      simp only [Bool.and_eq_true] at hz
      exact wordAt_ne_nil hz.1.2
    · cases h
  · cases h

/-- What a test leaves stored. -/
def Probe.leaves (t : FileText) (w : Bytes) (pr : Probe) : Bytes := afterTakes t w (pr.zTake t).toList

/-- Only a `\z` at a letter touches the memory. -/
theorem matchText_mem_of_not_z {mem : Option Bytes} {r : TextMatch}
    (h : matchText t p pos mem = some r)
    (hz : ¬(isEscape p 'z' && isAlpha (t.byte pos)) = true) : r.mem = mem := by
  cases tested_matchText h with
  | stays | takes _ _ | blanks | wordEnd _ _ | literal => rfl
  | z hyes _ _ => exact absurd hyes hz

/-- A test changes the memory when it is a `\z` that takes a word. -/
theorem matchText_mem {r : TextMatch} (h : matchText t p pos (some w) = some r) :
    r.mem = some ((Probe.elem p pos (some w)).leaves t w) := by
  by_cases hz : (isEscape p 'z' && isAlpha (t.byte pos)) = true
  · rw [matchText, if_pos hz] at h
    rw [Probe.leaves, Probe.zTake, hz, Bool.true_and]
    unfold matchZ at h
    split at h
    · next hnone => cases hnone
    · next hempty =>
      cases hempty
      split at h
      · cases h
        simp [FileText.startsWith, afterTakes, takes, FileText.wordAt]
      · cases h
    · next word hne heq =>
      cases heq
      split at h
      · split at h
        · next hw =>
          cases h
          have hne : w ≠ [] := hne
          simp [hw, afterTakes, takes, hne]
        · next hw =>
          cases h
          simp [hw, afterTakes, noText]
      · cases h
  · have hnone : (Probe.elem p pos (some w)).zTake t = none := by
      rw [Probe.zTake, if_neg]
      simp only [Bool.and_eq_true] at hz ⊢
      exact fun h => hz h.1
    rw [matchText_mem_of_not_z h hz, Probe.leaves, hnone]
    rfl

theorem afterTakes_cons (w : Bytes) (pr : Probe) (prs : List Probe) :
    afterTakes t w ((pr :: prs).filterMap (Probe.zTake t)) =
      afterTakes t (pr.leaves t w) (prs.filterMap (Probe.zTake t)) := by
  rw [List.filterMap_cons, Probe.leaves]
  cases pr.zTake t <;> rfl

theorem LoopRun.mem_eq {ret : Nat} {prs : List Probe} {e : AltEnd} {mem' : Option Bytes}
    (h : LoopRun t p pos (some w) ret prs (some (e, mem'))) :
    mem' = some (afterTakes t w (prs.filterMap (Probe.zTake t))) := by
  generalize hres : some (e, mem') = res at h
  generalize hmem : some w = mem at h
  induction h generalizing w with
  | nil | lineEnd =>
      cases hres
      exact hmem.symm
  | fault _ _ => cases hres
  | stop _ hr _ =>
      cases hres
      subst hmem
      rw [afterTakes_cons, matchText_mem hr]
      rfl
  | cons _ hr _ _ ih =>
      subst hmem
      rw [afterTakes_cons]
      exact ih hres (matchText_mem hr).symm

theorem AltRun.mem_eq {prs : List Probe} {e : AltEnd} {mem' : Option Bytes}
    (h : AltRun t p pos (some w) prs (some (e, mem'))) :
    mem' = some (afterTakes t w (prs.filterMap (Probe.zTake t))) := by
  generalize hres : some (e, mem') = res at h
  cases h with
  | plain _ hloop =>
      subst hres
      exact hloop.mem_eq
  | noLine _ _ =>
      cases hres
      rfl
  | fault _ _ _ => cases hres
  | stop _ _ hr _ =>
      cases hres
      rw [matchText_mem hr, afterTakes_cons, afterTakes_cons, afterTakes_cons]
      rfl
  | caret _ _ hr _ hloop =>
      subst hres
      rw [matchText_mem hr] at hloop
      rw [hloop.mem_eq, afterTakes_cons, afterTakes_cons, afterTakes_cons]
      rfl

theorem AltsRun.mem_eq {ps : List Bytes} {prs : List Probe} {r : RegionMatch}
    (h : AltsRun t pos ps (some w) prs (some r)) :
    r.mem = some (afterTakes t w (prs.filterMap (Probe.zTake t))) := by
  generalize hres : some r = res at h
  generalize hmem : some w = mem at h
  induction h generalizing w with
  | nil =>
      cases hres
      exact hmem.symm
  | fault _ => cases hres
  | matched halt | leave halt =>
      cases hres
      subst hmem
      exact halt.mem_eq
  | next halt _ ih =>
      subst hmem
      have hrest := ih hres halt.mem_eq.symm
      rw [hrest, List.filterMap_append, afterTakes, afterTakes, afterTakes, List.foldl_append]

theorem matchRegion_mem {syn : Bytes} {r : RegionMatch}
    (h : matchRegion t pos syn (some w) = some r) :
    r.mem = some (afterTakes t w (zTakes t pos syn (some w))) := by
  have hrun : AltsRun t pos (syn.splitOn 0x7C) (some w) (regionProbes t pos syn (some w))
      (matchAlts t pos (syn.splitOn 0x7C) (some w)) := altsRun pos _ _
  rw [matchRegion] at h
  split at h
  · rw [h] at hrun
    exact hrun.mem_eq
  · cases h

end

/-- A call that returns `FALSE` leaves the memory as it was exactly when an even number of `\z`
have taken a word, and, if a word was stored before, the last of them has taken that word. -/
theorem memory_kept_iff {t : FileText} {pos : Nat} {syn w : Bytes} {mem : Option Bytes}
    (h : matchRegion t pos syn (some w) = some ⟨none, mem⟩) :
    mem = some w ↔ Even (zTakes t pos syn (some w)).length ∧
      (w ≠ [] → ∀ q ∈ (zTakes t pos syn (some w)).getLast?, t.wordAt q = w) := by
  have hmem : mem = some (afterTakes t w (zTakes t pos syn (some w))) := matchRegion_mem h
  rw [hmem, Option.some.injEq]
  refine afterTakes_eq_iff fun q hq => ?_
  obtain ⟨pr, -, htake⟩ := List.mem_filterMap.mp hq
  exact wordAt_of_zTake htake

/-- The text `ab`, and nothing behind it. -/
def wordText : FileText := ⟨[0x61, 0x62], by decide, 0⟩

/-- The pattern `\zx|\zy` stores the word and takes it back. -/
theorem memory_kept_twice : ∃ mem,
    matchRegion wordText 0 [0x5C, 0x7A, 0x78, 0x7C, 0x5C, 0x7A, 0x79] (some []) = some ⟨none, mem⟩ ∧
      mem = some [] := by
  have h : matchRegion wordText 0 [0x5C, 0x7A, 0x78, 0x7C, 0x5C, 0x7A, 0x79] (some []) =
      some ⟨none, some []⟩ := rfl
  exact ⟨some [], h, (memory_kept_iff h).mpr ⟨by decide, fun hne => absurd rfl hne⟩⟩

/-- The pattern `\zx` fails at the `x`, and the word stays stored. -/
theorem failed_match_stores :
    ∃ mem, matchRegion wordText 0 [0x5C, 0x7A, 0x78] (some []) = some ⟨none, mem⟩ ∧
      mem ≠ some [] :=
  ⟨some [0x61, 0x62], rfl, by decide⟩

end HapAndroid.Highlight
