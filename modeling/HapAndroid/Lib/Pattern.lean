import Mathlib.Data.List.Basic

/-!
# Fixed-width patterns in lists

A *pattern* is a list of tests, one per element, so a match has the length of
the pattern.  A literal word is a pattern of equality tests, and a regular
expression without repetition is one with a wider test in some places.  The
module has the searches a string library offers over such patterns: the first
position of a match, cutting a list at its matches, and replacing them.
Matches are taken leftmost first and do not overlap.

`split_append` and `split_of_not_occurs` say where a list is cut.
`not_occurs_of_mem_split` says that no piece holds a match.  An element that
every test of the pattern refuses is a *barrier*: no match spans it, so a
search may treat the two sides separately (`occurs_barrier`,
`indexOf?_barrier`, `split_barrier`).
-/

namespace Pattern

variable {α : Type}

/-- One test per element of a match. -/
abbrev Pat (α : Type) := List (α → Bool)

/-- The pattern that matches one word only. -/
def literal [DecidableEq α] (w : List α) : Pat α := w.map fun a c => decide (c = a)

/-- Whether a match stands at the front of a list. -/
def matchesAt : Pat α → List α → Bool
  | [], _ => true
  | _ :: _, [] => false
  | p :: ps, c :: s => p c && matchesAt ps s

@[simp] theorem matchesAt_nil_left (s : List α) : matchesAt [] s = true := by
  cases s <;> rfl

@[simp] theorem matchesAt_cons_nil (p : α → Bool) (ps : Pat α) :
    matchesAt (p :: ps) [] = false := rfl

@[simp] theorem matchesAt_cons_cons (p : α → Bool) (ps : Pat α) (c : α) (s : List α) :
    matchesAt (p :: ps) (c :: s) = (p c && matchesAt ps s) := rfl

/-- A match stays one when the list is continued. -/
theorem matchesAt_append {pat : Pat α} {s : List α} (h : matchesAt pat s = true) (t : List α) :
    matchesAt pat (s ++ t) = true := by
  induction pat generalizing s with
  | nil => exact matchesAt_nil_left _
  | cons p ps ih =>
      cases s with
      | nil => simp at h
      | cons c s =>
          simp only [matchesAt_cons_cons, Bool.and_eq_true] at h
          simp [h.1, ih h.2]

theorem matchesAt_literal [DecidableEq α] (w t : List α) :
    matchesAt (literal w) (w ++ t) = true := by
  induction w with
  | nil => rfl
  | cons a w ih => simpa [literal] using ih

/-- A literal word matches where it is a prefix. -/
theorem matchesAt_literal_iff [DecidableEq α] {w s : List α} :
    matchesAt (literal w) s = true ↔ ∃ t, s = w ++ t := by
  constructor
  · intro h
    induction w generalizing s with
    | nil => exact ⟨s, rfl⟩
    | cons a w ih =>
        cases s with
        | nil => simp [literal] at h
        | cons c s =>
            simp only [literal, List.map_cons, matchesAt_cons_cons, Bool.and_eq_true,
              decide_eq_true_eq] at h
            obtain ⟨t, ht⟩ := ih h.2
            exact ⟨t, by rw [h.1, ht, List.cons_append]⟩
  · rintro ⟨t, rfl⟩
    exact matchesAt_literal w t

/-! ## The first position of a match -/

/-- The first position at which the pattern matches. -/
def indexOf? (pat : Pat α) : List α → Option Nat
  | [] => if matchesAt pat [] then some 0 else none
  | c :: s => if matchesAt pat (c :: s) then some 0 else (indexOf? pat s).map (· + 1)

/-- Whether the pattern matches anywhere. -/
def occurs (pat : Pat α) (s : List α) : Bool := (indexOf? pat s).isSome

theorem indexOf?_eq_none_iff {pat : Pat α} {s : List α} :
    indexOf? pat s = none ↔ occurs pat s = false := by
  simp [occurs]

theorem occurs_cons (pat : Pat α) (c : α) (s : List α) :
    occurs pat (c :: s) = (matchesAt pat (c :: s) || occurs pat s) := by
  simp only [occurs, indexOf?]
  by_cases h : matchesAt pat (c :: s) = true
  · simp [h]
  · simp [h]

/-- A match at the front of any suffix is an occurrence. -/
theorem occurs_append_of_matchesAt {pat : Pat α} (a : List α) {s : List α}
    (h : matchesAt pat s = true) : occurs pat (a ++ s) = true := by
  induction a with
  | nil =>
      cases s with
      | nil => simp [occurs, indexOf?, h]
      | cons c s =>
          rw [List.nil_append, occurs_cons, h]
          rfl
  | cons c a ih =>
      rw [List.cons_append, occurs_cons, ih, Bool.or_true]

theorem occurs_append_left {pat : Pat α} {s : List α} (h : occurs pat s = true) (t : List α) :
    occurs pat (s ++ t) = true := by
  induction s with
  | nil =>
      have hm : matchesAt pat [] = true := by
        by_contra hn
        simp [occurs, indexOf?, hn] at h
      exact occurs_append_of_matchesAt [] (matchesAt_append hm t)
  | cons c s ih =>
      rw [occurs_cons, Bool.or_eq_true] at h
      rcases h with h | h
      · exact occurs_append_of_matchesAt [] (matchesAt_append h t)
      · rw [List.cons_append, occurs_cons, ih h, Bool.or_true]

/-- A word that stands in a text occurs in it. -/
theorem occurs_literal [DecidableEq α] (a w b : List α) :
    occurs (literal w) (a ++ w ++ b) = true := by
  rw [List.append_assoc]
  exact occurs_append_of_matchesAt a (matchesAt_literal w b)

/-! ## Barriers -/

/-- An element no test of the pattern accepts. -/
def Barrier (pat : Pat α) (x : α) : Prop := ∀ p ∈ pat, p x = false

theorem Barrier.tail {p : α → Bool} {ps : Pat α} {x : α} (h : Barrier (p :: ps) x) :
    Barrier ps x :=
  fun q hq => h q (List.mem_cons_of_mem _ hq)

/-- A match in front of a barrier ends before it. -/
theorem matchesAt_barrier {pat : Pat α} {x : α} (hx : Barrier pat x) (v b : List α) :
    matchesAt pat (v ++ x :: b) = matchesAt pat v := by
  induction pat generalizing v with
  | nil => rw [matchesAt_nil_left, matchesAt_nil_left]
  | cons p ps ih =>
      cases v with
      | nil =>
          have hp : p x = false := hx p (List.mem_cons_self ..)
          simp [hp]
      | cons c v => simp [ih hx.tail v]

/-- An occurrence lies on one side of a barrier. -/
theorem occurs_barrier {pat : Pat α} {x : α} (hx : Barrier pat x) (hne : pat ≠ [])
    (a b : List α) : occurs pat (a ++ x :: b) = (occurs pat a || occurs pat b) := by
  obtain ⟨p, ps, rfl⟩ := List.exists_cons_of_ne_nil hne
  induction a with
  | nil =>
      have hm : matchesAt (p :: ps) (x :: b) = false := by
        have h := matchesAt_barrier hx [] b
        rwa [List.nil_append, matchesAt_cons_nil] at h
      rw [List.nil_append, occurs_cons, hm]
      simp [occurs, indexOf?]
  | cons c a ih =>
      have hm := matchesAt_barrier hx (c :: a) b
      rw [List.cons_append] at hm
      rw [List.cons_append, occurs_cons, hm, ih, occurs_cons, Bool.or_assoc]

/-- The first match of a text cut by a barrier is that of the left side, if it
has one. -/
theorem indexOf?_barrier {pat : Pat α} {x : α} (hx : Barrier pat x) (hne : pat ≠ [])
    (a b : List α) :
    indexOf? pat (a ++ x :: b) =
      (indexOf? pat a).orElse fun _ => (indexOf? pat b).map (· + (a.length + 1)) := by
  obtain ⟨p, ps, rfl⟩ := List.exists_cons_of_ne_nil hne
  induction a with
  | nil =>
      have hm : matchesAt (p :: ps) (x :: b) = false := by
        have h := matchesAt_barrier hx [] b
        rwa [List.nil_append, matchesAt_cons_nil] at h
      simp [indexOf?, hm]
  | cons c a ih =>
      have hm := matchesAt_barrier hx (c :: a) b
      rw [List.cons_append] at hm
      rw [List.cons_append, indexOf?, hm, indexOf?]
      by_cases h : matchesAt (p :: ps) (c :: a) = true
      · simp [h]
      · rw [if_neg h, if_neg h, ih]
        cases indexOf? (p :: ps) a with
        | some k => simp
        | none =>
            cases indexOf? (p :: ps) b with
            | none => simp
            | some k => simp [Nat.add_assoc]

/-- What the first position says about the list. -/
theorem indexOf?_eq_some {pat : Pat α} {s : List α} {k : Nat} (h : indexOf? pat s = some k) :
    ∃ a b, s = a ++ b ∧ a.length = k ∧ matchesAt pat b = true := by
  induction s generalizing k with
  | nil =>
      by_cases hm : matchesAt pat [] = true
      · simp only [indexOf?, hm, if_true, Option.some.injEq] at h
        exact ⟨[], [], rfl, h, hm⟩
      · simp [indexOf?, hm] at h
  | cons c s ih =>
      rw [indexOf?] at h
      by_cases hm : matchesAt pat (c :: s) = true
      · rw [if_pos hm, Option.some.injEq] at h
        exact ⟨[], c :: s, rfl, h, hm⟩
      · rw [if_neg hm] at h
        obtain ⟨j, hj, hjk⟩ := Option.map_eq_some_iff.mp h
        obtain ⟨a, b, hab, hlen, hb⟩ := ih hj
        exact ⟨c :: a, b, by rw [hab, List.cons_append], by simp [hlen, hjk], hb⟩

/-! ## Cutting at matches -/

/-- Put an element in front of the first piece. -/
def consHead (c : α) : List (List α) → List (List α)
  | [] => [[c]]
  | p :: ps => (c :: p) :: ps

/-- The pieces between the matches, after `k` elements that belong to the match
before. -/
def splitFrom (pat : Pat α) : Nat → List α → List (List α)
  | _, [] => [[]]
  | k + 1, _ :: s => splitFrom pat k s
  | 0, c :: s =>
      if matchesAt pat (c :: s) then [] :: splitFrom pat (pat.length - 1) s
      else consHead c (splitFrom pat 0 s)

/-- The pieces of a list between its matches. -/
def split (pat : Pat α) (s : List α) : List (List α) := splitFrom pat 0 s

theorem splitFrom_skip (pat : Pat α) (m s : List α) :
    splitFrom pat m.length (m ++ s) = splitFrom pat 0 s := by
  induction m with
  | nil => rfl
  | cons c m ih => simpa [splitFrom] using ih

/-- A list no match begins in, followed by a match, is the first piece. -/
theorem split_append {pat : Pat α} (a : List α) {m : List α} (r : List α)
    (hlen : m.length = pat.length) (hne : pat ≠ []) (hm : matchesAt pat m = true)
    (ha : ∀ u v, a = u ++ v → v ≠ [] → matchesAt pat (v ++ (m ++ r)) = false) :
    split pat (a ++ (m ++ r)) = a :: split pat r := by
  unfold split
  induction a with
  | nil =>
      cases m with
      | nil => exact absurd (List.length_eq_zero_iff.mp hlen.symm) hne
      | cons c m =>
          have hmr : matchesAt pat (c :: (m ++ r)) = true := matchesAt_append hm r
          have hlen' : pat.length - 1 = m.length := by simp [← hlen]
          rw [List.nil_append, List.cons_append, splitFrom, if_pos hmr, hlen', splitFrom_skip]
  | cons c a ih =>
      have hc := ha [] (c :: a) rfl (by simp)
      have hc' : ¬ matchesAt pat (c :: (a ++ (m ++ r))) = true := by
        rw [List.cons_append] at hc
        simp [hc]
      have htail := ih fun u v huv hv => ha (c :: u) v (by rw [huv, List.cons_append]) hv
      rw [List.cons_append, splitFrom, if_neg hc', htail]
      rfl

/-- A match right after a barrier, with none before it, ends the first piece. -/
theorem split_barrier {pat : Pat α} {x : α} (hx : Barrier pat x) (hne : pat ≠ []) {u m : List α}
    (r : List α) (hu : occurs pat u = false) (hlen : m.length = pat.length)
    (hm : matchesAt pat m = true) :
    split pat (u ++ x :: (m ++ r)) = (u ++ [x]) :: split pat r := by
  have hsplit : u ++ x :: (m ++ r) = (u ++ [x]) ++ (m ++ r) := by simp
  rw [hsplit]
  refine split_append (u ++ [x]) r hlen hne hm fun a v hav hv => ?_
  -- What precedes the match ends with the barrier, so a match would lie in `u`.
  obtain ⟨w, hw⟩ : ∃ w, v = w ++ [x] := by
    refine ⟨v.dropLast, ?_⟩
    have hlast := congrArg List.getLast? hav
    rw [List.getLast?_concat, List.getLast?_append_of_ne_nil _ hv] at hlast
    rw [← List.dropLast_concat_getLast hv]
    rw [List.getLast?_eq_some_getLast hv, Option.some.injEq] at hlast
    rw [← hlast, List.dropLast_concat]
  subst hw
  rw [← List.append_assoc] at hav
  have huw : u = a ++ w := (List.append_inj' hav rfl).1
  rw [List.append_assoc, List.singleton_append, matchesAt_barrier hx]
  by_contra hmatch
  rw [Bool.not_eq_false] at hmatch
  rw [huw, occurs_append_of_matchesAt a hmatch] at hu
  cases hu

/-- A list without a match is one piece. -/
theorem split_of_not_occurs {pat : Pat α} {s : List α} (h : occurs pat s = false) :
    split pat s = [s] := by
  unfold split
  induction s with
  | nil => rfl
  | cons c s ih =>
      rw [occurs_cons, Bool.or_eq_false_iff] at h
      rw [splitFrom, if_neg (by simp [h.1]), ih h.2]
      rfl

theorem splitFrom_ne_nil (pat : Pat α) (k : Nat) (s : List α) : splitFrom pat k s ≠ [] := by
  induction s generalizing k with
  | nil => simp [splitFrom]
  | cons c s ih =>
      cases k with
      | succ k => simpa [splitFrom] using ih k
      | zero =>
          rw [splitFrom]
          split
          · simp
          · cases hsp : splitFrom pat 0 s with
            | nil => exact absurd hsp (ih 0)
            | cons p ps => simp [consHead]

/-- The first piece is a prefix of the list. -/
theorem head_splitFrom_prefix {pat : Pat α} {s p : List α} {ps : List (List α)}
    (h : splitFrom pat 0 s = p :: ps) : p <+: s := by
  induction s generalizing p ps with
  | nil =>
      simp only [splitFrom, List.cons.injEq] at h
      exact h.1 ▸ List.nil_prefix
  | cons c s ih =>
      rw [splitFrom] at h
      split at h
      · simp only [List.cons.injEq] at h
        exact h.1 ▸ List.nil_prefix
      · cases hsp : splitFrom pat 0 s with
        | nil => exact absurd hsp (splitFrom_ne_nil pat 0 s)
        | cons q qs =>
            rw [hsp, consHead, List.cons.injEq] at h
            rw [← h.1]
            exact List.cons_prefix_cons.mpr ⟨rfl, ih hsp⟩

theorem not_occurs_of_mem_splitFrom {pat : Pat α} (hne : pat ≠ []) (k : Nat) (s : List α) :
    ∀ x ∈ splitFrom pat k s, occurs pat x = false := by
  have hnil : occurs pat [] = false := by
    obtain ⟨p, ps, rfl⟩ := List.exists_cons_of_ne_nil hne
    simp [occurs, indexOf?]
  induction s generalizing k with
  | nil =>
      intro x hx
      simp only [splitFrom, List.mem_singleton] at hx
      rw [hx, hnil]
  | cons c s ih =>
      intro x hx
      cases k with
      | succ k => exact ih k x hx
      | zero =>
          rw [splitFrom] at hx
          split at hx
          · rcases List.mem_cons.mp hx with rfl | hx
            · exact hnil
            · exact ih _ x hx
          · next hc =>
            cases hsp : splitFrom pat 0 s with
            | nil => exact absurd hsp (splitFrom_ne_nil pat 0 s)
            | cons q qs =>
                rw [hsp, consHead] at hx
                rcases List.mem_cons.mp hx with rfl | hx
                · -- a match at the front of the extended piece would be one of the whole list
                  rw [occurs_cons, Bool.or_eq_false_iff]
                  refine ⟨?_, ih 0 q (by rw [hsp]; exact List.mem_cons_self ..)⟩
                  by_contra hm
                  obtain ⟨t, ht⟩ := head_splitFrom_prefix hsp
                  have hfull := matchesAt_append (Bool.of_not_eq_false hm) t
                  rw [List.cons_append, ht] at hfull
                  exact hc hfull
                · exact ih 0 x (by rw [hsp]; exact List.mem_cons_of_mem _ hx)

/-- No piece holds a match. -/
theorem not_occurs_of_mem_split {pat : Pat α} (hne : pat ≠ []) {s x : List α}
    (h : x ∈ split pat s) : occurs pat x = false :=
  not_occurs_of_mem_splitFrom hne 0 s x h

/-! ## Replacing matches -/

/-- Replace the matches, after `k` elements that belong to the match before. -/
def replaceFrom (pat : Pat α) (new : List α) : Nat → List α → List α
  | _, [] => []
  | k + 1, _ :: s => replaceFrom pat new k s
  | 0, c :: s =>
      if matchesAt pat (c :: s) then new ++ replaceFrom pat new (pat.length - 1) s
      else c :: replaceFrom pat new 0 s

/-- Replace every match of a pattern. -/
def replace (pat : Pat α) (new s : List α) : List α := replaceFrom pat new 0 s

/-- A list without a match stays as it is. -/
theorem replace_of_not_occurs {pat : Pat α} {new s : List α} (h : occurs pat s = false) :
    replace pat new s = s := by
  unfold replace
  induction s with
  | nil => rfl
  | cons c s ih =>
      rw [occurs_cons, Bool.or_eq_false_iff] at h
      rw [replaceFrom, if_neg (by simp [h.1]), ih h.2]

/-- Deleting a word takes whole copies of it out of the list. -/
theorem exists_perm_replace_nil [DecidableEq α] {w : List α} (hw : w ≠ []) (s : List α) :
    ∃ m, (replace (literal w) [] s ++ (List.replicate m w).flatten).Perm s := by
  -- Inside a match, what is still to be skipped belongs to a copy counted before.
  have hall : ∀ k, k ≤ s.length → ∃ m,
      (replaceFrom (literal w) [] k s ++ (s.take k ++ (List.replicate m w).flatten)).Perm s := by
    induction s with
    | nil => exact fun k _ => ⟨0, by simp [replaceFrom]⟩
    | cons c s ih =>
        rintro (_ | k) hk
        · rw [replaceFrom]
          split
          · next hmatch =>
            obtain ⟨t, ht⟩ := matchesAt_literal_iff.mp hmatch
            obtain ⟨a, w, rfl⟩ := List.exists_cons_of_ne_nil hw
            rw [List.cons_append, List.cons.injEq] at ht
            obtain ⟨rfl, rfl⟩ := ht
            obtain ⟨m, hm⟩ := ih w.length (by simp)
            refine ⟨m + 1, ?_⟩
            have hlen : (literal (c :: w)).length - 1 = w.length := by simp [literal]
            rw [List.take_left] at hm
            simp only [hlen, List.nil_append, List.take_zero, List.replicate_succ,
              List.flatten_cons, List.cons_append]
            exact List.perm_middle.trans (hm.cons c)
          · obtain ⟨m, hm⟩ := ih 0 (Nat.zero_le _)
            exact ⟨m, by simpa using hm⟩
        · obtain ⟨m, hm⟩ := ih k (Nat.le_of_succ_le_succ hk)
          exact ⟨m, List.perm_middle.trans (hm.cons c)⟩
  obtain ⟨m, hm⟩ := hall 0 (Nat.zero_le _)
  exact ⟨m, by simpa [replace] using hm⟩

/-! ## Cutting at one element -/

/-- Each occurrence of the element ends a piece. -/
theorem length_splitOn [DecidableEq α] (a : α) (s : List α) :
    (s.splitOn a).length = s.count a + 1 := by
  induction s with
  | nil => simp
  | cons c s ih =>
      rw [List.splitOn_cons_eq_if_modifyHead]
      split
      · next h => simp [ih, eq_of_beq h]
      · next h => rw [List.length_modifyHead, ih, List.count_cons, if_neg h]

/-- The pieces hold everything but the element. -/
theorem length_flatten_splitOn [DecidableEq α] (a : α) (s : List α) :
    (s.splitOn a).flatten.length + s.count a = s.length := by
  induction s with
  | nil => simp
  | cons c s ih =>
      rw [List.splitOn_cons_eq_if_modifyHead, List.count_cons]
      split
      · next h => simp only [List.flatten_cons, List.nil_append, List.length_cons]; omega
      · next h =>
        cases hsp : s.splitOn a with
        | nil => exact absurd hsp (List.splitOn_ne_nil a s)
        | cons p ps =>
            rw [hsp] at ih
            simp only [List.modifyHead_cons, List.flatten_cons, List.cons_append,
              List.length_cons] at ih ⊢
            omega

end Pattern
