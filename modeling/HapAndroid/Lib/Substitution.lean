import HapAndroid.Lib.Pattern
import Mathlib.Data.List.Find
import Mathlib.Data.List.Induction
import Mathlib.Data.List.Nodup

/-!
# Substituting several words at once

A table gives a new text for each of some words.  `substitute` replaces the
words of a list in one pass, and `successive` replaces them one word after the
other, so that a later word may be found in text an earlier pass has put in.

The words are *delimited*: a mark opens them, another closes them, and neither
stands between the two.  Two delimited words never overlap, hence a list can be
cut at the occurrences of one of them and its pieces be treated separately
(`substitute_append`, `split_append_word`).  `successive_iff` compares the two
orders of replacement.
-/

namespace Pattern

variable {α : Type} {l r : α} {w : List α}

/-- The number of matches that splitting or replacing finds. -/
def count (pat : Pat α) (s : List α) : Nat := (split pat s).length - 1

theorem length_split_pos (pat : Pat α) (s : List α) : 0 < (split pat s).length :=
  List.length_pos_iff.mpr (splitFrom_ne_nil pat 0 s)

theorem prefix_concat_forall {β : Type} {P : List β → β → Prop}
    {t : List β} {e : β} :
    (∀ t' e', t' ++ [e'] <+: t ++ [e] → P t' e') ↔
      (∀ t' e', t' ++ [e'] <+: t → P t' e') ∧ P t e := by
  constructor
  · intro h
    exact ⟨fun t' e' hp => h t' e' (hp.trans (List.prefix_append ..)), h t e (List.prefix_refl _)⟩
  · rintro ⟨hall, he⟩ t' e' hp
    rcases List.prefix_concat_iff.mp hp with heq | hp
    · obtain ⟨rfl, hlast⟩ := List.append_inj' heq rfl
      cases hlast
      exact he
    · exact hall t' e' hp

/-- A word between two marks that stand nowhere else in it. -/
def Delimited (l r : α) (w : List α) : Prop :=
  l ≠ r ∧ ∃ m, w = l :: (m ++ [r]) ∧ l ∉ m ∧ r ∉ m

namespace Delimited

theorem ne_nil (h : Delimited l r w) : w ≠ [] := by
  obtain ⟨-, m, rfl, -⟩ := h
  simp

/-- The opening mark comes first and not again. -/
theorem opening (h : Delimited l r w) : ∃ t, w = l :: t ∧ l ∉ t := by
  obtain ⟨hne, m, rfl, hl, -⟩ := h
  exact ⟨_, rfl, by simp [hl, hne]⟩

variable [DecidableEq α]

theorem takeWhile_closing {m : List α} (hr : r ∉ m) (s : List α) :
    (m ++ r :: s).takeWhile (fun c => !decide (c = r)) = m := by
  rw [List.takeWhile_append_of_pos, List.takeWhile_cons_of_neg (by simp), List.append_nil]
  intro c hc
  simpa using fun h : c = r => hr (h ▸ hc)

/-- Of two delimited words at one place, neither is longer. -/
theorem eq_of_append {w' s s' : List α} (h : Delimited l r w) (h' : Delimited l r w')
    (heq : w ++ s = w' ++ s') : w = w' := by
  obtain ⟨-, m, rfl, -, hr⟩ := h
  obtain ⟨-, m', rfl, -, hr'⟩ := h'
  simp only [List.cons_append, List.append_assoc, List.nil_append, List.cons.injEq,
    true_and] at heq
  -- The closing mark is the first one after the opening mark.
  have hm : m = m' := by
    have hfirst := congrArg (List.takeWhile fun c => !decide (c = r)) heq
    rwa [takeWhile_closing hr, takeWhile_closing hr'] at hfirst
  rw [hm]

/-- No delimited word reaches over the start of another. -/
theorem matchesAt_before {w' : List α} (h : Delimited l r w) (h' : Delimited l r w') {u : List α}
    (s : List α) (hu : u ≠ []) :
    matchesAt (literal w) (u ++ (w' ++ s)) = matchesAt (literal w) u := by
  obtain ⟨t, rfl, ht⟩ := h.opening
  obtain ⟨t', rfl, -⟩ := h'.opening
  obtain ⟨c, u, rfl⟩ := List.exists_cons_of_ne_nil hu
  simp only [List.cons_append, literal, List.map_cons, matchesAt_cons_cons]
  rw [matchesAt_barrier (x := l)]
  intro p hp
  obtain ⟨a, ha, rfl⟩ := List.mem_map.mp hp
  exact decide_eq_false fun hla => ht (hla ▸ ha)

end Delimited

/-! ## One pass -/

variable [DecidableEq α]

@[simp] theorem literal_length (w : List α) : (literal w).length = w.length := by
  simp [literal]

/-- Replace the words of a table, after `k` elements that belong to the word
before.  Of several entries for one word the first counts. -/
def substituteFrom (table : List (List α × List α)) : Nat → List α → List α
  | _, [] => []
  | k + 1, _ :: s => substituteFrom table k s
  | 0, c :: s =>
      match table.find? fun e => matchesAt (literal e.1) (c :: s) with
      | some e => e.2 ++ substituteFrom table (e.1.length - 1) s
      | none => c :: substituteFrom table 0 s

/-- Replace every word of a table by its text. -/
def substitute (table : List (List α × List α)) (s : List α) : List α :=
  substituteFrom table 0 s

/-- The text a table gives for a word. -/
def textFor (table : List (List α × List α)) (w : List α) : List α :=
  ((table.find? fun e => e.1 = w).map Prod.snd).getD w

/-- Replacing one word is substituting with a table of one entry. -/
theorem replace_eq_substitute (w v s : List α) :
    replace (literal w) v s = substitute [(w, v)] s := by
  show replaceFrom (literal w) v 0 s = substituteFrom [(w, v)] 0 s
  generalize 0 = k
  induction s generalizing k with
  | nil => cases k <;> rfl
  | cons c s ih =>
      cases k with
      | succ k => exact ih k
      | zero =>
          rw [replaceFrom, substituteFrom, List.find?_cons, List.find?_nil]
          cases matchesAt (literal w) (c :: s) with
          | true => simp [literal_length, ih]
          | false => simp [ih]

theorem substituteFrom_skip (table : List (List α × List α)) (m s : List α) :
    substituteFrom table m.length (m ++ s) = substituteFrom table 0 s := by
  induction m with
  | nil => rfl
  | cons c m ih => simpa [substituteFrom] using ih

section delimited
variable {table : List (List α × List α)} (htable : ∀ e ∈ table, Delimited l r e.1)
include htable

/-- Text without the opening mark is copied. -/
theorem substituteFrom_plain {t : List α} (s : List α) (ht : l ∉ t) :
    substituteFrom table 0 (t ++ s) = t ++ substituteFrom table 0 s := by
  induction t with
  | nil => rfl
  | cons c t ih =>
      have hfind : table.find? (fun e => matchesAt (literal e.1) (c :: (t ++ s))) = none := by
        rw [List.find?_eq_none]
        intro e he
        obtain ⟨t', hw, -⟩ := (htable e he).opening
        have hc : c ≠ l := fun h => ht (h ▸ List.mem_cons_self ..)
        simp [hw, literal, hc]
      rw [List.cons_append, substituteFrom, hfind]
      simp only [ih fun h => ht (List.mem_cons_of_mem _ h), List.cons_append]

theorem substitute_plain {t : List α} (ht : l ∉ t) : substitute table t = t := by
  have hcopy := substituteFrom_plain htable [] ht
  rwa [List.append_nil, substituteFrom, List.append_nil] at hcopy

/-- A delimited word at the front of a list is replaced by its text. -/
theorem substituteFrom_word (hw : Delimited l r w) (s : List α) :
    substituteFrom table 0 (w ++ s) = textFor table w ++ substituteFrom table 0 s := by
  have hfind : table.find? (fun e => matchesAt (literal e.1) (w ++ s)) =
      table.find? fun e => e.1 = w := by
    refine List.find?_congr fun e he => ?_
    rw [Bool.eq_iff_iff, matchesAt_literal_iff, decide_eq_true_eq]
    constructor
    · rintro ⟨t, ht⟩
      exact (hw.eq_of_append (htable e he) ht).symm
    · rintro rfl
      exact ⟨s, rfl⟩
  obtain ⟨t, rfl, ht⟩ := hw.opening
  rw [List.cons_append] at hfind ⊢
  rw [substituteFrom, hfind, textFor]
  cases hopt : table.find? fun e => decide (e.1 = l :: t) with
  | none =>
      simp only [Option.map_none, Option.getD_none, List.cons_append]
      rw [substituteFrom_plain htable s ht]
  | some e =>
      have he : e.1 = l :: t := by simpa using List.find?_some hopt
      simp [he, substituteFrom_skip]

/-- The list may be cut at a delimited word, whether or not the table has it. -/
theorem substitute_append (hw : Delimited l r w) (u s : List α) :
    substitute table (u ++ (w ++ s)) = substitute table u ++ (textFor table w ++ substitute table s) := by
  have hall : ∀ k, k ≤ u.length → substituteFrom table k (u ++ (w ++ s)) =
      substituteFrom table k u ++ (textFor table w ++ substituteFrom table 0 s) := by
    induction u with
    | nil =>
        intro k hk
        obtain rfl : k = 0 := Nat.le_zero.mp hk
        exact substituteFrom_word htable hw s
    | cons c u ih =>
        rintro (_ | k) hk
        · -- No word of the table that begins in the left part reaches the right one.
          have hfind : table.find? (fun e => matchesAt (literal e.1) (c :: (u ++ (w ++ s)))) =
              table.find? fun e => matchesAt (literal e.1) (c :: u) :=
            List.find?_congr fun e he => (htable e he).matchesAt_before hw s (List.cons_ne_nil c u)
          rw [List.cons_append, substituteFrom, hfind, substituteFrom]
          cases hopt : table.find? fun e => matchesAt (literal e.1) (c :: u) with
          | none => simp only [ih 0 (Nat.zero_le _), List.cons_append]
          | some e =>
              have hlen : e.1.length - 1 ≤ u.length := by
                have hmatch : matchesAt (literal e.1) (c :: u) = true := by
                  simpa using List.find?_some hopt
                obtain ⟨t, ht⟩ := matchesAt_literal_iff.mp hmatch
                have := congrArg List.length ht
                simp only [List.length_cons, List.length_append] at this
                omega
              simp only [ih _ hlen, List.append_assoc]
        · exact ih k (Nat.le_of_succ_le_succ hk)
  exact hall 0 (Nat.zero_le _)

end delimited

/-- An entry whose word does not occur changes nothing. -/
theorem substitute_concat_of_not_occurs {table : List (List α × List α)} {v s : List α}
    (h : occurs (literal w) s = false) : substitute (table ++ [(w, v)]) s = substitute table s := by
  show substituteFrom (table ++ [(w, v)]) 0 s = substituteFrom table 0 s
  generalize 0 = k
  induction s generalizing k with
  | nil => cases k <;> rfl
  | cons c s ih =>
      rw [occurs_cons, Bool.or_eq_false_iff] at h
      cases k with
      | succ k => exact ih h.2 k
      | zero =>
          simp only [substituteFrom, List.find?_append, List.find?_cons, h.1, List.find?_nil,
            Option.or_none, ih h.2]

theorem substitute_nil_table (s : List α) : substitute [] s = s := by
  show substituteFrom [] 0 s = s
  induction s with
  | nil => rfl
  | cons c s ih => rw [substituteFrom, List.find?_nil]; simp only [ih]

/-! ## Cutting at a delimited word -/

/-- The list may be cut at a delimited word before it is split at that word. -/
theorem split_append_word (hw : Delimited l r w) (u s : List α) :
    split (literal w) (u ++ (w ++ s)) = split (literal w) u ++ split (literal w) s := by
  have hall : ∀ k, k ≤ u.length → splitFrom (literal w) k (u ++ (w ++ s)) =
      splitFrom (literal w) k u ++ splitFrom (literal w) 0 s := by
    induction u with
    | nil =>
        intro k hk
        obtain rfl : k = 0 := Nat.le_zero.mp hk
        obtain ⟨t, rfl, -⟩ := hw.opening
        have hmatch := matchesAt_literal (l :: t) s
        rw [List.cons_append] at hmatch
        have hlen : (literal (l :: t)).length - 1 = t.length := by simp
        show splitFrom (literal (l :: t)) 0 (l :: (t ++ s)) = [] :: splitFrom _ 0 s
        rw [splitFrom, if_pos hmatch, hlen, splitFrom_skip]
    | cons c u ih =>
        rintro (_ | k) hk
        · have hmatch := hw.matchesAt_before hw s (List.cons_ne_nil c u)
          rw [List.cons_append] at hmatch
          rw [List.cons_append, splitFrom, hmatch, splitFrom]
          split
          · next h =>
            have hlen : (literal w).length - 1 ≤ u.length := by
              obtain ⟨t, ht⟩ := matchesAt_literal_iff.mp h
              have := congrArg List.length ht
              simp only [List.length_cons, List.length_append] at this
              simp only [literal_length]
              omega
            rw [ih _ hlen, List.cons_append]
          · rw [ih 0 (Nat.zero_le _)]
            cases hu : splitFrom (literal w) 0 u with
            | nil => exact absurd hu (splitFrom_ne_nil _ _ _)
            | cons p ps => rfl
        · exact ih k (Nat.le_of_succ_le_succ hk)
  exact hall 0 (Nat.zero_le _)

/-- What holds of lists without a word, and is kept when two lists are joined by
the word, holds of every list. -/
theorem cut_induction (hw : w ≠ []) {P : List α → Prop}
    (whole : ∀ s, occurs (literal w) s = false → P s)
    (cut : ∀ a b, P a → P b → P (a ++ (w ++ b))) (s : List α) : P s := by
  induction h : s.length using Nat.strongRecOn generalizing s with
  | ind n ih =>
      subst h
      cases hk : indexOf? (literal w) s with
      | none => exact whole s (indexOf?_eq_none_iff.mp hk)
      | some k =>
          obtain ⟨a, b, rfl, -, hb⟩ := indexOf?_eq_some hk
          obtain ⟨b, rfl⟩ := matchesAt_literal_iff.mp hb
          have hpos : 0 < w.length := List.length_pos_iff.mpr hw
          exact cut a b (ih _ (by simp; omega) a rfl) (ih _ (by simp; omega) b rfl)

/-- A list is one piece exactly if the word does not occur. -/
theorem length_split_le_one_iff (hw : Delimited l r w) {s : List α} :
    (split (literal w) s).length ≤ 1 ↔ occurs (literal w) s = false := by
  constructor
  · intro hlen
    rw [← indexOf?_eq_none_iff]
    cases hk : indexOf? (literal w) s with
    | none => rfl
    | some k =>
        obtain ⟨a, b, rfl, -, hb⟩ := indexOf?_eq_some hk
        obtain ⟨b, rfl⟩ := matchesAt_literal_iff.mp hb
        have ha := length_split_pos (literal w) a
        have hb := length_split_pos (literal w) b
        rw [split_append_word hw, List.length_append] at hlen
        omega
  · intro h
    rw [split_of_not_occurs h]
    exact Nat.le_refl 1

/-! ## One word after the other -/

/-- Replace the words of a table in its order, each in the text the one before
has left. -/
def successive (table : List (List α × List α)) (s : List α) : List α :=
  table.foldl (fun s e => replace (literal e.1) e.2 s) s

section successive
variable {t : List (List α × List α)} {v : List α}

theorem textFor_of_not_mem (h : ∀ e ∈ t, e.1 ≠ w) : textFor t w = w := by
  have hfind : t.find? (fun e => decide (e.1 = w)) = none := by
    rw [List.find?_eq_none]
    intro e he
    simpa using h e he
  rw [textFor, hfind]
  rfl

theorem textFor_concat (h : ∀ e ∈ t, e.1 ≠ w) : textFor (t ++ [(w, v)]) w = v := by
  have hfind : t.find? (fun e => decide (e.1 = w)) = none := by
    rw [List.find?_eq_none]
    intro e he
    simpa using h e he
  simp [textFor, List.find?_append, hfind]

variable (ht : ∀ e ∈ t, Delimited l r e.1) (hw : Delimited l r w) (hnew : ∀ e ∈ t, e.1 ≠ w)
include ht hw hnew

/-- Substituting other words loses no occurrence of a word, and adds none exactly
if no piece between its occurrences comes to hold it. -/
theorem length_split_substitute (s : List α) :
    (split (literal w) s).length ≤ (split (literal w) (substitute t s)).length ∧
      ((split (literal w) (substitute t s)).length ≤ (split (literal w) s).length ↔
        ∀ u ∈ split (literal w) s, occurs (literal w) (substitute t u) = false) := by
  induction s using cut_induction hw.ne_nil with
  | whole s h =>
      have hpos := length_split_pos (literal w) (substitute t s)
      rw [split_of_not_occurs h]
      refine ⟨hpos, ?_⟩
      simpa using length_split_le_one_iff hw
  | cut a b iha ihb =>
      rw [substitute_append ht hw, textFor_of_not_mem hnew, split_append_word hw,
        split_append_word hw, List.length_append, List.length_append]
      refine ⟨Nat.add_le_add iha.1 ihb.1, ?_⟩
      simp only [List.forall_mem_append, ← iha.2, ← ihb.2]
      have := iha.1
      have := ihb.1
      omega

/-- If no piece comes to hold the word, replacing it afterwards is the same as
having it in the table. -/
theorem replace_substitute (v s : List α)
    (h : ∀ u ∈ split (literal w) s, occurs (literal w) (substitute t u) = false) :
    replace (literal w) v (substitute t s) = substitute (t ++ [(w, v)]) s := by
  have hone : ∀ e ∈ [(w, v)], Delimited l r e.1 := by simpa using hw
  have hmore : ∀ e ∈ t ++ [(w, v)], Delimited l r e.1 := by
    simpa [or_imp, forall_and] using ⟨fun a b => ht (a, b), hw⟩
  rw [replace_eq_substitute]
  induction s using cut_induction hw.ne_nil with
  | whole s hs =>
      have hnot : occurs (literal w) (substitute t s) = false := by
        apply h
        rw [split_of_not_occurs hs]
        exact List.mem_singleton.mpr rfl
      rw [substitute_concat_of_not_occurs hs, ← List.nil_append [(w, v)],
        substitute_concat_of_not_occurs hnot, substitute_nil_table]
  | cut a b iha ihb =>
      rw [split_append_word hw, List.forall_mem_append] at h
      have hself : textFor [(w, v)] w = v := textFor_concat (t := []) (by simp)
      rw [substitute_append ht hw, textFor_of_not_mem hnew, substitute_append hone hw, hself,
        substitute_append hmore hw, textFor_concat hnew, iha h.1, ihb h.2]

end successive

/-- Before a word is replaced, no piece of the list between its occurrences comes to
hold it through the words before it in the table. -/
def Inert (table : List (List α × List α)) (s : List α) : Prop :=
  ∀ t e, t ++ [e] <+: table →
    ∀ u ∈ split (literal e.1) s, occurs (literal e.1) (substitute t u) = false

/-- Each pass finds as many matches as the given list has. -/
def SameMatches (table : List (List α × List α)) (s : List α) : Prop :=
  ∀ t e, t ++ [e] <+: table → count (literal e.1) (successive t s) = count (literal e.1) s

section table
variable {table : List (List α × List α)} (htable : ∀ e ∈ table, Delimited l r e.1)
  (hnodup : (table.map Prod.fst).Nodup)
include htable hnodup

/-- If the words are inert, replacing one after the other is substituting them at
once. -/
theorem successive_eq_substitute {s : List α} (h : Inert table s) :
    successive table s = substitute table s := by
  induction table using List.reverseRecOn with
  | nil => exact (substitute_nil_table s).symm
  | append_singleton t e ih =>
      obtain ⟨hall, he⟩ := prefix_concat_forall.mp h
      obtain ⟨htable, hlast⟩ := List.forall_mem_append.mp htable
      rw [List.map_append, List.nodup_append'] at hnodup
      have hnew : ∀ e' ∈ t, e'.1 ≠ e.1 := fun e' he' heq =>
        hnodup.2.2 (List.mem_map_of_mem he') (by simp [heq])
      have hstep : successive (t ++ [e]) s = replace (literal e.1) e.2 (successive t s) := by
        simp [successive]
      rw [hstep, ih htable hnodup.1 hall]
      exact replace_substitute htable (hlast e (List.mem_singleton.mpr rfl)) hnew e.2 s he

/-- Each pass finds as many matches as the given list has exactly if the words are
inert. -/
theorem sameMatches_iff_inert (s : List α) : SameMatches table s ↔ Inert table s := by
  induction table using List.reverseRecOn with
  | nil => simp [SameMatches, Inert]
  | append_singleton t e ih =>
      obtain ⟨htable, hlast⟩ := List.forall_mem_append.mp htable
      rw [List.map_append, List.nodup_append'] at hnodup
      have hnew : ∀ e' ∈ t, e'.1 ≠ e.1 := fun e' he' heq =>
        hnodup.2.2 (List.mem_map_of_mem he') (by simp [heq])
      rw [SameMatches, prefix_concat_forall, Inert, prefix_concat_forall]
      refine (and_congr_left' (ih htable hnodup.1)).trans (and_congr_right fun hall => ?_)
      -- The text before this pass is the substituted one, so the pieces decide.
      rw [successive_eq_substitute htable hnodup.1 hall]
      obtain ⟨hle, hiff⟩ := length_split_substitute htable (hlast e (by simp)) hnew s
      rw [← hiff]
      have := length_split_pos (literal e.1) s
      simp only [count]
      omega

end table

end Pattern
