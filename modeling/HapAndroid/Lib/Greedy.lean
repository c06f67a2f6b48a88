import Mathlib.Computability.Language
import Mathlib.Data.List.TakeWhile

/-!
# Greedy matching of a row of classes

An atom is a class of letters that stands once, any number of times, or at least once.  A row
of atoms denotes a language in the usual way: the product of the languages of its atoms.  The
matcher goes through the row once, every atom takes as many letters as it can, and nothing is
ever given back.

What the matcher takes is a word of the language (`take?_sound`).  It may miss words, as `a*a`
misses them all, but not where every atom stands once (`take?_append`).
-/

namespace Greedy

open scoped Computability

variable {α : Type*}

/-- How often an atom stands. -/
inductive Rep where
  | one
  | any
  | some
deriving DecidableEq

structure Atom (α : Type*) where
  test : α → Bool
  rep : Rep

/-! ## The language -/

/-- The words of one letter of a class. -/
def letters (test : α → Bool) : Language α := {w | ∃ c, test c = true ∧ w = [c]}

def Atom.lang (a : Atom α) : Language α :=
  match a.rep with
  | .one => letters a.test
  | .any => (letters a.test)∗
  | .some => letters a.test * (letters a.test)∗

def lang (as : List (Atom α)) : Language α := (as.map Atom.lang).prod

theorem mem_kstar_letters {test : α → Bool} {w : List α} (h : ∀ c ∈ w, test c = true) :
    w ∈ (letters test)∗ := by
  refine Language.mem_kstar.mpr ⟨w.map fun c => [c], ?_, ?_⟩
  · rw [← List.flatMap_def, List.flatMap_singleton']
  · intro u hu
    obtain ⟨c, hc, rfl⟩ := List.mem_map.mp hu
    exact ⟨c, h c hc, rfl⟩

theorem mem_lang_cons {a : Atom α} {as : List (Atom α)} {w : List α} :
    w ∈ lang (a :: as) ↔ ∃ u ∈ a.lang, ∃ v ∈ lang as, u ++ v = w := by
  rw [lang, List.map_cons, List.prod_cons]
  exact Language.mem_mul

/-! ## The matcher -/

/-- How many letters an atom takes. -/
def Atom.take? (a : Atom α) (w : List α) : Option Nat :=
  match a.rep with
  | .one => if w.head?.any a.test then some 1 else none
  | .any => some (w.takeWhile a.test).length
  | .some =>
      if (w.takeWhile a.test).length = 0 then none else some (w.takeWhile a.test).length

/-- How many letters a row takes. -/
def take? : List (Atom α) → List α → Option Nat
  | [], _ => some 0
  | a :: as, w => (a.take? w).bind fun n => (take? as (w.drop n)).map (n + ·)

theorem take_length_takeWhile (test : α → Bool) (w : List α) :
    w.take (w.takeWhile test).length = w.takeWhile test :=
  (List.prefix_iff_eq_take.mp (List.takeWhile_prefix test)).symm

theorem Atom.take?_sound {a : Atom α} {w : List α} {n : Nat} (h : a.take? w = some n) :
    n ≤ w.length ∧ w.take n ∈ a.lang := by
  have hle : (w.takeWhile a.test).length ≤ w.length :=
    (List.takeWhile_prefix a.test).length_le
  have hall : ∀ c ∈ w.takeWhile a.test, a.test c = true := fun c hc => List.mem_takeWhile_imp hc
  rw [take?] at h
  rw [Atom.lang]
  cases hrep : a.rep with
  | one =>
      simp only [hrep] at h ⊢
      cases w with
      | nil => simp at h
      | cons c w =>
          cases hc : a.test c with
          | true =>
              simp only [List.head?_cons, Option.any_some, hc, if_true, Option.some.injEq] at h
              subst h
              exact ⟨by simp, c, hc, by simp⟩
          | false => simp [hc] at h
  | any =>
      simp only [hrep, Option.some.injEq] at h ⊢
      subst h
      rw [take_length_takeWhile]
      exact ⟨hle, mem_kstar_letters hall⟩
  | some =>
      simp only [hrep, Option.ite_none_left_eq_some, Option.some.injEq] at h ⊢
      obtain ⟨hne, rfl⟩ := h
      rw [take_length_takeWhile]
      refine ⟨hle, ?_⟩
      -- The run is not empty: its first letter, and the rest of it.
      cases hrun : w.takeWhile a.test with
      | nil => exact absurd (by rw [hrun]; rfl) hne
      | cons c r =>
          rw [hrun] at hall
          have hc : [c] ∈ letters a.test := ⟨c, hall c List.mem_cons_self, rfl⟩
          exact Language.append_mem_mul hc
            (mem_kstar_letters fun b hb => hall b (List.mem_cons_of_mem c hb))

/-- What a row takes is one of its words. -/
theorem take?_sound : ∀ {as : List (Atom α)} {w : List α} {n : Nat}, take? as w = some n →
    n ≤ w.length ∧ w.take n ∈ lang as
  | [], w, n, h => by
      cases h
      exact ⟨Nat.zero_le _, Language.nil_mem_one⟩
  | a :: as, w, n, h => by
      simp only [take?, Option.bind_eq_some_iff, Option.map_eq_some_iff] at h
      obtain ⟨k, hk, m, hm, rfl⟩ := h
      obtain ⟨hkle, hkmem⟩ := Atom.take?_sound hk
      obtain ⟨hmle, hmmem⟩ := take?_sound hm
      rw [List.length_drop] at hmle
      refine ⟨by omega, ?_⟩
      rw [List.take_add]
      exact mem_lang_cons.mpr ⟨_, hkmem, _, hmmem, rfl⟩

/-- Where every atom stands once, a row takes the word of it that the text starts with. -/
theorem take?_append {as : List (Atom α)} (h : ∀ a ∈ as, a.rep = .one) {u v : List α}
    (hu : u ∈ lang as) : take? as (u ++ v) = some u.length := by
  induction as generalizing u with
  | nil =>
      cases (Language.mem_one u).mp hu
      rfl
  | cons a as ih =>
      obtain ⟨x, hx, y, hy, rfl⟩ := mem_lang_cons.mp hu
      have hrep : a.rep = .one := h a List.mem_cons_self
      simp only [Atom.lang, hrep] at hx
      obtain ⟨c, hc, rfl⟩ := hx
      have hy := ih (fun b hb => h b (List.mem_cons_of_mem a hb)) hy
      simp [take?, Atom.take?, hrep, hc, hy, Nat.add_comm]

end Greedy
