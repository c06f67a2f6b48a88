import Mathlib.Data.List.Basic

/-!
# A process that nobody reads

A process writes to two pipes of a bounded size.  As long as nothing is taken out of them it goes on
only until one is full.  So it comes to its end exactly if it has an end and all that it writes on
the way there fits (`Ends`).

`Reached` is what holds of a process at every moment: it has done the first of its deeds, none of
them was its exit, and what they wrote is in the pipes.  A process that ends can always take the
next step up to its exit (`Reached.exists_step`), and one that has come to its exit ends
(`Reached.ends`).
-/

namespace Pipes

variable {β : Type}

/-- What a process does next. -/
inductive Deed (β : Type) where
  | err (b : β)
  | out (b : β)
  /-- Anything that does not concern the pipes. -/
  | work
  | exit
deriving DecidableEq

/-- How many deeds are done, and what is in the pipes. -/
structure Progress (β : Type) where
  pos : Nat
  err : List β
  out : List β
deriving DecidableEq

namespace Progress

def start : Progress β := ⟨0, [], []⟩

def after (s : Progress β) : Deed β → Progress β
  | .err b => ⟨s.pos + 1, s.err ++ [b], s.out⟩
  | .out b => ⟨s.pos + 1, s.err, s.out ++ [b]⟩
  | .work | .exit => ⟨s.pos + 1, s.err, s.out⟩

@[simp] theorem pos_after (s : Progress β) (e : Deed β) : (s.after e).pos = s.pos + 1 := by
  cases e <;> rfl

/-- Neither pipe holds more than it can. -/
def Fits (size : Nat) (s : Progress β) : Prop := s.err.length ≤ size ∧ s.out.length ≤ size

instance (size : Nat) (s : Progress β) : Decidable (s.Fits size) :=
  inferInstanceAs (Decidable (_ ∧ _))

/-- Nothing is taken out. -/
theorem Fits.of_after {size : Nat} {s : Progress β} {e : Deed β} (h : (s.after e).Fits size) :
    s.Fits size := by
  obtain ⟨herr, hout⟩ := h
  cases e with
  | err b => exact ⟨Nat.le_trans (by simp [after]) herr, hout⟩
  | out b => exact ⟨herr, Nat.le_trans (by simp [after]) hout⟩
  | work | exit => exact ⟨herr, hout⟩

end Progress

section
variable (size : Nat) (does : Nat → Deed β)

/-- The next deed, unless it is the exit or its pipe is full. -/
def step (s : Progress β) : Option (Progress β) :=
  match does s.pos with
  | .exit => none
  | e => if (s.after e).Fits size then some (s.after e) else none

/-- The first deeds, with pipes of any size. -/
def upTo : Nat → Progress β
  | 0 => .start
  | k + 1 => (upTo k).after (does k)

/-- The process exits after so many deeds. -/
def Exits (k : Nat) : Prop := does k = .exit ∧ ∀ m < k, does m ≠ .exit

instance [DecidableEq β] (k : Nat) : Decidable (Exits does k) := inferInstanceAs (Decidable (_ ∧ _))

/-- The process exits, and what it has written by then fits into the pipes. -/
def Ends : Prop := ∃ k, Exits does k ∧ (upTo does k).Fits size

/-- What holds of a process while it runs. -/
structure Reached (s : Progress β) : Prop where
  eq_upTo : s = upTo does s.pos
  not_exit : ∀ m < s.pos, does m ≠ .exit
  fits : s.Fits size

variable {size does} {s s' : Progress β} {k : Nat}

theorem Exits.unique {k' : Nat} (h : Exits does k) (h' : Exits does k') : k = k' := by
  rcases Nat.lt_trichotomy k k' with hlt | heq | hlt
  · exact absurd h.1 (h'.2 k hlt)
  · exact heq
  · exact absurd h'.1 (h.2 k' hlt)

/-- A process that writes too much before its exit does not end. -/
theorem Exits.not_ends (h : Exits does k) (hfits : ¬ (upTo does k).Fits size) :
    ¬ Ends size does := by
  rintro ⟨k', hexit, hfits'⟩
  rw [hexit.unique h] at hfits'
  exact hfits hfits'

theorem fits_upTo_of_le {m : Nat} (hle : m ≤ k) (h : (upTo does k).Fits size) :
    (upTo does m).Fits size := by
  induction hle with
  | refl => exact h
  | step _ ih => exact ih h.of_after

theorem reached_start : Reached size does .start :=
  ⟨rfl, fun _ hm => absurd hm (Nat.not_lt_zero _), ⟨Nat.zero_le _, Nat.zero_le _⟩⟩

theorem Reached.exits (h : Reached size does s) (hexit : does s.pos = .exit) :
    Exits does s.pos :=
  ⟨hexit, h.not_exit⟩

/-- A process that has come to its exit ends. -/
theorem Reached.ends (h : Reached size does s) (hexit : does s.pos = .exit) : Ends size does :=
  ⟨s.pos, h.exits hexit, h.eq_upTo ▸ h.fits⟩

/-- A process has not passed its exit. -/
theorem Reached.pos_le (h : Reached size does s) (hexit : Exits does k) : s.pos ≤ k := by
  by_contra hlt
  exact h.not_exit k (Nat.lt_of_not_le hlt) hexit.1

theorem step_of_ne_exit (h : does s.pos ≠ .exit) : step size does s =
    if (s.after (does s.pos)).Fits size then some (s.after (does s.pos)) else none := by
  rw [step]
  cases hdeed : does s.pos with
  | exit => exact absurd hdeed h
  | err b | out b | work => rfl

theorem step_eq_some (h : step size does s = some s') :
    does s.pos ≠ .exit ∧ s' = s.after (does s.pos) ∧ s'.Fits size := by
  have hexit : does s.pos ≠ .exit := by
    intro hexit
    rw [step, hexit] at h
    cases h
  rw [step_of_ne_exit hexit, Option.ite_none_right_eq_some] at h
  obtain ⟨hfits, heq⟩ := h
  cases heq
  exact ⟨hexit, rfl, hfits⟩

theorem Reached.of_step (h : Reached size does s) (hstep : step size does s = some s') :
    Reached size does s' := by
  obtain ⟨hexit, rfl, hfits⟩ := step_eq_some hstep
  refine ⟨?_, fun m hm => ?_, hfits⟩
  · rw [Progress.pos_after, upTo, ← h.eq_upTo]
  · rw [Progress.pos_after] at hm
    rcases Nat.lt_succ_iff_lt_or_eq.mp hm with hlt | rfl
    · exact h.not_exit m hlt
    · exact hexit

/-- A process that ends can go on up to its exit. -/
theorem Reached.exists_step (h : Reached size does s) (hexit : Exits does k)
    (hfits : (upTo does k).Fits size) (hlt : s.pos < k) :
    step size does s = some (s.after (does s.pos)) := by
  rw [step_of_ne_exit (hexit.2 _ hlt)]
  refine if_pos ?_
  have hnext : s.after (does s.pos) = upTo does (s.pos + 1) := by rw [upTo, ← h.eq_upTo]
  rw [hnext]
  exact fits_upTo_of_le hlt hfits

end

end Pipes
