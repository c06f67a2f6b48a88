import Mathlib.Logic.Function.Basic
import HapAndroid.Lib.Run

/-!
# Threads over a shared state

Every thread has a state of its own and shares one with the others.  A step is taken by one thread;
which one is next is open, so the runs are all interleavings.

`run_stable` is the rule for threads that leave each other alone.  Each thread has its own claim on
the shared state, which its own steps keep and which the steps of another thread keep as long as the
two are apart.  Being apart is asked for at the end of a run only: threads that are apart there have
been so all the time (`hback`).
-/

namespace Threads

/-- The shared state and those of the threads. -/
structure Pool (ι γ τ : Type) where
  shared : γ
  own : ι → τ

variable {ι γ τ α : Type} [DecidableEq ι] {act : ι → γ → τ → α → Option (γ × τ)}

/-- A thread takes a step. -/
def step (act : ι → γ → τ → α → Option (γ × τ)) (p : Pool ι γ τ) (e : ι × α) :
    Option (Pool ι γ τ) :=
  (act e.1 p.shared (p.own e.1) e.2).map fun r => ⟨r.1, Function.update p.own e.1 r.2⟩

theorem step_eq_some {p p' : Pool ι γ τ} {e : ι × α} (h : step act p e = some p') :
    act e.1 p.shared (p.own e.1) e.2 = some (p'.shared, p'.own e.1) ∧
      ∀ i, i ≠ e.1 → p'.own i = p.own i := by
  obtain ⟨⟨g, l⟩, hact, rfl⟩ := Option.map_eq_some_iff.mp h
  refine ⟨hact.trans ?_, fun i hi => Function.update_of_ne hi ..⟩
  dsimp only
  rw [Function.update_self]

variable (act) in
/-- What a thread can do alone it can do among the others. -/
theorem exists_step {p : Pool ι γ τ} {i : ι} {a : α} {g g' : γ} {l l' : τ} (hg : p.shared = g)
    (hl : p.own i = l) (h : act i g l a = some (g', l')) :
    ∃ p', step act p (i, a) = some p' ∧ p'.shared = g' ∧ p'.own i = l' ∧
      ∀ j, j ≠ i → p'.own j = p.own j := by
  subst hg hl
  refine ⟨⟨g', Function.update p.own i l'⟩, ?_, rfl, Function.update_self .., fun j hj => ?_⟩
  · rw [step, h]
    rfl
  · exact Function.update_of_ne hj ..

omit [DecidableEq ι] in
/-- What holds of the thread that moved and of those that did not holds of all. -/
theorem forall_own {p p' : Pool ι γ τ} {i : ι} {l : τ} {Q : ι → τ → Prop} (hl : p'.own i = l)
    (hsame : ∀ j, j ≠ i → p'.own j = p.own j) (hi : Q i l)
    (hothers : ∀ j, j ≠ i → Q j (p.own j)) (j : ι) : Q j (p'.own j) := by
  rcases eq_or_ne j i with rfl | hj
  · rwa [hl]
  · rw [hsame j hj]
    exact hothers j hj

section
variable {Apart : ι → ι → τ → τ → Prop} {P : ι → Pool ι γ τ → Prop}

/-- Any two threads are apart. -/
def AllApart (Apart : ι → ι → τ → τ → Prop) (p : Pool ι γ τ) : Prop :=
  ∀ i j, i ≠ j → Apart i j (p.own i) (p.own j)

variable
  (hback : ∀ i j l m m' g g' a, act j g m a = some (g', m') →
    (Apart i j l m' → Apart i j l m) ∧ (Apart j i m' l → Apart j i m l))
include hback

theorem AllApart.of_step {p p' : Pool ι γ τ} {e : ι × α} (h : step act p e = some p')
    (hp : AllApart Apart p') : AllApart Apart p := by
  obtain ⟨hact, hsame⟩ := step_eq_some h
  intro i j hij
  have hp := hp i j hij
  rcases eq_or_ne i e.1 with rfl | hi
  · rw [hsame j hij.symm] at hp
    exact (hback j e.1 (p.own j) _ _ _ _ _ hact).2 hp
  · rw [hsame i hi] at hp
    rcases eq_or_ne j e.1 with rfl | hj
    · exact (hback i e.1 (p.own i) _ _ _ _ _ hact).1 hp
    · rwa [hsame j hj] at hp

theorem AllApart.of_run {p p' : Pool ι γ τ} {es : List (ι × α)}
    (h : Run.run (step act) p es = some p') (hp : AllApart Apart p') : AllApart Apart p := by
  induction es generalizing p with
  | nil =>
      cases h
      exact hp
  | cons e es ih =>
      obtain ⟨q, hq, hrun⟩ := Run.run_cons_eq_some.mp h
      exact (ih hrun).of_step hback hq

/-- What each thread keeps, and the others keep for it, holds at the end of every run that leaves the
threads apart. -/
theorem run_stable
    (hown : ∀ p e p', AllApart Apart p' → P e.1 p → step act p e = some p' → P e.1 p')
    (hothers : ∀ i p e p', i ≠ e.1 → AllApart Apart p' → P i p → P e.1 p →
      step act p e = some p' → P i p')
    {p p' : Pool ι γ τ} {es : List (ι × α)} (hP : ∀ i, P i p)
    (h : Run.run (step act) p es = some p') (hapart : AllApart Apart p') : ∀ i, P i p' := by
  induction es generalizing p with
  | nil =>
      cases h
      exact hP
  | cons e es ih =>
      obtain ⟨q, hq, hrun⟩ := Run.run_cons_eq_some.mp h
      have hafter := AllApart.of_run hback hrun hapart
      refine ih (fun i => ?_) hrun
      rcases eq_or_ne i e.1 with rfl | hi
      · exact hown p e q hafter (hP e.1) hq
      · exact hothers i p e q hi hafter (hP i) (hP e.1) hq

end

end Threads
