import Mathlib.Logic.Function.Iterate

/-!
# Deterministic machines

A machine is a step function on states; a final state is a fixed point of the user's
choice.  `Reaches` is the run relation.  The rules are: what every step keeps, every
reached state has (`Reaches.invariant`); what the steps of a well-behaved run keep,
the states of that run have (`invariant_along`); and a measure that every step but
the last lowers gives an end (`halts_of_measure`).

`Progress` is the measure of a loop over an input: a step advances the position, or it
keeps it and lowers a rank.  Bounded, it gives an end (`halts_of_progress`); and where a
rank comes back the position has advanced (`lt_of_progress`).

`Rests` counts: the run moves for so many steps and then stays.  A measure that every
moving step lowers bounds their number (`exists_rests`).

`Leads` is a run of at least one step.  From a state that it comes to, the way to an end is
shorter (`Leads.exists_lt`), so what is said of the runs to an end can be shown by induction on
their length.
-/

namespace Machine

variable {σ : Type} {f : σ → σ} {s t u : σ}

/-- A run of some length leads from one state to the other. -/
def Reaches (f : σ → σ) (s t : σ) : Prop := ∃ n, f^[n] s = t

theorem Reaches.refl (f : σ → σ) (s : σ) : Reaches f s s := ⟨0, rfl⟩

theorem Reaches.step (h : Reaches f s t) : Reaches f s (f t) := by
  obtain ⟨n, rfl⟩ := h
  exact ⟨n + 1, Function.iterate_succ_apply' ..⟩

theorem Reaches.head (h : Reaches f (f s) t) : Reaches f s t := by
  obtain ⟨n, rfl⟩ := h
  exact ⟨n + 1, rfl⟩

theorem Reaches.trans (h : Reaches f s t) (h' : Reaches f t u) : Reaches f s u := by
  obtain ⟨n, rfl⟩ := h
  obtain ⟨m, rfl⟩ := h'
  exact ⟨m + n, Function.iterate_add_apply ..⟩

/-- What the steps of a run keep, its states have. -/
theorem invariant_along {I : σ → Prop} (hs : I s)
    (hstep : ∀ t, Reaches f s t → I t → I (f t)) : ∀ t, Reaches f s t → I t := by
  rintro t ⟨n, rfl⟩
  induction n with
  | zero => exact hs
  | succ n ih =>
      rw [Function.iterate_succ_apply']
      exact hstep _ ⟨n, rfl⟩ ih

/-- What every step keeps, every reached state has. -/
theorem Reaches.invariant {I : σ → Prop} (h : Reaches f s t) (hstep : ∀ t, I t → I (f t))
    (hs : I s) : I t :=
  invariant_along hs (fun t _ => hstep t) t h

/-- A run in which every step but the last lowers a measure ends. -/
theorem halts_of_measure {final : σ → Prop} (μ : σ → Nat) {s : σ}
    (h : ∀ t, Reaches f s t → ¬ final t → μ (f t) < μ t) :
    ∃ t, Reaches f s t ∧ final t := by
  generalize hm : μ s = m
  induction m using Nat.strongRecOn generalizing s with
  | _ m ih =>
      by_cases hs : final s
      · exact ⟨s, .refl f s, hs⟩
      · have hlt := h s (.refl f s) hs
        obtain ⟨t, ht, hf⟩ := ih _ (hm ▸ hlt) (fun u hu => h u hu.head) rfl
        exact ⟨t, ht.head, hf⟩

/-! ## Rest -/

/-- The run moves for `n` steps, to `t`, and stays there. -/
structure Rests (f : σ → σ) (s t : σ) (n : Nat) : Prop where
  reached : f^[n] s = t
  fixed : f t = t
  moves : ∀ m < n, f^[m + 1] s ≠ f^[m] s

theorem Rests.head {n : Nat} (h : Rests f (f s) t n) (hs : f s ≠ s) : Rests f s t (n + 1) := by
  refine ⟨h.reached, h.fixed, fun m hm => ?_⟩
  cases m with
  | zero => exact hs
  | succ m => exact h.moves m (Nat.lt_of_succ_lt_succ hm)

/-- A run whose moving steps lower a measure comes to rest in so many steps. -/
theorem exists_rests (μ : σ → Nat) (h : ∀ t, Reaches f s t → f t ≠ t → μ (f t) < μ t) :
    ∃ n ≤ μ s, ∃ t, Rests f s t n := by
  generalize hm : μ s = m
  induction m using Nat.strongRecOn generalizing s with
  | _ m ih =>
      by_cases hs : f s = s
      · exact ⟨0, Nat.zero_le _, s, rfl, hs, fun m hm => absurd hm (Nat.not_lt_zero m)⟩
      · have hlt := h s (.refl f s) hs
        obtain ⟨n, hn, t, ht⟩ := ih _ (hm ▸ hlt) (fun u hu => h u hu.head) rfl
        exact ⟨n + 1, by omega, t, ht.head hs⟩

/-- The states of a run that comes to rest are those of its moving steps. -/
theorem Rests.reaches_iff {n : Nat} (h : Rests f s t n) :
    Reaches f s u ↔ ∃ m ≤ n, f^[m] s = u := by
  constructor
  · rintro ⟨m, rfl⟩
    rcases Nat.le_total m n with hm | hm
    · exact ⟨m, hm, rfl⟩
    · refine ⟨n, Nat.le_refl n, ?_⟩
      rw [← Nat.sub_add_cancel hm, Function.iterate_add_apply, h.reached,
        Function.iterate_fixed h.fixed]
  · rintro ⟨m, -, rfl⟩
    exact ⟨m, rfl⟩

/-! ## The way to an end -/

/-- A run of at least one step. -/
def Leads (f : σ → σ) (s t : σ) : Prop := ∃ n, f^[n + 1] s = t

theorem Leads.of_step (h : f s = t) : Leads f s t := ⟨0, h⟩

theorem Leads.reaches (h : Leads f s t) : Reaches f s t := by
  obtain ⟨n, h⟩ := h
  exact ⟨n + 1, h⟩

theorem Leads.trans (h : Leads f s t) (h' : Reaches f t u) : Leads f s u := by
  obtain ⟨n, rfl⟩ := h
  obtain ⟨m, rfl⟩ := h'
  exact ⟨m + n, Function.iterate_add_apply f m (n + 1) s⟩

theorem Leads.head (h : f s = t) (h' : Reaches f t u) : Leads f s u := (Leads.of_step h).trans h'

/-- A run has one end. -/
theorem Reaches.eq_of_fixed (ht : Reaches f s t) (hu : Reaches f s u) (hft : f t = t)
    (hfu : f u = u) : t = u := by
  obtain ⟨n, rfl⟩ := ht
  obtain ⟨m, rfl⟩ := hu
  rcases Nat.le_total n m with hle | hle
  · rw [← Nat.sub_add_cancel hle, Function.iterate_add_apply, Function.iterate_fixed hft]
  · rw [← Nat.sub_add_cancel hle, Function.iterate_add_apply, Function.iterate_fixed hfu]

/-- From a state of the run, the way to the end is shorter. -/
theorem Leads.exists_lt {n : Nat} (h : Leads f s t) (hn : f^[n] s = u) (hu : f u = u)
    (hne : t ≠ u) : ∃ m < n, f^[m] t = u := by
  obtain ⟨k, rfl⟩ := h
  rcases Nat.lt_or_ge k n with hlt | hge
  · refine ⟨n - (k + 1), by omega, ?_⟩
    rw [← Function.iterate_add_apply, Nat.sub_add_cancel hlt, hn]
  · refine absurd ?_ hne
    have hle : n ≤ k + 1 := Nat.le_succ_of_le hge
    rw [← Nat.sub_add_cancel hle, Function.iterate_add_apply, hn, Function.iterate_fixed hu]

/-! ## Progress on an input -/

variable {pos rank : σ → Nat}

/-- The position advances, or it stays and the rank falls. -/
def Progress (pos rank : σ → Nat) (s t : σ) : Prop :=
  pos s < pos t ∨ pos t = pos s ∧ rank t < rank s

theorem Progress.trans (h : Progress pos rank s t) (h' : Progress pos rank t u) :
    Progress pos rank s u := by
  unfold Progress at *
  omega

/-- Steps of progress are progress. -/
theorem progress_iterate {n : Nat} (hn : 0 < n)
    (h : ∀ m < n, Progress pos rank (f^[m] s) (f^[m + 1] s)) : Progress pos rank s (f^[n] s) := by
  induction n with
  | zero => cases hn
  | succ n ih =>
      have hlast := h n (Nat.lt_succ_self n)
      cases n with
      | zero => exact hlast
      | succ n =>
          have hfirst := ih (Nat.succ_pos n) fun m hm => h m (Nat.lt_succ_of_lt hm)
          exact hfirst.trans hlast

/-- Where the rank comes back, the position has advanced. -/
theorem lt_of_progress {n : Nat} (hn : 0 < n)
    (h : ∀ m < n, Progress pos rank (f^[m] s) (f^[m + 1] s))
    (hrank : pos (f^[n] s) = pos s → rank s ≤ rank (f^[n] s)) : pos s < pos (f^[n] s) := by
  rcases progress_iterate hn h with hpos | ⟨hpos, hlt⟩
  · exact hpos
  · exact absurd hlt (Nat.not_lt.mpr (hrank hpos))

/-- Steps that all advance. -/
theorem lt_of_advance {n : Nat} (hn : 0 < n)
    (h : ∀ m < n, pos (f^[m] s) < pos (f^[m + 1] s)) : pos s < pos (f^[n] s) := by
  have hprogress : Progress pos (fun _ => 0) s (f^[n] s) :=
    progress_iterate hn fun m hm => .inl (h m hm)
  exact hprogress.resolve_right (by simp)

/-- A run that makes progress below a bound ends. -/
theorem halts_of_progress {final : σ → Prop} {E K : Nat} {s : σ}
    (hpos : ∀ t, Reaches f s t → ¬ final t → pos t ≤ E)
    (hrank : ∀ t, Reaches f s t → ¬ final t → rank t < K)
    (h : ∀ t, Reaches f s t → ¬ final t → final (f t) ∨ Progress pos rank t (f t)) :
    ∃ t, Reaches f s t ∧ final t := by
  by_contra hend
  have hnot : ∀ t, Reaches f s t → ¬ final t := fun t ht hf => hend ⟨t, ht, hf⟩
  have hfall : ∀ t, Reaches f s t → ¬ False →
      (E - pos (f t)) * K + rank (f t) < (E - pos t) * K + rank t := by
    intro t ht _
    have hnext := ht.step
    have hle := hpos _ hnext (hnot _ hnext)
    have hlt := hrank _ hnext (hnot _ hnext)
    rcases (h t ht (hnot t ht)).resolve_left (hnot _ hnext) with hadv | ⟨hsame, hless⟩
    · have hstep : (E - pos (f t)) * K + K ≤ (E - pos t) * K := by
        rw [← Nat.succ_mul]
        exact Nat.mul_le_mul_right K (by omega)
      omega
    · rw [hsame]
      omega
  -- Without an end the measure falls at every step.
  obtain ⟨t, -, hf⟩ := halts_of_measure (fun t => (E - pos t) * K + rank t) hfall
  exact hf

end Machine
