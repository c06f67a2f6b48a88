import Mathlib.Data.List.Basic

/-!
# Rule chains

A rule set keeps one ordered list of rules per chain.  A chain decides by the
first rule that applies; a program changes the rule set by inserting a rule on
top, appending one at the end, or flushing chains.

Everything about a program without flushes follows from one equation
(`applyAll_eq`): the inserted rules in reverse order, what was there, the appended
rules.  Everything about a decision follows from `verdict_append` and
`verdict_uniform`.
-/

namespace RuleChain

variable {κ ρ π τ : Type}

/-! ## Decisions -/

/-- The target of the first rule that applies. -/
def verdict (applies : ρ → π → Bool) (target : ρ → τ) (rules : List ρ) (x : π) : Option τ :=
  (rules.find? fun r => applies r x).map target

section verdict
variable {applies : ρ → π → Bool} {target : ρ → τ} {x : π}

theorem verdict_append (as bs : List ρ) :
    verdict applies target (as ++ bs) x =
      (verdict applies target as x).or (verdict applies target bs x) := by
  simp [verdict, List.find?_append, Option.map_or]

/-- Rules of one target decide by whether one of them applies. -/
theorem verdict_uniform {rules : List ρ} {t : τ} (h : ∀ r ∈ rules, target r = t) :
    verdict applies target rules x = if ∃ r ∈ rules, applies r x = true then some t else none := by
  cases hfind : rules.find? fun r => applies r x with
  | some r =>
      have hmem := List.mem_of_find?_eq_some hfind
      have happ : applies r x = true := by simpa using List.find?_some hfind
      rw [if_pos ⟨r, hmem, happ⟩, verdict, hfind, Option.map_some, h r hmem]
  | none =>
      have hnone : ¬ ∃ r ∈ rules, applies r x = true := by
        simpa using List.find?_eq_none.mp hfind
      rw [if_neg hnone, verdict, hfind, Option.map_none]

end verdict

/-! ## Programs -/

/-- One change of the rule set. -/
inductive Edit (κ ρ : Type) where
  /-- Empty these chains. -/
  | flush (which : κ → Bool)
  /-- Put a rule on top of a chain. -/
  | insert (k : κ) (r : ρ)
  /-- Put a rule at the end of a chain. -/
  | append (k : κ) (r : ρ)

section program
variable [DecidableEq κ]

/-- Perform one change. -/
def Edit.apply (t : κ → List ρ) : Edit κ ρ → κ → List ρ
  | .flush which => fun k => if which k then [] else t k
  | .insert k r => fun k' => if k' = k then r :: t k' else t k'
  | .append k r => fun k' => if k' = k then t k' ++ [r] else t k'

/-- Perform the changes of a program in order. -/
def applyAll (es : List (Edit κ ρ)) (t : κ → List ρ) : κ → List ρ := es.foldl Edit.apply t

/-- The rules a program inserts into a chain, in the order of the program. -/
def inserted (k : κ) (es : List (Edit κ ρ)) : List ρ :=
  es.filterMap fun
    | .insert k' r => if k = k' then some r else none
    | _ => none

/-- The rules a program appends to a chain. -/
def appended (k : κ) (es : List (Edit κ ρ)) : List ρ :=
  es.filterMap fun
    | .append k' r => if k = k' then some r else none
    | _ => none

/-- A change that adds a rule to one of these chains. -/
def Edit.Adds (S : κ → Prop) : Edit κ ρ → Prop
  | .flush _ => False
  | .insert k _ => S k
  | .append k _ => S k

theorem inserted_append (k : κ) (es fs : List (Edit κ ρ)) :
    inserted k (es ++ fs) = inserted k es ++ inserted k fs := List.filterMap_append ..

theorem mem_inserted {k : κ} {r : ρ} {es : List (Edit κ ρ)} :
    r ∈ inserted k es ↔ Edit.insert k r ∈ es := by
  rw [inserted, List.mem_filterMap]
  constructor
  · rintro ⟨e, he, hr⟩
    cases e <;> simp_all
  · exact fun h => ⟨_, h, by simp⟩

@[simp] theorem appended_append (k : κ) (es fs : List (Edit κ ρ)) :
    appended k (es ++ fs) = appended k es ++ appended k fs := List.filterMap_append ..

/-- Insertions append nothing. -/
theorem appended_of_inserts {es : List (Edit κ ρ)} (h : ∀ e ∈ es, ∃ k r, e = .insert k r) (k : κ) :
    appended k es = [] := by
  rw [appended, List.filterMap_eq_nil_iff]
  intro e he
  obtain ⟨k', r, rfl⟩ := h e he
  rfl

theorem applyAll_append (es fs : List (Edit κ ρ)) (t : κ → List ρ) :
    applyAll (es ++ fs) t = applyAll fs (applyAll es t) := List.foldl_append ..

theorem applyAll_cons (e : Edit κ ρ) (es : List (Edit κ ρ)) (t : κ → List ρ) :
    applyAll (e :: es) t = applyAll es (e.apply t) := rfl

/-- What a program that only adds rules makes of a chain. -/
theorem applyAll_eq {S : κ → Prop} {es : List (Edit κ ρ)} (h : ∀ e ∈ es, e.Adds S)
    (t : κ → List ρ) (k : κ) :
    applyAll es t k = (inserted k es).reverse ++ t k ++ appended k es := by
  induction es generalizing t with
  | nil => simp [applyAll, inserted, appended]
  | cons e es ih =>
      rw [applyAll_cons, ih (List.forall_mem_cons.mp h).2]
      cases e with
      | flush which => exact (List.forall_mem_cons.mp h).1.elim
      | insert k' r =>
          by_cases hk : k = k' <;> simp [Edit.apply, inserted, appended, hk]
      | append k' r =>
          by_cases hk : k = k' <;> simp [Edit.apply, inserted, appended, hk]

theorem Edit.Adds.apply_eq {S : κ → Prop} {e : Edit κ ρ} (h : e.Adds S) (t : κ → List ρ)
    {k : κ} (hk : ¬ S k) : e.apply t k = t k := by
  cases e with
  | flush which => exact h.elim
  | insert k' r =>
      have hne : k ≠ k' := fun he => hk (he ▸ h)
      exact if_neg hne
  | append k' r =>
      have hne : k ≠ k' := fun he => hk (he ▸ h)
      exact if_neg hne

/-- A program that adds rules leaves the other chains as they are. -/
theorem applyAll_of_adds {S : κ → Prop} {k : κ} (hk : ¬ S k) :
    ∀ (es : List (Edit κ ρ)) (t : κ → List ρ), (∀ e ∈ es, e.Adds S) → applyAll es t k = t k
  | [], _, _ => rfl
  | e :: es, t, h => by
      have hes := List.forall_mem_cons.mp h
      rw [applyAll_cons, applyAll_of_adds hk es _ hes.2, hes.1.apply_eq t hk]

end program

end RuleChain
