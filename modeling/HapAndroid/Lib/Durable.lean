import Mathlib.Data.List.Basic

/-!
# Writes that can be cut off

A program changes its store by one write after the other and can be killed between any two of
them, or in the middle of a write that is not done at once.  `perform` does a list of writes, and
`cut` is what has been done of it: the first `n` writes, and of the next one the part that `tear`
gives.

What every write keeps, torn or not, every cut keeps (`perform_induction` with `mem_cut`).  A part
of the store that only some of the writes change sees a cut as a cut of those (`view_perform`,
`filterMap_cut`): a torn write counts as none of them.
-/

namespace Durable

variable {σ ω : Type} (write : σ → ω → σ)

/-- Do the writes in their order. -/
def perform (s : σ) (ws : List ω) : σ := ws.foldl write s

@[simp] theorem perform_nil (s : σ) : perform write s [] = s := rfl

@[simp] theorem perform_cons (s : σ) (w : ω) (ws : List ω) :
    perform write s (w :: ws) = perform write (write s w) ws := rfl

@[simp] theorem perform_append (s : σ) (ws vs : List ω) :
    perform write s (ws ++ vs) = perform write (perform write s ws) vs :=
  List.foldl_append ..

variable {write} in
/-- What each of the writes keeps is kept. -/
theorem perform_induction {I : σ → Prop} {ws : List ω} {s : σ}
    (h : ∀ w ∈ ws, ∀ s, I s → I (write s w)) (hs : I s) : I (perform write s ws) := by
  induction ws generalizing s with
  | nil => exact hs
  | cons w ws ih =>
      refine ih (fun v hv => h v (List.mem_cons_of_mem w hv)) ?_
      exact h w (List.mem_cons_self ..) s hs

/-! ## Cuts -/

variable (tear : ω → Nat → Option ω)

/-- The part of the write after the first `n`, if it was torn. -/
def tornPart (ws : List ω) (n : Nat) (torn : Option Nat) : Option ω :=
  torn.bind fun m => ws[n]?.bind (tear · m)

/-- The first `n` writes and, if the next one was torn, its part. -/
def cut (ws : List ω) (n : Nat) (torn : Option Nat) : List ω :=
  ws.take n ++ (tornPart tear ws n torn).toList

variable {tear}

theorem tornPart_eq_some {ws : List ω} {n : Nat} {torn : Option Nat} {w : ω}
    (h : tornPart tear ws n torn = some w) : ∃ v ∈ ws, ∃ m, tear v m = some w := by
  obtain ⟨m, -, h⟩ := Option.bind_eq_some_iff.mp h
  obtain ⟨v, hv, hw⟩ := Option.bind_eq_some_iff.mp h
  exact ⟨v, List.mem_of_getElem? hv, m, hw⟩

theorem mem_cut {ws : List ω} {n : Nat} {torn : Option Nat} {w : ω} (h : w ∈ cut tear ws n torn) :
    w ∈ ws ∨ ∃ v ∈ ws, ∃ m, tear v m = some w := by
  rcases List.mem_append.mp h with h | h
  · exact .inl (List.mem_of_mem_take h)
  · exact .inr (tornPart_eq_some (Option.mem_toList.mp h))

/-- What is cut from a list that goes on is cut from its beginning, or from what follows. -/
theorem cut_append (ws vs : List ω) (n : Nat) (torn : Option Nat) :
    cut tear (ws ++ vs) n torn =
      if n < ws.length then cut tear ws n torn else ws ++ cut tear vs (n - ws.length) torn := by
  split
  · next h =>
    rw [cut, cut, tornPart, tornPart, List.take_append_of_le_length (by omega),
      List.getElem?_append_left h]
  · next h =>
    rw [cut, cut, tornPart, tornPart, List.take_append, List.take_of_length_le (by omega),
      List.getElem?_append_right (by omega), List.append_assoc]

/-! ## A part of the store -/

section View

variable {τ κ : Type} {view : σ → τ} {put : τ → κ → τ} {part : ω → Option κ}

theorem view_perform (h : ∀ s w, view (write s w) = (part w).elim (view s) (put (view s))) :
    ∀ (ws : List ω) (s : σ), view (perform write s ws) = perform put (view s) (ws.filterMap part)
  | [], _ => rfl
  | w :: ws, s => by
      rw [perform_cons, view_perform h ws, h, List.filterMap_cons]
      cases part w with
      | none => rfl
      | some k => rfl

theorem filterMap_cut (h : ∀ w m v, tear w m = some v → part v = none) (ws : List ω) (n : Nat)
    (torn : Option Nat) :
    ∃ k, (cut tear ws n torn).filterMap part = (ws.filterMap part).take k := by
  have htorn : (tornPart tear ws n torn).toList.filterMap part = [] := by
    refine List.filterMap_eq_nil_iff.mpr fun v hv => ?_
    obtain ⟨w, -, m, hw⟩ := tornPart_eq_some (Option.mem_toList.mp hv)
    exact h w m v hw
  have hsplit : ws.filterMap part =
      (ws.take n).filterMap part ++ (ws.drop n).filterMap part := by
    rw [← List.filterMap_append, List.take_append_drop]
  refine ⟨((ws.take n).filterMap part).length, ?_⟩
  rw [cut, List.filterMap_append, htorn, List.append_nil, hsplit, List.take_left']
  rfl

end View

end Durable
