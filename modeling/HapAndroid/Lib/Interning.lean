import Mathlib.Data.List.Basic
import Mathlib.Data.List.Induction
import Mathlib.Data.List.Nodup

/-!
# Interning

Keys get numbers in the order in which they come, counted from 1; 0 is no number.  A request
asks for the number of a key, and may give it one.

Numbers tell keys apart (`number_inj`) and stay when keys are added (`number_of_extends`), so
in a ledger of requests every answer that is a number still is the number of its key
(`Ledger.Sound`).  A search from the end of a list without duplicates finds the same numbers
(`length_sub_findIdx_reverse`).
-/

namespace Interning

variable {κ : Type} [DecidableEq κ]

/-! ## Numbers -/

/-- The number of a key. -/
def number (keys : List κ) (a : κ) : Nat := if a ∈ keys then keys.idxOf a + 1 else 0

section
variable {keys keys' : List κ} {a b : κ}

theorem number_of_mem (h : a ∈ keys) : number keys a = keys.idxOf a + 1 := if_pos h

theorem number_of_notMem (h : a ∉ keys) : number keys a = 0 := if_neg h

theorem number_eq_zero_iff : number keys a = 0 ↔ a ∉ keys := by
  by_cases h : a ∈ keys
  · simp [number_of_mem h, h]
  · simp [number_of_notMem h, h]

theorem number_ne_zero_iff : number keys a ≠ 0 ↔ a ∈ keys := by
  rw [Ne, number_eq_zero_iff, Classical.not_not]

/-- Numbers tell keys apart. -/
theorem number_inj (h : number keys a ≠ 0) : number keys a = number keys b ↔ a = b := by
  constructor
  · intro heq
    have ha := number_ne_zero_iff.mp h
    have hb := number_ne_zero_iff.mp (heq ▸ h)
    rw [number_of_mem ha, number_of_mem hb, Nat.add_right_cancel_iff] at heq
    exact (List.idxOf_inj ha).mp heq
  · rintro rfl
    rfl

/-- A number stays when keys are added. -/
theorem number_of_extends (hext : keys <+: keys') (h : number keys a ≠ 0) :
    number keys' a = number keys a := by
  have ha := number_ne_zero_iff.mp h
  rw [number_of_mem ha, number_of_mem (hext.subset ha), hext.idxOf_eq_of_mem ha]

/-- The number of a key is its place. -/
theorem getElem?_number (h : number keys a ≠ 0) : keys[number keys a - 1]? = some a := by
  have ha := number_ne_zero_iff.mp h
  rw [number_of_mem ha, Nat.add_sub_cancel, List.getElem?_idxOf ha]

theorem number_getElem {k : Nat} (hnodup : keys.Nodup) (h : keys[k]? = some a) :
    number keys a = k + 1 := by
  obtain ⟨hk, rfl⟩ := List.getElem?_eq_some_iff.mp h
  rw [number_of_mem (List.getElem_mem hk), hnodup.idxOf_getElem]

/-- A search from the end finds the number. -/
theorem length_sub_findIdx_reverse (h : keys.Nodup) (a : κ) :
    keys.length - keys.reverse.findIdx (· = a) = number keys a := by
  induction keys using List.reverseRecOn with
  | nil => rfl
  | append_singleton keys b ih =>
      have hkeys : keys.Nodup := (List.nodup_append.mp h).1
      have hb : b ∉ keys := fun hmem => (List.nodup_append.mp h).2.2 b hmem b (by simp) rfl
      rw [List.reverse_append, List.reverse_singleton, List.singleton_append, List.findIdx_cons,
        List.length_append, List.length_singleton]
      by_cases hba : b = a
      · subst hba
        simp [number, List.idxOf_append, hb]
      · have hnumber : number (keys ++ [b]) a = number keys a := by
          by_cases ha : number keys a = 0
          · have hnot : a ∉ keys := number_eq_zero_iff.mp ha
            rw [ha, number_of_notMem (by simp [hnot, Ne.symm hba])]
          · exact number_of_extends (List.prefix_append ..) ha
        rw [hnumber, ← ih hkeys]
        simp [hba]

end

/-! ## Requests -/

/-- A key, and whether it gets a number when it has none. -/
structure Request (κ : Type) where
  key : κ
  add : Bool

/-- The keys after a request. -/
def intern (keys : List κ) (r : Request κ) : List κ :=
  if r.add ∧ r.key ∉ keys then keys ++ [r.key] else keys

section
variable {keys : List κ} {r : Request κ}

theorem extends_intern (keys : List κ) (r : Request κ) : keys <+: intern keys r := by
  unfold intern
  split
  · exact List.prefix_append ..
  · exact List.prefix_rfl

theorem nodup_intern (h : keys.Nodup) (r : Request κ) : (intern keys r).Nodup := by
  unfold intern
  split
  · next hr => simpa using h.concat hr.2
  · exact h

theorem mem_intern {a : κ} : a ∈ intern keys r ↔ a ∈ keys ∨ r.add = true ∧ r.key = a := by
  unfold intern
  split
  · next hr =>
    rw [List.mem_append, List.mem_singleton]
    exact or_congr_right ⟨fun h => ⟨hr.1, h.symm⟩, fun h => h.2.symm⟩
  · next hr =>
    refine ⟨.inl, fun h => h.elim id ?_⟩
    rintro ⟨hadd, rfl⟩
    exact Classical.not_not.mp fun hnot => hr ⟨hadd, hnot⟩

end

/-! ## Ledgers -/

/-- The keys that have numbers, in their order, and the requests so far with their answers. -/
structure Ledger (κ : Type) where
  keys : List κ
  answers : List (Request κ × Nat)

namespace Ledger

/-- Answer a request. -/
def ask (l : Ledger κ) (r : Request κ) : Ledger κ :=
  ⟨intern l.keys r, l.answers ++ [(r, number (intern l.keys r) r.key)]⟩

/-- What holds of a ledger that began with some keys. -/
structure Sound (start : List κ) (l : Ledger κ) : Prop where
  nodup : l.keys.Nodup
  began : start <+: l.keys
  /-- The keys are those of the beginning and those that were added. -/
  mem_keys : ∀ a, a ∈ l.keys ↔ a ∈ start ∨ ∃ p ∈ l.answers, p.1.add = true ∧ p.1.key = a
  answered : ∀ p ∈ l.answers, p.2 ≠ 0 → p.2 = number l.keys p.1.key

variable {start : List κ} {l : Ledger κ}

theorem sound_start (h : start.Nodup) : Sound start ⟨start, []⟩ :=
  ⟨h, List.prefix_rfl, by simp, by simp⟩

/-- An answer stays when keys are added. -/
theorem Sound.answered_of_extends (h : Sound start l) {keys : List κ} (hext : l.keys <+: keys)
    {p : Request κ × Nat} (hp : p ∈ l.answers) (h0 : p.2 ≠ 0) : p.2 = number keys p.1.key := by
  have hnumber := h.answered p hp h0
  rw [number_of_extends hext (hnumber ▸ h0)]
  exact hnumber

theorem Sound.ask (h : Sound start l) (r : Request κ) : Sound start (l.ask r) := by
  have hext := extends_intern l.keys r
  refine ⟨nodup_intern h.nodup r, h.began.trans hext, fun a => ?_, ?_⟩
  · show a ∈ intern l.keys r ↔ a ∈ start ∨ ∃ p ∈ l.answers ++ [_], p.1.add = true ∧ p.1.key = a
    rw [mem_intern, h.mem_keys]
    simp [or_and_right, exists_or, or_assoc]
  · intro p hp h0
    rcases List.mem_append.mp hp with hp | hp
    · exact h.answered_of_extends hext hp h0
    · rw [List.mem_singleton.mp hp]
      rfl

/-- Requests keep a ledger sound. -/
theorem Sound.asks (h : Sound start l) (rs : List (Request κ)) :
    Sound start (rs.foldl Ledger.ask l) := by
  induction rs generalizing l with
  | nil => exact h
  | cons r rs ih => exact ih (h.ask r)

theorem extends_asks (l : Ledger κ) (rs : List (Request κ)) :
    l.keys <+: (rs.foldl Ledger.ask l).keys := by
  induction rs generalizing l with
  | nil => exact List.prefix_rfl
  | cons r rs ih => exact (extends_intern l.keys r).trans (ih (l.ask r))

/-- Two answers that are numbers are the same exactly when their keys are. -/
theorem Sound.answer_eq_iff (h : Sound start l) {p q : Request κ × Nat} (hp : p ∈ l.answers)
    (hq : q ∈ l.answers) (hp0 : p.2 ≠ 0) (hq0 : q.2 ≠ 0) : p.2 = q.2 ↔ p.1.key = q.1.key := by
  have hpn := h.answered p hp hp0
  have hqn := h.answered q hq hq0
  rw [hpn, hqn]
  exact number_inj (hpn ▸ hp0)

end Ledger

end Interning
