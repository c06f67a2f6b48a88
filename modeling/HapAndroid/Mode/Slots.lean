import Mathlib.Data.List.GetD
import Mathlib.Data.List.Perm.Subperm
import HapAndroid.Platform.Preferences

/-!
# The numbered preferences `mode_0`, `mode_1`, ...

The list of modes is kept in the preferences under numbered keys.  There is no
length: the list ends at the first key that is absent or empty.  `slot` reads a
numbered key with the empty text for an absent one, and `Lists sp l` says that
the slots are the entries of `l` followed by empty ones.

`shiftDown` is the loop of the delete handler.  It goes upward and moves each
slot into the one before it, so every slot is read before it is overwritten
(`slot_shiftDown`), and it writes the slots of its range only
(`get_shiftDown_of_ne`).  The other lemmas say what writing a slot does to the
list.
-/

namespace HapAndroid

/-- `"mode_" + k`. -/
def modeKey (k : Nat) : Text := ("mode_" : Text) ++ Nat.toDigits 10 k

theorem modeKey_injective : Function.Injective modeKey := by
  intro j k h
  have hdigits : Nat.toDigits 10 j = Nat.toDigits 10 k := List.append_cancel_left h
  rw [← Nat.ofDigitChars_ten_toDigits (n := j), hdigits, Nat.ofDigitChars_ten_toDigits]

theorem modeKey_ne {j k : Nat} (h : j ≠ k) : modeKey j ≠ modeKey k :=
  fun he => h (modeKey_injective he)

theorem ne_modeKey {key : Text} (h : key.head? ≠ some 'm') (k : Nat) : key ≠ modeKey k := by
  rintro rfl
  exact h rfl

/-- `sp.getString("mode_" + k, "")`. -/
def slot (sp : Prefs) (k : Nat) : Text := sp.getString (modeKey k) []

/-- Write a slot. -/
def putSlot (sp : Prefs) (k : Nat) (name : Text) : Prefs := sp.putString (modeKey k) name

theorem slot_putString (sp : Prefs) (key s : Text) (k : Nat) :
    slot (sp.putString key s) k = if modeKey k = key then s else slot sp k := by
  by_cases h : modeKey k = key
  · rw [if_pos h, slot, h]
    exact Prefs.getString_putString_self ..
  · rw [if_neg h]
    exact Prefs.getString_putString_of_ne _ _ _ h

theorem slot_putSlot (sp : Prefs) (j : Nat) (name : Text) (k : Nat) :
    slot (putSlot sp j name) k = if k = j then name else slot sp k := by
  rw [putSlot, slot_putString]
  by_cases h : k = j
  · rw [if_pos h, if_pos (congrArg modeKey h)]
  · rw [if_neg h, if_neg (modeKey_ne h)]

/-- A slot that is not empty is a stored text. -/
theorem getString?_of_slot {sp : Prefs} {k : Nat} {name : Text} (h : slot sp k = name)
    (hne : name ≠ []) : sp.getString? (modeKey k) = some name := by
  rw [slot, Prefs.getString] at h
  cases hget : sp.getString? (modeKey k) with
  | none =>
      rw [hget, Option.getD_none] at h
      exact absurd h.symm hne
  | some s =>
      rw [hget, Option.getD_some] at h
      rw [h]

/-! ## The shift loop -/

/-- `for (i1 = a; i1 < a + n; i1++)` move slot `i1 + 1` into slot `i1`. -/
def shiftDown (sp : Prefs) : Nat → Nat → Prefs
  | _, 0 => sp
  | a, n + 1 => shiftDown (putSlot sp a (slot sp (a + 1))) (a + 1) n

theorem slot_shiftDown : ∀ (n a : Nat) (sp : Prefs) (k : Nat),
    slot (shiftDown sp a n) k = if a ≤ k ∧ k < a + n then slot sp (k + 1) else slot sp k
  | 0, a, sp, k => by
      rw [shiftDown, if_neg (by omega)]
  | n + 1, a, sp, k => by
      rw [shiftDown, slot_shiftDown n (a + 1), slot_putSlot, slot_putSlot]
      rcases Nat.lt_trichotomy k a with hk | hk | hk
      · rw [if_neg (by omega), if_neg (by omega), if_neg (by omega)]
      · rw [if_neg (by omega), if_pos hk, if_pos (by omega), hk]
      · rw [if_neg (show ¬ k + 1 = a by omega), if_neg (show ¬ k = a by omega)]
        by_cases hr : a + 1 ≤ k ∧ k < a + 1 + n
        · rw [if_pos hr, if_pos (by omega)]
        · rw [if_neg hr, if_neg (by omega)]

/-- The loop writes no key outside its range. -/
theorem get_shiftDown_of_ne : ∀ (n a : Nat) (sp : Prefs) {key : Text},
    (∀ k, a ≤ k → k < a + n → key ≠ modeKey k) → (shiftDown sp a n).get key = sp.get key
  | 0, _, _, _, _ => rfl
  | n + 1, a, sp, key, h => by
      rw [shiftDown, get_shiftDown_of_ne n (a + 1) _ fun k h1 h2 => h k (by omega) (by omega),
        putSlot, Prefs.get_putString, if_neg (h a (by omega) (by omega))]

/-! ## The list in the slots -/

/-- The slots hold the list and nothing after it. -/
def Lists (sp : Prefs) (l : List Text) : Prop := ∀ k, slot sp k = l.getD k []

theorem Lists.slot_eq {sp : Prefs} {l : List Text} (h : Lists sp l) {k : Nat}
    (hk : k < l.length) : slot sp k = l[k] := by
  rw [h k, List.getD_eq_getElem l [] hk]

theorem Lists.slot_end {sp : Prefs} {l : List Text} (h : Lists sp l) {k : Nat}
    (hk : l.length ≤ k) : slot sp k = [] := by
  rw [h k, List.getD_eq_default l [] hk]

theorem Lists.set {sp : Prefs} {l : List Text} (h : Lists sp l) {j : Nat} (hj : j < l.length)
    (name : Text) : Lists (putSlot sp j name) (l.set j name) := by
  intro k
  rw [slot_putSlot, h k]
  by_cases hk : k = j
  · subst hk
    simp [hj]
  · rw [if_neg hk, List.getD_eq_getElem?_getD, List.getD_eq_getElem?_getD,
      List.getElem?_set_ne (Ne.symm hk)]

/-- The slots hold the list, with anything in the one slot after it. -/
def ListsBut (sp : Prefs) (l : List Text) : Prop := ∀ k, k ≠ l.length → slot sp k = l.getD k []

theorem Lists.but {sp : Prefs} {l : List Text} (h : Lists sp l) : ListsBut sp l :=
  fun k _ => h k

theorem ListsBut.lists {sp : Prefs} {l : List Text} (h : ListsBut sp l)
    (hend : slot sp l.length = []) : Lists sp l := by
  intro k
  by_cases hk : k = l.length
  · rw [hk, hend, List.getD_eq_default _ _ (Nat.le_refl _)]
  · exact h k hk

theorem ListsBut.putSlot {sp : Prefs} {l : List Text} (h : ListsBut sp l) (name : Text) :
    ListsBut (putSlot sp l.length name) l := by
  intro k hk
  rw [slot_putSlot, if_neg hk, h k hk]

/-- What stands in the slot after the list can be taken into the list. -/
theorem ListsBut.grow {sp : Prefs} {l : List Text} (h : ListsBut sp l) :
    Lists sp (l ++ [slot sp l.length]) := by
  intro k
  rcases Nat.lt_trichotomy k l.length with hk | hk | hk
  · rw [h k (by omega), List.getD_append _ _ _ _ hk]
  · rw [hk]
    simp
  · rw [h k (by omega), List.getD_eq_default _ _ (by omega),
      List.getD_eq_default _ _ (by simp; omega)]

theorem Lists.append {sp : Prefs} {l : List Text} (h : Lists sp l) (name : Text) :
    Lists (HapAndroid.putSlot sp l.length name) (l ++ [name]) := by
  have hgrow := (h.but.putSlot name).grow
  rwa [slot_putSlot, if_pos rfl] at hgrow

/-- Moving down the slots above a position removes it from the list. -/
theorem Lists.eraseIdx {sp : Prefs} {l : List Text} (h : Lists sp l) {j : Nat}
    (hj : j < l.length) : Lists (shiftDown sp j (l.length - j)) (l.eraseIdx j) := by
  intro k
  rw [slot_shiftDown, List.getD_eq_getElem?_getD, List.getElem?_eraseIdx]
  rcases Nat.lt_or_ge k j with hk | hk
  · rw [if_neg (by omega), if_pos hk, h k, List.getD_eq_getElem?_getD]
  · rw [if_neg (Nat.not_lt.mpr hk), ← List.getD_eq_getElem?_getD]
    rcases Nat.lt_or_ge k l.length with hkl | hkl
    · rw [if_pos (by omega), h]
    · rw [if_neg (by omega), h k, List.getD_eq_default _ _ hkl, List.getD_eq_default _ _ (by omega)]

/-- Emptying the last slot removes the last entry. -/
theorem Lists.eraseIdx_last {sp : Prefs} {l : List Text} (h : Lists sp l) {j : Nat}
    (hj : l.length = j + 1) : Lists (putSlot sp j []) (l.eraseIdx j) := by
  intro k
  rw [slot_putSlot, List.getD_eq_getElem?_getD, List.getElem?_eraseIdx]
  rcases Nat.lt_trichotomy k j with hk | hk | hk
  · rw [if_neg (by omega), if_pos hk, h k, List.getD_eq_getElem?_getD]
  · rw [if_pos hk, if_neg (by omega), List.getElem?_eq_none (by omega), Option.getD_none]
  · rw [if_neg (by omega), if_neg (by omega), h.slot_end (by omega),
      List.getElem?_eq_none (by omega), Option.getD_none]

/-! ## Reading the list back -/

/-- Only as many slots can be filled as the store has keys. -/
theorem filled_le {sp : Prefs} {n : Nat} (h : ∀ k, k < n → slot sp k ≠ []) :
    n ≤ sp.keys.length := by
  have hsub : (List.range n).map modeKey ⊆ sp.keys := by
    intro key hkey
    obtain ⟨k, hk, rfl⟩ := List.mem_map.mp hkey
    exact Prefs.mem_keys_of_getString? (getString?_of_slot rfl (h k (List.mem_range.mp hk)))
  have hnodup : ((List.range n).map modeKey).Nodup :=
    List.Nodup.map modeKey_injective List.nodup_range
  have hle := (List.subperm_of_subset hnodup hsub).length_le
  simpa using hle

/-- The names in the slots from `k` on, up to the first empty slot. -/
def namesFrom (sp : Prefs) : Nat → Nat → List Text
  | 0, _ => []
  | fuel + 1, k => if slot sp k = [] then [] else slot sp k :: namesFrom sp fuel (k + 1)

theorem ne_nil_of_mem_namesFrom {sp : Prefs} {n : Text} :
    ∀ {fuel k : Nat}, n ∈ namesFrom sp fuel k → n ≠ []
  | 0, _, h => by cases h
  | fuel + 1, k, h => by
      rw [namesFrom] at h
      split at h
      · cases h
      · next hslot =>
        rcases List.mem_cons.mp h with rfl | h
        · exact hslot
        · exact ne_nil_of_mem_namesFrom h

/-- The names in `mode_0`, `mode_1`, ... up to the first empty slot. -/
def readBack (sp : Prefs) : List Text := namesFrom sp sp.keys.length 0

theorem Lists.namesFrom {sp : Prefs} {l : List Text} (h : Lists sp l) (hne : ∀ n ∈ l, n ≠ []) :
    ∀ (fuel k : Nat), l.length ≤ fuel + k → namesFrom sp fuel k = l.drop k
  | 0, k, hfuel => by rw [HapAndroid.namesFrom, List.drop_eq_nil_of_le (by omega)]
  | fuel + 1, k, hfuel => by
      rw [HapAndroid.namesFrom]
      rcases Nat.lt_or_ge k l.length with hk | hk
      · rw [h.slot_eq hk, if_neg (hne _ (List.getElem_mem hk)),
          Lists.namesFrom h hne fuel (k + 1) (by omega), List.drop_eq_getElem_cons hk]
      · rw [h.slot_end hk, if_pos rfl, List.drop_eq_nil_of_le hk]

/-- A list in the slots is read back. -/
theorem Lists.readBack_eq {sp : Prefs} {l : List Text} (h : Lists sp l)
    (hne : ∀ n ∈ l, n ≠ []) : readBack sp = l := by
  have hle : l.length ≤ sp.keys.length := by
    refine filled_le fun k hk => ?_
    rw [h.slot_eq hk]
    exact hne _ (List.getElem_mem hk)
  rw [readBack, h.namesFrom hne _ _ (by omega), List.drop_zero]

end HapAndroid
