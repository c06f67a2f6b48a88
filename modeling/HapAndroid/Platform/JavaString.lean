import HapAndroid.Platform.Files

/-!
# Java strings

A Java string is a list of UTF-16 units, and `compareTo` compares units.  A character outside the
basic plane has two units, both below some characters inside it, so the order of the texts is not
that of their characters.  `compareTo` is a total order all the same (`compareTo_swap`,
`compareTo_trans`, `compareTo_eq_zero_iff`).
-/

namespace HapAndroid

/-- The UTF-16 units of a character. -/
def units (c : Char) : List Nat :=
  if c.toNat < 0x10000 then [c.toNat]
  else [0xD800 + (c.toNat - 0x10000) / 0x400, 0xDC00 + (c.toNat - 0x10000) % 0x400]

/-- The difference of the first units that differ, or of the lengths. -/
def compareUnits : List Nat → List Nat → Int
  | a :: as, b :: bs => if a = b then compareUnits as bs else a - b
  | [], bs => -bs.length
  | as, [] => as.length

/-- `s.compareTo(t)`. -/
def compareTo (s t : Text) : Int := compareUnits (s.flatMap units) (t.flatMap units)

/-- `s.trim()`. -/
def trim (s : Text) : Text :=
  ((s.dropWhile (· ≤ ' ')).reverse.dropWhile (· ≤ ' ')).reverse

theorem compareUnits_swap (as bs : List Nat) : compareUnits bs as = -compareUnits as bs := by
  induction as generalizing bs with
  | nil => cases bs <;> simp [compareUnits]
  | cons a as ih =>
      cases bs with
      | nil => simp [compareUnits]
      | cons b bs =>
          by_cases h : a = b
          · simp [compareUnits, h, ih]
          · simp only [compareUnits, if_neg h, if_neg (Ne.symm h)]
            omega

theorem compareUnits_eq_zero_iff {as bs : List Nat} : compareUnits as bs = 0 ↔ as = bs := by
  induction as generalizing bs with
  | nil => cases bs <;> simp [compareUnits]; omega
  | cons a as ih =>
      cases bs with
      | nil => simp [compareUnits]; omega
      | cons b bs =>
          by_cases h : a = b
          · simp [compareUnits, h, ih]
          · simp [compareUnits, h]
            omega

theorem compareUnits_trans {as bs cs : List Nat} (h : compareUnits as bs ≤ 0)
    (h' : compareUnits bs cs ≤ 0) : compareUnits as cs ≤ 0 := by
  induction as generalizing bs cs with
  | nil =>
      cases cs with
      | nil => simp [compareUnits]
      | cons c cs =>
          simp only [compareUnits, List.length_cons]
          omega
  | cons a as ih =>
      cases bs with
      | nil =>
          simp only [compareUnits, List.length_cons] at h
          omega
      | cons b bs =>
          cases cs with
          | nil =>
              simp only [compareUnits, List.length_cons] at h'
              omega
          | cons c cs =>
              simp only [compareUnits] at h h' ⊢
              split at h
              · next hab =>
                subst hab
                split at h'
                · next hac =>
                  rw [if_pos hac]
                  exact ih h h'
                · next hac =>
                  rw [if_neg hac]
                  exact h'
              · next hab =>
                split at h'
                · next hbc =>
                  rw [if_neg (hbc ▸ hab), ← hbc]
                  exact h
                · next hbc =>
                  rw [if_neg (by omega)]
                  omega

/-- A character is no surrogate. -/
theorem toNat_char (c : Char) : c.toNat < 0xD800 ∨ 0xDFFF < c.toNat ∧ c.toNat < 0x110000 :=
  c.valid

theorem units_flatMap_injective {s t : Text} (h : s.flatMap units = t.flatMap units) : s = t := by
  induction s generalizing t with
  | nil =>
      cases t with
      | nil => rfl
      | cons d t =>
          rw [List.flatMap_nil, List.flatMap_cons, units] at h
          split at h <;> cases h
  | cons c s ih =>
      cases t with
      | nil =>
          rw [List.flatMap_nil, List.flatMap_cons, units] at h
          split at h <;> cases h
      | cons d t =>
          have hc := toNat_char c
          have hd := toNat_char d
          rw [List.flatMap_cons, List.flatMap_cons, units, units] at h
          split at h <;> split at h
          · obtain ⟨hcd, hst⟩ := List.cons.inj h
            rw [Char.toNat_inj.mp hcd, ih hst]
          · have hcd := (List.cons.inj h).1
            omega
          · have hcd := (List.cons.inj h).1
            omega
          · obtain ⟨hhigh, hrest⟩ := List.cons.inj h
            obtain ⟨hlow, hst⟩ := List.cons.inj hrest
            have hcd : c.toNat = d.toNat := by omega
            rw [Char.toNat_inj.mp hcd, ih hst]

theorem compareTo_swap (s t : Text) : compareTo t s = -compareTo s t := compareUnits_swap _ _

theorem compareTo_trans {s t u : Text} (h : compareTo s t ≤ 0) (h' : compareTo t u ≤ 0) :
    compareTo s u ≤ 0 := compareUnits_trans h h'

theorem compareTo_eq_zero_iff {s t : Text} : compareTo s t = 0 ↔ s = t := by
  rw [compareTo, compareUnits_eq_zero_iff]
  exact ⟨units_flatMap_injective, fun h => h ▸ rfl⟩

end HapAndroid
