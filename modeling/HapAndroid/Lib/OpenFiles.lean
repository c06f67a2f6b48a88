import Mathlib.Data.List.Basic
import Mathlib.Data.List.TakeDrop
import Mathlib.Logic.Function.Basic

/-!
# Files and open files

A name stands for a block of data until it is removed.  A program that has opened a file holds the
block and not the name: it writes to the block also when the name has gone or stands for another
one.  No two names share a block.

`Holds` says that a name stands for a block with this data.  Work on other names keeps it
(`Holds.create_of_ne`, `Holds.writeAt_of_ne`, `Holds.remove_of_ne`), and so it does with the data
that is read under a name.
-/

namespace OpenFiles

/-- Names and blocks; the blocks from `next` on are unused. -/
structure Store (ν δ : Type) where
  names : ν → Option Nat
  blocks : Nat → List δ
  next : Nat
  lt_next : ∀ f i, names f = some i → i < next
  inj : ∀ f g i, names f = some i → names g = some i → f = g

/-- Write at an offset; a gap in front of it is filled with the default, for bytes zero. -/
def overwrite {δ : Type} [Inhabited δ] (old : List δ) (k : Nat) (data : List δ) : List δ :=
  old.take k ++ List.replicate (k - old.length) default ++ data ++ old.drop (k + data.length)

/-- The next piece of a text, behind the pieces before it. -/
theorem overwrite_take {δ : Type} [Inhabited δ] {data : List δ} {k m : Nat} (h : k ≤ data.length) :
    overwrite (data.take k) k ((data.drop k).take m) = data.take (k + m) := by
  have hlen : (data.take k).length = k := List.length_take_of_le h
  have hdrop : (data.take k).drop (k + ((data.drop k).take m).length) = [] :=
    List.drop_eq_nil_of_le (Nat.le_trans (Nat.le_of_eq hlen) (Nat.le_add_right k _))
  rw [overwrite, hdrop, List.take_take, Nat.min_self, hlen, Nat.sub_self, List.replicate_zero,
    List.append_nil, List.append_nil, List.take_add]

namespace Store

variable {ν δ : Type} (s : Store ν δ) {f g : ν} {i j : Nat} {data : List δ}

/-- The data that is read under a name. -/
def content (f : ν) : Option (List δ) := (s.names f).map s.blocks

/-- The name stands for the block, and the block has the data. -/
def Holds (f : ν) (i : Nat) (data : List δ) : Prop := s.names f = some i ∧ s.blocks i = data

variable {s} in
theorem Holds.content (h : s.Holds f i data) : s.content f = some data := by
  rw [Store.content, h.1, Option.map_some, h.2]

/-! ## Opening -/

/-- The block that opening a file gives. -/
def blockFor (f : ν) : Nat := (s.names f).getD s.next

theorem eq_of_blockFor (h : s.names g = some (s.blockFor f)) : g = f := by
  rw [blockFor] at h
  cases hf : s.names f with
  | none =>
      rw [hf] at h
      exact absurd (s.lt_next g _ h) (Nat.lt_irrefl _)
  | some i =>
      rw [hf] at h
      exact s.inj g f i h hf

section
variable [DecidableEq ν]

theorem lt_next_create {f g : ν} {i : Nat}
    (h : Function.update s.names f (some (s.blockFor f)) g = some i) :
    i < max s.next (s.blockFor f + 1) := by
  rcases eq_or_ne g f with rfl | hne
  · rw [Function.update_self] at h
    cases h
    omega
  · rw [Function.update_of_ne hne] at h
    have := s.lt_next g i h
    omega

theorem inj_create {f g h : ν} {i : Nat}
    (hg : Function.update s.names f (some (s.blockFor f)) g = some i)
    (hh : Function.update s.names f (some (s.blockFor f)) h = some i) : g = h := by
  rcases eq_or_ne g f with rfl | hgf <;> rcases eq_or_ne h g with rfl | hne
  · rfl
  · rw [Function.update_self] at hg
    rw [Function.update_of_ne hne, ← hg] at hh
    exact (s.eq_of_blockFor hh).symm
  · rfl
  · rw [Function.update_of_ne hgf] at hg
    rcases eq_or_ne h f with rfl | hhf
    · rw [Function.update_self] at hh
      exact s.eq_of_blockFor (hg.trans hh.symm)
    · rw [Function.update_of_ne hhf] at hh
      exact s.inj g h i hg hh

/-- Open a file for writing: it is empty then. -/
def create (f : ν) : Store ν δ where
  names := Function.update s.names f (some (s.blockFor f))
  blocks := Function.update s.blocks (s.blockFor f) []
  next := max s.next (s.blockFor f + 1)
  lt_next _ _ := s.lt_next_create
  inj _ _ _ := s.inj_create

theorem holds_create (f : ν) : (s.create f).Holds f (s.blockFor f) [] :=
  ⟨Function.update_self .., Function.update_self ..⟩

variable {s} in
theorem Holds.create_of_ne (h : s.Holds f i data) (hne : f ≠ g) : (s.create g).Holds f i data := by
  have hi : i ≠ s.blockFor g := by
    rintro rfl
    exact hne (s.eq_of_blockFor h.1)
  exact ⟨(Function.update_of_ne hne ..).trans h.1, (Function.update_of_ne hi ..).trans h.2⟩

theorem content_create_of_ne (hne : f ≠ g) : (s.create g).content f = s.content f := by
  have hnames : (s.create g).names f = s.names f := Function.update_of_ne hne ..
  cases hf : s.names f with
  | none => rw [content, content, hnames, hf, Option.map_none, Option.map_none]
  | some i =>
      have h : s.Holds f i (s.blocks i) := ⟨hf, rfl⟩
      rw [(h.create_of_ne hne).content, h.content]

end

/-! ## Writing -/

section
variable [Inhabited δ]

/-- Write to an open file. -/
def writeAt (i k : Nat) (data : List δ) : Store ν δ :=
  { s with blocks := Function.update s.blocks i (overwrite (s.blocks i) k data) }

variable {s}

theorem Holds.writeAt (h : s.Holds f i data) (k : Nat) (more : List δ) :
    (s.writeAt i k more).Holds f i (overwrite data k more) :=
  ⟨h.1, (Function.update_self ..).trans (by rw [h.2])⟩

variable {data' : List δ} (hg : s.Holds g j data') (hne : f ≠ g) (k : Nat) (more : List δ)
include hg hne

theorem Holds.writeAt_of_ne (h : s.Holds f i data) : (s.writeAt j k more).Holds f i data := by
  have hij : i ≠ j := by
    rintro rfl
    exact hne (s.inj f g i h.1 hg.1)
  exact ⟨h.1, (Function.update_of_ne hij ..).trans h.2⟩

theorem content_writeAt_of_ne : (s.writeAt j k more).content f = s.content f := by
  have hnames : (s.writeAt j k more).names f = s.names f := rfl
  cases hf : s.names f with
  | none => rw [content, content, hnames, hf, Option.map_none, Option.map_none]
  | some i =>
      have h : s.Holds f i (s.blocks i) := ⟨hf, rfl⟩
      rw [(Holds.writeAt_of_ne hg hne k more h).content, h.content]

end

/-! ## Removing -/

section
variable [DecidableEq ν]

theorem of_update_none {f g : ν} {i : Nat} (h : Function.update s.names f none g = some i) :
    s.names g = some i := by
  rcases eq_or_ne g f with rfl | hne
  · rw [Function.update_self] at h
    cases h
  · rwa [Function.update_of_ne hne] at h

/-- Remove a name; its block stays with those who have it open. -/
def remove (f : ν) : Store ν δ where
  names := Function.update s.names f none
  blocks := s.blocks
  next := s.next
  lt_next g i h := s.lt_next g i (s.of_update_none h)
  inj g g' i h h' := s.inj g g' i (s.of_update_none h) (s.of_update_none h')

theorem content_remove (f : ν) : (s.remove f).content f = none := by
  have hnames : (s.remove f).names f = none := Function.update_self ..
  rw [content, hnames, Option.map_none]

theorem content_remove_of_ne (hne : f ≠ g) : (s.remove g).content f = s.content f := by
  have hnames : (s.remove g).names f = s.names f := Function.update_of_ne hne ..
  rw [content, hnames]
  rfl

variable {s} in
theorem Holds.remove_of_ne (h : s.Holds f i data) (hne : f ≠ g) : (s.remove g).Holds f i data :=
  ⟨(Function.update_of_ne hne ..).trans h.1, h.2⟩

end

end Store

end OpenFiles
