import Mathlib.Data.List.Basic
import Mathlib.Data.Nat.Init

/-!
# Growing arrays (`misc2.c`)

`ga_init` and `ga_clear` keep the two sizes, so an array that is used again starts
with those of its last use.  The number of cells that `ga_grow` allocates is computed
from the item size at that time: an array that grows before its item size was set has
no room, and a write to it is a fault (`none`).

`put_grow_eq` is what the callers rely on: with the right item size, growing by one and
writing appends one item.
-/

namespace HapAndroid.Highlight

/-- A type of items: its size in memory, and the item of zero bytes. -/
class CItem (α : Type) where
  size : Nat
  size_pos : 0 < size
  zero : α

/-- A `garray_T`.  `data` is the allocated block, as the items that fit in it. -/
structure GArray (α : Type) where
  len : Nat
  maxlen : Nat
  itemsize : Nat
  growsize : Nat
  data : Option (List α)
deriving DecidableEq

namespace GArray

variable {α : Type} [CItem α]

/-- The value of a static variable. -/
def fresh : GArray α := ⟨0, 0, 0, 0, none⟩

/-- `ga_init`. -/
def init (g : GArray α) : GArray α := { g with data := none, maxlen := 0, len := 0 }

/-- `ga_clear`: the block is freed. -/
def clear (g : GArray α) : GArray α := g.init

/-- The items that fit in the space for `n` items of the array's item size. -/
def cells (g : GArray α) (n : Nat) : Nat := g.itemsize * n / CItem.size α

/-- The room after growing by at least `n`. -/
def room (g : GArray α) (n : Nat) : Nat := g.len + max n g.growsize

/-- `ga_grow`: a larger block of zero bytes, with the old items moved to its front. -/
def grow (g : GArray α) (n : Nat) : GArray α :=
  if g.maxlen < g.len + n then
    { g with
      maxlen := g.room n
      data := some ((g.data.getD []).take (g.cells g.len) ++
        List.replicate (g.cells (g.room n) - g.cells g.len) CItem.zero) }
  else g

/-- Write behind the last item and count it. -/
def put (g : GArray α) (a : α) : Option (GArray α) :=
  match g.data with
  | none => none
  | some d =>
      if g.len < d.length then some { g with data := some (d.set g.len a), len := g.len + 1 }
      else none

/-- The counted items. -/
def items (g : GArray α) : List α := (g.data.getD []).take g.len

/-- The array owns a block with room for `maxlen` items of the right size. -/
structure Sized (g : GArray α) : Prop where
  itemsize : g.itemsize = CItem.size α
  length_data : (g.data.getD []).length = g.maxlen
  len_le : g.len ≤ g.maxlen

variable {g : GArray α}

theorem cells_eq (h : g.itemsize = CItem.size α) (n : Nat) : g.cells n = n := by
  rw [cells, h, Nat.mul_div_cancel_left n CItem.size_pos]

theorem length_items (h : g.Sized) : g.items.length = g.len := by
  rw [items, List.length_take, h.length_data]
  exact Nat.min_eq_left h.len_le

theorem sized_grow (h : g.Sized) (n : Nat) : (g.grow n).Sized := by
  unfold grow
  split
  · have hcells := cells_eq h.itemsize
    have hroom : g.len ≤ g.room n := Nat.le_add_right _ _
    refine ⟨h.itemsize, ?_, hroom⟩
    have hd := h.length_data
    have hl := h.len_le
    simp only [Option.getD_some, List.length_append, List.length_take, List.length_replicate, hcells]
    omega
  · exact h

theorem items_grow (h : g.Sized) (n : Nat) : (g.grow n).items = g.items := by
  unfold grow
  split
  · have hl : g.len ≤ (g.data.getD []).length := h.length_data ▸ h.len_le
    have hkept : g.len ≤ ((g.data.getD []).take g.len).length := by
      rw [List.length_take]
      omega
    rw [items, cells_eq h.itemsize]
    show List.take g.len (List.take g.len _ ++ _) = g.items
    rw [List.take_append_of_le_length hkept, List.take_take, Nat.min_self, items]
  · rfl

@[simp] theorem len_grow (n : Nat) : (g.grow n).len = g.len := by
  unfold grow
  split <;> rfl

theorem room_grow (n : Nat) : g.len + n ≤ (g.grow n).maxlen := by
  unfold grow
  split
  · exact Nat.add_le_add_left (Nat.le_max_left _ _) _
  · omega

/-- A write with room appends. -/
theorem put_eq (h : g.Sized) (hroom : g.len < g.maxlen) (a : α) :
    ∃ g', g.put a = some g' ∧ g'.Sized ∧ g'.items = g.items ++ [a] ∧ g'.len = g.len + 1 := by
  have hd := h.length_data
  cases hdata : g.data with
  | none =>
      rw [hdata, Option.getD_none, List.length_nil] at hd
      omega
  | some d =>
      rw [hdata, Option.getD_some] at hd
      refine ⟨{ g with data := some (d.set g.len a), len := g.len + 1 }, ?_, ?_, ?_, rfl⟩
      · rw [put, hdata]
        exact if_pos (hd ▸ hroom)
      · exact ⟨h.itemsize, by rw [Option.getD_some, List.length_set, hd], hroom⟩
      · rw [items, items, hdata, Option.getD_some, Option.getD_some]
        rw [List.take_succ_eq_append_getElem (by rw [List.length_set]; omega),
          List.take_set_of_le (Nat.le_refl _), List.getElem_set_self]

/-- Growing and writing appends. -/
theorem put_grow_eq (h : g.Sized) {n : Nat} (hn : 0 < n) (a : α) :
    ∃ g', (g.grow n).put a = some g' ∧ g'.Sized ∧ g'.items = g.items ++ [a] ∧
      g'.len = g.len + 1 := by
  have hroom : (g.grow n).len < (g.grow n).maxlen := by
    have := g.room_grow n
    rw [len_grow]
    omega
  obtain ⟨g', hput, hsized, hitems, hlen⟩ := put_eq (sized_grow h n) hroom a
  exact ⟨g', hput, hsized, by rw [hitems, items_grow h], by rw [hlen, len_grow]⟩

end GArray

end HapAndroid.Highlight
