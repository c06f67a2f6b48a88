import HapAndroid.Highlight.HashTab

/-!
# Moving the items of a hash table

`Laid` says of an array that its items stand where a search finds them.  Writing an item at the
place that a search returns keeps this, and moving the items to a larger array establishes it
there, with the same items (`exists_moved`).
-/

namespace HapAndroid.Highlight

open Probing

/-- The slots of a search for a key. -/
def probes (mask : Nat) (key : Bytes) : Nat → Nat := probe mask (hashHash key)

/-- The array of a table. -/
structure Laid (mask : Nat) (array : List (Slot HashItem)) : Prop where
  size : ∃ k ≤ 28, mask + 1 = 2 ^ k
  length : array.length = mask + 1
  hashes : ∀ hi, Slot.item hi ∈ array → hi.hash = hashHash hi.key
  spread : Spread HashItem.key (probes mask) array

section
variable {mask : Nat} {array : List (Slot HashItem)} {key : Bytes}

theorem laid_replicate_null (h : ∃ k ≤ 28, mask + 1 = 2 ^ k) :
    Laid mask (List.replicate (mask + 1) .null) where
  size := h
  length := List.length_replicate
  hashes := fun hi h => by simp [List.mem_replicate] at h
  spread := spread_replicate_null (mask + 1)

theorem Laid.hits_iff (h : Laid mask array) {hi : HashItem} (hmem : Slot.item hi ∈ array) :
    hits key (hashHash key) hi = true ↔ hi.key = key := by
  rw [hits, Bool.and_eq_true, decide_eq_true_iff, decide_eq_true_iff, h.hashes hi hmem]
  exact ⟨fun h => h.2, fun h => ⟨h ▸ rfl, h⟩⟩

theorem Laid.lookup_spot (h : Laid mask array) (hnull : Slot.null ∈ array) (key : Bytes) :
    ∃ i, lookup mask array key (hashHash key) = some i ∧
      Spot array (hits key (hashHash key)) (probes mask key) i := by
  obtain ⟨k, hk, hmask⟩ := h.size
  exact Highlight.lookup_spot hmask (by omega) h.length hnull

theorem Laid.set (h : Laid mask array) {hit : HashItem → Bool} {i : Nat} {hi : HashItem}
    (hspot : Spot array hit (probes mask hi.key) i)
    (hhit : ∀ hj, Slot.item hj ∈ array → (hit hj = true ↔ hj.key = hi.key))
    (hhash : hi.hash = hashHash hi.key) : Laid mask (array.set i (.item hi)) where
  size := h.size
  length := by rw [List.length_set, h.length]
  hashes := fun hj hmem => by
    rcases (h.spread.item_mem_set hspot hhit).mp hmem with rfl | ⟨hmem, -⟩
    · exact hhash
    · exact h.hashes hj hmem
  spread := h.spread.set hspot hhit rfl

/-! ## Moving -/

/-- The items of two slots have different keys. -/
def KeysDiffer (a b : Slot HashItem) : Prop :=
  ∀ hi hj, a = .item hi → b = .item hj → hi.key ≠ hj.key

theorem Laid.pairwise (h : Laid mask array) : array.Pairwise KeysDiffer := by
  rw [List.pairwise_iff_getElem]
  intro i j hi hj hij a b ha hb hkey
  have hia : array[i]? = some (.item a) := List.getElem?_eq_some_iff.mpr ⟨hi, ha⟩
  have hjb : array[j]? = some (.item b) := List.getElem?_eq_some_iff.mpr ⟨hj, hb⟩
  exact Nat.ne_of_lt hij (h.spread.inj i j a b hia hjb hkey)

/-- An array that items are moved to, with this many items. -/
structure Filling (mask : Nat) (array : List (Slot HashItem)) (n : Nat) : Prop extends
    Laid mask array where
  noRemoved : Slot.removed ∉ array
  count : array.countP Slot.isItem = n

theorem filling_replicate_null (h : ∃ k ≤ 28, mask + 1 = 2 ^ k) :
    Filling mask (List.replicate (mask + 1) .null) 0 where
  toLaid := laid_replicate_null h
  noRemoved := by simp [List.mem_replicate]
  count := by simp [List.countP_replicate, Slot.isItem]

/-- One item more is placed if there is room for it. -/
theorem Filling.place {n : Nat} (h : Filling mask array n) (hn : n ≤ mask) {hi : HashItem}
    (hhash : hi.hash = hashHash hi.key)
    (hnew : ∀ hj, Slot.item hj ∈ array → hj.key ≠ hi.key) :
    ∃ i, Highlight.place mask array hi.hash = some i ∧
      Filling mask (array.set i (.item hi)) (n + 1) ∧
      ∀ hj, Slot.item hj ∈ array.set i (.item hi) ↔ hj = hi ∨ Slot.item hj ∈ array := by
  obtain ⟨k, hk, hmask⟩ := h.size
  have hnull : Slot.null ∈ array := by
    apply Slot.null_mem
    rw [Slot.countP_isFilled h.noRemoved, h.count, h.length]
    omega
  have hfind : ∃ i, walk array (fun _ => false) (probes mask hi.key) (mask + 8) 0 none = some i ∧
      Spot array (fun _ => false) (probes mask hi.key) i :=
    exists_spot (fun m => h.length ▸ probe_lt hmask (by omega) m)
      (fun j hj => probe_covers hmask (by omega) (h.length ▸ hj)) hnull
  obtain ⟨i, hwalk, hspot⟩ := hfind
  have hhit : ∀ hj, Slot.item hj ∈ array → (false = true ↔ hj.key = hi.key) := fun hj hmem =>
    ⟨fun hf => (by cases hf), fun hk => absurd hk (hnew hj hmem)⟩
  -- Nothing is hit and nothing was removed, so the slot was never used.
  have hslot : array[i]? = some .null := by
    rcases hspot.content with ⟨b, -, hb⟩ | ⟨hnull | hrem, -⟩
    · cases hb
    · exact hnull
    · exact absurd (List.mem_of_getElem? hrem) h.noRemoved
  refine ⟨i, ?_, ⟨h.toLaid.set hspot hhit hhash, ?_, ?_⟩, fun hj => ?_⟩
  · rw [place_eq h.noRemoved, hhash]
    exact hwalk
  · intro hrem
    rcases List.mem_or_eq_of_mem_set hrem with hrem | hrem
    · exact h.noRemoved hrem
    · cases hrem
  · have := Slot.countP_set_add hslot (.item hi) Slot.isItem
    simp only [Slot.isItem, h.count] at this
    exact this
  · rw [h.spread.item_mem_set hspot hhit]
    exact or_congr_right ⟨fun hmem => hmem.1, fun hmem => ⟨hmem, hnew hj hmem⟩⟩

/-- A slot without an item is stepped over. -/
theorem moveItems_cons {slot : Slot HashItem} (hslot : slot.isItem = false)
    (olditems : List (Slot HashItem)) (todo : Nat) :
    moveItems mask (slot :: olditems) todo array = moveItems mask olditems todo array := by
  cases todo with
  | zero => cases olditems <;> rfl
  | succ todo =>
      cases slot with
      | item hi => cases hslot
      | null | removed => rfl

/-- All items of the old slots have been moved to an array with `n` items. -/
structure Moved (mask : Nat) (olditems array newarray : List (Slot HashItem)) (n : Nat) :
    Prop where
  move : moveItems mask olditems (olditems.countP Slot.isItem) array = some newarray
  filling : Filling mask newarray (n + olditems.countP Slot.isItem)
  items : ∀ hi, Slot.item hi ∈ newarray ↔ Slot.item hi ∈ array ∨ Slot.item hi ∈ olditems

section
variable {olditems newarray : List (Slot HashItem)} {n : Nat}

theorem Moved.skip (h : Moved mask olditems array newarray n) {slot : Slot HashItem}
    (hslot : slot.isItem = false) : Moved mask (slot :: olditems) array newarray n := by
  have hcount : (slot :: olditems).countP Slot.isItem = olditems.countP Slot.isItem :=
    List.countP_cons_of_neg (by simp [hslot])
  refine ⟨?_, ?_, fun hi => ?_⟩
  · rw [hcount, moveItems_cons hslot]
    exact h.move
  · rw [hcount]
    exact h.filling
  · have hne : Slot.item hi ≠ slot := by
      rintro rfl
      cases hslot
    rw [h.items, List.mem_cons, or_iff_right hne]

theorem Moved.cons {i : Nat} {hi : HashItem} (hplace : Highlight.place mask array hi.hash = some i)
    (hset : ∀ hj, Slot.item hj ∈ array.set i (.item hi) ↔ hj = hi ∨ Slot.item hj ∈ array)
    (h : Moved mask olditems (array.set i (.item hi)) newarray (n + 1)) :
    Moved mask (.item hi :: olditems) array newarray n := by
  have hcount : (Slot.item hi :: olditems).countP Slot.isItem =
      olditems.countP Slot.isItem + 1 := List.countP_cons_of_pos rfl
  refine ⟨?_, ?_, fun hj => ?_⟩
  · rw [hcount, moveItems, hplace, Option.bind_some]
    exact h.move
  · rw [hcount, Nat.add_comm (olditems.countP _), ← Nat.add_assoc]
    exact h.filling
  · rw [h.items, hset, List.mem_cons, Slot.item.injEq]
    tauto

/-- Items with different keys can be moved to an array that has room for them. -/
theorem exists_moved (hdiffer : olditems.Pairwise KeysDiffer)
    (hhash : ∀ hi, Slot.item hi ∈ olditems → hi.hash = hashHash hi.key)
    (h : Filling mask array n) (hroom : n + olditems.countP Slot.isItem ≤ mask + 1)
    (hnew : ∀ hi hj, Slot.item hi ∈ olditems → Slot.item hj ∈ array → hj.key ≠ hi.key) :
    ∃ newarray, Moved mask olditems array newarray n := by
  induction olditems generalizing array n with
  | nil => exact ⟨array, rfl, h, fun hi => by simp⟩
  | cons slot olditems ih =>
      obtain ⟨hfirst, hrest⟩ := List.pairwise_cons.mp hdiffer
      have hhash' : ∀ hi, Slot.item hi ∈ olditems → hi.hash = hashHash hi.key :=
        fun hi hmem => hhash hi (List.mem_cons_of_mem slot hmem)
      have hnew' : ∀ hi hj, Slot.item hi ∈ olditems → Slot.item hj ∈ array → hj.key ≠ hi.key :=
        fun hi hj hmem => hnew hi hj (List.mem_cons_of_mem slot hmem)
      rw [List.countP_cons] at hroom
      cases slot with
      | null | removed =>
          obtain ⟨newarray, hmoved⟩ := ih hrest hhash' h hroom hnew'
          exact ⟨newarray, hmoved.skip rfl⟩
      | item hi =>
          have hroom : n + (olditems.countP Slot.isItem + 1) ≤ mask + 1 := hroom
          obtain ⟨i, hplace, hfill, hset⟩ := h.place (by omega) (hhash hi List.mem_cons_self)
            fun hj => hnew hi hj List.mem_cons_self
          -- The items that are left have other keys than the one that was placed.
          obtain ⟨newarray, hmoved⟩ := ih hrest hhash' hfill (by omega) fun hj hl hmem hlmem => by
            rcases (hset hl).mp hlmem with rfl | hlmem
            · exact hfirst (.item hj) hmem hl hj rfl rfl
            · exact hnew' hj hl hmem hlmem
          exact ⟨newarray, .cons hplace hset hmoved⟩

end

end

/-! ## Sizes -/

theorem two_pow_mul_two_mod {k : Nat} (hk : k + 1 ≤ 31) : 2 ^ k * 2 % 2 ^ 32 = 2 ^ (k + 1) := by
  rw [← Nat.pow_succ]
  exact Nat.mod_eq_of_lt (Nat.pow_lt_pow_right (by decide) (by omega))

/-- The new size is a power of two that is large enough, and not twice too large. -/
theorem newSize_eq_some {minsize fuel k n : Nat} (hk : k ≤ 31)
    (h : newSize minsize fuel (2 ^ k) = some n) :
    ∃ j, k ≤ j ∧ n = 2 ^ j ∧ minsize ≤ n ∧ (j = k ∨ n < 2 * minsize) := by
  induction fuel generalizing k with
  | zero => cases h
  | succ fuel ih =>
      rw [newSize] at h
      split at h
      · next hlt =>
        split at h
        · cases h
        · next hzero =>
          have hk' : k + 1 ≤ 31 := by
            by_contra hge
            have hk : k = 31 := by omega
            subst hk
            exact hzero (by decide)
          rw [two_pow_mul_two_mod hk'] at h
          obtain ⟨j, hj, hn, hmin, hor⟩ := ih hk' h
          refine ⟨j, by omega, hn, hmin, Or.inr ?_⟩
          rcases hor with rfl | hor
          · rw [hn, Nat.pow_succ]
            omega
          · exact hor
      · next hge =>
        cases h
        exact ⟨k, Nat.le_refl k, rfl, Nat.le_of_not_lt hge, Or.inl rfl⟩

theorem exists_newSize {minsize fuel k : Nat} (hk : k ≤ 31) (hfuel : 32 ≤ k + fuel)
    (hmin : minsize ≤ 2 ^ 31) : ∃ n, newSize minsize fuel (2 ^ k) = some n := by
  induction fuel generalizing k with
  | zero => omega
  | succ fuel ih =>
      rw [newSize]
      split
      · next hlt =>
        have hk' : k + 1 ≤ 31 := by
          by_contra hge
          have hk : k = 31 := by omega
          subst hk
          omega
        rw [two_pow_mul_two_mod hk', if_neg (Nat.two_pow_pos (k + 1)).ne']
        exact ih hk' (by omega)
      · exact ⟨2 ^ k, rfl⟩

theorem two_mul_le_minSize (used : Nat) : 2 * used ≤ minSize used := by
  rw [minSize]
  split <;> omega

theorem minSize_le {used k : Nat} (hk : 11 ≤ k) (h : used ≤ 2 ^ k) : minSize used ≤ 2 ^ (k + 1) := by
  have hpow : 2 ^ 11 ≤ 2 ^ k := Nat.pow_le_pow_right (by decide) hk
  rw [minSize, Nat.pow_succ]
  split <;> omega

theorem le_of_fits {j : Nat} (h : ¬2 ^ 32 ≤ 8 * 2 ^ j) : j ≤ 28 := by
  by_contra hgt
  have hpow : 2 ^ 29 ≤ 2 ^ j := Nat.pow_le_pow_right (by decide) (Nat.lt_of_not_le hgt)
  omega

/-! ## Tables -/

namespace HashTab

/-- The array is laid out and the counters are right. -/
structure Sound (ht : HashTab) : Prop extends Laid ht.mask ht.array where
  used_eq : ht.used = ht.array.countP Slot.isItem
  filled_eq : ht.filled = ht.array.countP Slot.isFilled
  filled_le : ht.filled ≤ ht.mask
  small_mask : ht.small = true → ht.mask = htInitSize - 1
  le_mask : htInitSize - 1 ≤ ht.mask

/-- Between two calls there is also room for one item more, unless the table says otherwise. -/
structure Wf (ht : HashTab) : Prop extends Sound ht where
  room_left : ht.error = false → ht.filled < ht.mask

variable {ht : HashTab}

theorem wf_hashInit : hashInit.Wf where
  toLaid := laid_replicate_null ⟨4, by decide, rfl⟩
  used_eq := by decide
  filled_eq := by decide
  filled_le := by decide
  small_mask := fun _ => rfl
  le_mask := Nat.le_refl _
  room_left := fun _ => by decide

theorem Sound.null_mem (h : ht.Sound) : Slot.null ∈ ht.array := by
  apply Slot.null_mem
  rw [← h.filled_eq, h.length]
  exact Nat.lt_succ_of_le h.filled_le

theorem Sound.used_le_filled (h : ht.Sound) : ht.used ≤ ht.filled := by
  rw [h.used_eq, h.filled_eq]
  apply List.countP_mono_left
  rintro (_ | _ | hi) - hitem
  · cases hitem
  · cases hitem
  · rfl

theorem Sound.mask_lt (h : ht.Sound) : ht.mask < 2 ^ 28 := by
  obtain ⟨k, hk, hmask⟩ := h.size
  have := Nat.pow_le_pow_right (n := 2) (by decide) hk
  omega

/-- What `hash_may_resize` may return. -/
inductive ResizedTo (ht : HashTab) (room : Bool) : Resized → Prop where
  | kept (hlt : ht.filled < ht.mask) : ResizedTo ht room .kept
  | moved {ht' : HashTab} (hwf : ht'.Wf) (herror : ht'.error = false) (hused : ht'.used = ht.used)
      (hitems : ∀ hi, Slot.item hi ∈ ht'.array ↔ Slot.item hi ∈ ht.array) :
      ResizedTo ht room (.moved ht')
  | failed (hroom : room = false) : ResizedTo ht room (.failed { ht with error := true })

theorem Sound.lt_of_roomy (h : ht.Sound) (hroomy : ht.Roomy) : ht.filled < ht.mask := by
  have hge := h.le_mask
  rw [htInitSize] at hge
  rcases hroomy with ⟨hlt, hsmall⟩ | ⟨hlt, -⟩
  · rw [h.small_mask hsmall]
    exact hlt
  · omega

/-- The items of a table that is moved to `2 ^ j` slots. -/
theorem Sound.exists_moved (h : ht.Sound) {j : Nat} (hj : j ≤ 28) (hmin : minSize ht.used ≤ 2 ^ j) :
    ∃ array, moveItems (2 ^ j - 1) ht.array ht.used (List.replicate (2 ^ j) .null) = some array ∧
      Filling (2 ^ j - 1) array ht.used ∧
      ∀ hi, Slot.item hi ∈ array ↔ Slot.item hi ∈ ht.array := by
  have hpos := Nat.two_pow_pos j
  have hmask : 2 ^ j - 1 + 1 = 2 ^ j := by omega
  have hle := two_mul_le_minSize ht.used
  have hstart : Filling (2 ^ j - 1) (List.replicate (2 ^ j) .null) 0 := by
    have := filling_replicate_null ⟨j, hj, hmask⟩
    rwa [hmask] at this
  have hused := h.used_eq
  obtain ⟨array, hmoved⟩ := Highlight.exists_moved h.toLaid.pairwise h.hashes hstart (by omega)
    fun hi hj hmem hnull => by simp [List.mem_replicate] at hnull
  refine ⟨array, hused ▸ hmoved.move, ?_, fun hi => ?_⟩
  · have hfill := hmoved.filling
    rwa [← hused, Nat.zero_add] at hfill
  · rw [hmoved.items]
    simp [List.mem_replicate]

/-- The size that is chosen. -/
theorem Sound.exists_newSize (h : ht.Sound) : ∃ j, 4 ≤ j ∧
    newSize (minSize ht.used) 29 htInitSize = some (2 ^ j) ∧ minSize ht.used ≤ 2 ^ j ∧
      (j = 4 ∨ 2 ^ j < 2 * minSize ht.used) := by
  have hused : ht.used ≤ 2 ^ 28 := by
    have hle := h.used_le_filled
    have hfilled := h.filled_le
    have hmask := h.mask_lt
    omega
  have hmin : minSize ht.used ≤ 2 ^ 31 := (minSize_le (by decide) hused).trans (by decide)
  obtain ⟨n, hn⟩ : ∃ n, newSize (minSize ht.used) 29 (2 ^ 4) = some n :=
    Highlight.exists_newSize (by decide) (by decide) hmin
  obtain ⟨j, hj, rfl, hle, hor⟩ := newSize_eq_some (by decide) hn
  exact ⟨j, hj, hn, hle, hor⟩

theorem Sound.resizedTo (h : ht.Sound) {room : Bool} {r : Resized}
    (hr : ht.hashMayResize room = some r) : ht.ResizedTo room r := by
  obtain ⟨j, hj4, hsize, hmin, -⟩ := h.exists_newSize
  rw [hashMayResize, hsize] at hr
  dsimp only at hr
  split at hr
  · next hroomy =>
    cases hr
    exact .kept (h.lt_of_roomy hroomy)
  split at hr
  · next hnoroom =>
    cases hr
    split
    · next hlt => exact .kept hlt
    · exact .failed hnoroom.2
  split at hr
  · cases hr
  · next hfits =>
    obtain ⟨array, hmove, hfill, hitems⟩ := h.exists_moved (le_of_fits hfits) hmin
    rw [hmove, Option.map_some] at hr
    cases hr
    have hpow : 2 ^ 4 ≤ 2 ^ j := Nat.pow_le_pow_right (by decide) hj4
    have hused := two_mul_le_minSize ht.used
    refine .moved ⟨⟨hfill.toLaid, hfill.count.symm, ?_, ?_, ?_, ?_⟩, ?_⟩ rfl rfl hitems
    · exact (Slot.countP_isFilled hfill.noRemoved ▸ hfill.count).symm
    · dsimp only
      omega
    · intro hsmall
      rw [decide_eq_true_iff.mp hsmall]
    · rw [htInitSize]
      dsimp only
      omega
    · intro _
      dsimp only
      omega

/-- The memory is large enough for the items. -/
theorem Sound.exists_resized (h : ht.Sound) (room : Bool) (hused : ht.used ≤ 2 ^ 27) :
    ∃ r, ht.hashMayResize room = some r := by
  obtain ⟨j, hj4, hsize, hmin, hor⟩ := h.exists_newSize
  have hle := minSize_le (by decide) hused
  have hfits : ¬2 ^ 32 ≤ 8 * 2 ^ j := by
    rcases hor with rfl | hlt <;> omega
  rw [hashMayResize, hsize]
  dsimp only
  split
  · exact ⟨_, rfl⟩
  split
  · exact ⟨_, rfl⟩
  · obtain ⟨array, hmove, -⟩ := h.exists_moved (le_of_fits hfits) hmin
    rw [hmove]
    exact ⟨_, rfl⟩

/-! ## Adding an item -/

/-- The table holds one item more, or another one for the key. -/
def HoldsAlso (ht : HashTab) (hi : HashItem) (array : List (Slot HashItem)) : Prop :=
  ∀ hj, Slot.item hj ∈ array ↔ hj = hi ∨ Slot.item hj ∈ ht.array ∧ hj.key ≠ hi.key

/-- The place that `hash_lookup` returns for a key. -/
def Place (ht : HashTab) (key : Bytes) (i : Nat) : Prop :=
  Spot ht.array (hits key (hashHash key)) (probes ht.mask key) i

section
variable {room : Bool} {i : Nat} {hi : HashItem} {ht' : HashTab}

theorem Sound.laid_set (h : ht.Sound) (hplace : ht.Place hi.key i)
    (hhash : hi.hash = hashHash hi.key) : Laid ht.mask (ht.array.set i (.item hi)) :=
  h.toLaid.set hplace (fun _ hmem => h.hits_iff hmem) hhash

theorem Sound.holdsAlso_set (h : ht.Sound) (hplace : ht.Place hi.key i) :
    ht.HoldsAlso hi (ht.array.set i (.item hi)) := fun _ =>
  h.spread.item_mem_set hplace fun _ hmem => h.hits_iff hmem

section
variable (h : ht.Sound) (hlt : ht.filled < ht.mask) (hplace : ht.Place hi.key i)
  (hfree : ht.array[i]? = some .null ∨ ht.array[i]? = some .removed)
  (hhash : hi.hash = hashHash hi.key)
include h hlt hplace hfree hhash

theorem Sound.put : (ht.put i hi).Sound where
  toLaid := h.laid_set hplace hhash
  used_eq := by
    rw [HashTab.put, h.used_eq]
    rcases hfree with hslot | hslot
    · exact (Slot.countP_set_add hslot (.item hi) Slot.isItem).symm
    · exact (Slot.countP_set_add hslot (.item hi) Slot.isItem).symm
  filled_eq := by
    rw [HashTab.put, h.filled_eq]
    rcases hfree with hslot | hslot
    · rw [hslot, if_pos rfl]
      exact (Slot.countP_set_add hslot (.item hi) Slot.isFilled).symm
    · have hcount := Slot.countP_set_add hslot (.item hi) Slot.isFilled
      rw [hslot, if_neg (by simp)]
      exact (Nat.add_right_cancel hcount).symm
  filled_le := by
    rw [HashTab.put]
    dsimp only
    split <;> omega
  small_mask := h.small_mask
  le_mask := h.le_mask

theorem Sound.putItem (hput : ht.putItem room i hi = some ht') :
    ht'.Wf ∧ ht'.used = ht.used + 1 ∧ ht.HoldsAlso hi ht'.array ∧
      (ht.error = false → room = true → ht'.error = false) := by
  have hsound := h.put hlt hplace hfree hhash
  have hitems := h.holdsAlso_set hplace
  rw [HashTab.putItem, Option.map_eq_some_iff] at hput
  obtain ⟨r, hr, rfl⟩ := hput
  cases hsound.resizedTo hr with
  | kept hlt' => exact ⟨⟨hsound, fun _ => hlt'⟩, rfl, hitems, fun herror _ => herror⟩
  | moved hwf herror hused hsame =>
      exact ⟨hwf, hused, fun hj => (hsame hj).trans (hitems hj), fun _ _ => herror⟩
  | failed hroom =>
      refine ⟨⟨⟨hsound.toLaid, hsound.used_eq, hsound.filled_eq, hsound.filled_le,
        hsound.small_mask, hsound.le_mask⟩, fun herror => ?_⟩, rfl, hitems, fun _ hr => ?_⟩
      · cases herror
      · rw [hroom] at hr
        cases hr

end

end

end HashTab

end HapAndroid.Highlight
