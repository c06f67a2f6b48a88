import HapAndroid.Highlight.Bytes
import HapAndroid.Lib.Congruential
import HapAndroid.Lib.Probing

/-!
# The hash table (`hashtab.c`)

The table of the keywords.  Its size is a power of two, and a key is searched for along a
sequence of `int`s of which the mask keeps the low bits.  Each is five times the one before, plus
one, plus a rest of the hash number that gets shorter by five bits in every step.  After seven
steps there is no rest, and from then on the sequence comes to every slot (`probe_covers`).

`int` and `unsigned long` have 32 bits, as on the processors that the library is built for, and
their arithmetic wraps.  `none` is a run that does not come to an end or leaves the array.  The
sizes are natural numbers: an array of `2 ^ 29` items is larger than the memory, so the
model stops there, and below nothing overflows.

`Wf` is what the operations keep, also when `malloc` fails: there is always a slot that was never
used, so every search ends (`hashLookup_spot`).
-/

namespace HapAndroid.Highlight

open Probing

/-- A `hashitem_T` in use, with the group of the `keywordItem_T` that its key is a part of. -/
structure HashItem where
  hash : UInt32
  key : Bytes
  group : Nat
deriving DecidableEq

/-- A `hashtab_T`. -/
structure HashTab where
  mask : Nat
  used : Nat
  filled : Nat
  error : Bool
  /-- The array is `ht_smallarray`. -/
  small : Bool
  array : List (Slot HashItem)
deriving DecidableEq

/-- `HT_INIT_SIZE`. -/
def htInitSize : Nat := 16

def hashInit : HashTab := ⟨htInitSize - 1, 0, 0, false, true, List.replicate htInitSize .null⟩

/-- `hash_hash`. -/
def hashHash : Bytes → UInt32
  | [] => 0
  | c :: p => p.foldl (fun hash b => hash * 101 + b.toUInt32) c.toUInt32

/-! ## The search -/

/-- `PERTURB_SHIFT`. -/
def perturbShift : UInt32 := 5

/-- The next value of `idx`. -/
def nextIdx (idx perturb : UInt32) : UInt32 := (idx <<< 2) + idx + perturb + 1

/-- The slot of an index. -/
def masked (mask : Nat) (idx : UInt32) : Nat := (idx &&& UInt32.ofNat mask).toNat

section
variable (mask : Nat) (array : List (Slot HashItem)) (key : Bytes) (hash : UInt32)

/-- The item has the key. -/
def hits (hi : HashItem) : Bool := hi.hash = hash && hi.key = key

/-- The loop of `hash_lookup`. -/
def lookupLoop : Nat → UInt32 → UInt32 → Option Nat → Option Nat
  | 0, _, _, _ => none
  | fuel + 1, idx, perturb, freeitem =>
      match array[masked mask (nextIdx idx perturb)]? with
      | none => none
      | some .null => some (freeitem.getD (masked mask (nextIdx idx perturb)))
      | some .removed =>
          lookupLoop fuel (nextIdx idx perturb) (perturb >>> perturbShift)
            (freeitem.or (some (masked mask (nextIdx idx perturb))))
      | some (.item hi) =>
          if hits key hash hi then some (masked mask (nextIdx idx perturb))
          else lookupLoop fuel (nextIdx idx perturb) (perturb >>> perturbShift) freeitem

/-- `hash_lookup`: the position of the item that is returned. -/
def lookup : Option Nat :=
  match array[(hash &&& UInt32.ofNat mask).toNat]? with
  | none => none
  | some .null => some (hash &&& UInt32.ofNat mask).toNat
  | some .removed =>
      lookupLoop mask array key hash (mask + 7) (hash &&& UInt32.ofNat mask) hash
        (some (hash &&& UInt32.ofNat mask).toNat)
  | some (.item hi) =>
      if hits key hash hi then some (hash &&& UInt32.ofNat mask).toNat
      else lookupLoop mask array key hash (mask + 7) (hash &&& UInt32.ofNat mask) hash none

/-- The loop of `hash_may_resize` for the place of an item. -/
def placeLoop : Nat → UInt32 → UInt32 → Option Nat
  | 0, _, _ => none
  | fuel + 1, newi, perturb =>
      match array[masked mask (nextIdx newi perturb)]? with
      | none => none
      | some .null => some (masked mask (nextIdx newi perturb))
      | some _ => placeLoop fuel (nextIdx newi perturb) (perturb >>> perturbShift)

def place : Option Nat :=
  match array[(hash &&& UInt32.ofNat mask).toNat]? with
  | none => none
  | some .null => some (hash &&& UInt32.ofNat mask).toNat
  | some _ => placeLoop mask array (mask + 7) (hash &&& UInt32.ofNat mask) hash

end

def HashTab.hashLookup (ht : HashTab) (key : Bytes) (hash : UInt32) : Option Nat :=
  lookup ht.mask ht.array key hash

/-! ## Resizing -/

/-- The loop that moves `todo` items to the new array. -/
def moveItems (newmask : Nat) :
    List (Slot HashItem) → Nat → List (Slot HashItem) → Option (List (Slot HashItem))
  | _, 0, newarray => some newarray
  | [], _ + 1, _ => none
  | .item hi :: olditems, todo + 1, newarray =>
      (place newmask newarray hi.hash).bind fun newi =>
        moveItems newmask olditems todo (newarray.set newi (.item hi))
  | _ :: olditems, todo + 1, newarray => moveItems newmask olditems (todo + 1) newarray

/-- The loop that doubles `newsize`; `none` is its overflow. -/
def newSize (minsize : Nat) : Nat → Nat → Option Nat
  | 0, _ => none
  | fuel + 1, newsize =>
      if newsize < minsize then
        if newsize * 2 % 2 ^ 32 = 0 then none else newSize minsize fuel (newsize * 2 % 2 ^ 32)
      else some newsize

def minSize (used : Nat) : Nat := if used > 1000 then used * 2 else used * 4

/-- How `hash_may_resize` returns. -/
inductive Resized where
  /-- `TRUE`, and nothing has changed. -/
  | kept
  /-- `TRUE`, and the items stand in another array. -/
  | moved (ht : HashTab)
  /-- `FALSE`. -/
  | failed (ht : HashTab)

/-- The table after the call. -/
def Resized.table (ht : HashTab) : Resized → HashTab
  | .kept => ht
  | .moved ht' => ht'
  | .failed ht' => ht'

namespace HashTab

/-- There is enough room, and not too much. -/
def Roomy (ht : HashTab) : Prop :=
  ht.filled < htInitSize - 1 ∧ ht.small = true ∨
    ht.filled * 3 < (ht.mask + 1) * 2 ∧ ht.used > (ht.mask + 1) / 5

instance (ht : HashTab) : Decidable ht.Roomy := inferInstanceAs (Decidable (_ ∨ _))

/-- `hash_may_resize`, as it is called with no minimal number of items.  `room` is whether `malloc`
finds room for the array. -/
def hashMayResize (room : Bool) (ht : HashTab) : Option Resized :=
  if ht.Roomy then some .kept
  else
    match newSize (minSize ht.used) 29 htInitSize with
    | none => some (.failed ht)
    | some newsize =>
        if newsize ≠ htInitSize ∧ room = false then
          some (if ht.filled < ht.mask then .kept else .failed { ht with error := true })
        -- The number of bytes would not fit into the argument of `malloc`.
        else if 2 ^ 32 ≤ 8 * newsize then none
        else
          (moveItems (newsize - 1) ht.array ht.used (List.replicate newsize .null)).map fun array =>
            .moved ⟨newsize - 1, ht.used, ht.used, false, newsize = htInitSize, array⟩

/-- The item is written. -/
def put (ht : HashTab) (i : Nat) (hi : HashItem) : HashTab :=
  { ht with
    used := ht.used + 1
    filled := if ht.array[i]? = some Slot.null then ht.filled + 1 else ht.filled
    array := ht.array.set i (.item hi) }

def putItem (room : Bool) (ht : HashTab) (i : Nat) (hi : HashItem) : Option HashTab :=
  ((ht.put i hi).hashMayResize room).map (Resized.table (ht.put i hi))

/-- `hash_add_item`. -/
def hashAddItem (room : Bool) (ht : HashTab) (i : Nat) (hi : HashItem) : Option HashTab :=
  if ht.error then
    match ht.hashMayResize room with
    | none => none
    | some .kept => ht.putItem room i hi
    -- The item that was looked up stood in the array that is gone.
    | some (.moved _) => none
    | some (.failed ht') => some ht'
  else ht.putItem room i hi

end HashTab

/-! ## The probes -/

/-- The values of `idx` and `perturb` in a search. -/
def trail (mask : Nat) (hash : UInt32) : Nat → UInt32 × UInt32
  | 0 => (hash &&& UInt32.ofNat mask, hash)
  | n + 1 =>
      (nextIdx (trail mask hash n).1 (trail mask hash n).2, (trail mask hash n).2 >>> perturbShift)

/-- The slots of a search. -/
def probe (mask : Nat) (hash : UInt32) (n : Nat) : Nat := masked mask (trail mask hash n).1

section
variable {mask k : Nat} {hash : UInt32}

theorem masked_eq (hmask : mask + 1 = 2 ^ k) (hk : k ≤ 32) (idx : UInt32) :
    masked mask idx = idx.toNat % 2 ^ k := by
  have hlt : mask < 2 ^ 32 := by
    have := Nat.pow_le_pow_right (n := 2) (by decide) hk
    omega
  have hm : mask = 2 ^ k - 1 := by omega
  rw [masked, UInt32.toNat_and, UInt32.toNat_ofNat_of_lt' hlt, hm, Nat.and_two_pow_sub_one_eq_mod]

theorem probe_zero : probe mask hash 0 = (hash &&& UInt32.ofNat mask).toNat := by
  rw [probe, trail, masked, UInt32.and_assoc, UInt32.and_self]

theorem probe_lt (hmask : mask + 1 = 2 ^ k) (hk : k ≤ 32) (n : Nat) :
    probe mask hash n < mask + 1 := by
  rw [probe, masked_eq hmask hk, hmask]
  exact Nat.mod_lt _ (Nat.two_pow_pos k)

theorem toNat_trail_snd (n : Nat) : (trail mask hash n).2.toNat = hash.toNat / 32 ^ n := by
  induction n with
  | zero => rw [trail, Nat.pow_zero, Nat.div_one]
  | succ n ih =>
      rw [trail, UInt32.toNat_shiftRight, ih, Nat.pow_succ, ← Nat.div_div_eq_div_mul,
        Nat.shiftRight_eq_div_pow]
      rfl

/-- After seven steps nothing is left of the hash number. -/
theorem trail_snd_eq_zero {n : Nat} (hn : 7 ≤ n) : (trail mask hash n).2 = 0 := by
  apply UInt32.toNat_inj.mp
  rw [toNat_trail_snd, UInt32.toNat_zero]
  apply Nat.div_eq_of_lt
  calc hash.toNat < 32 ^ 7 := Nat.lt_of_lt_of_le hash.toNat_lt (by decide)
    _ ≤ 32 ^ n := Nat.pow_le_pow_right (by decide) hn

theorem toNat_nextIdx (idx : UInt32) :
    (nextIdx idx 0).toNat ≡ Congruential.affine 5 1 idx.toNat [MOD 2 ^ 32] := by
  have hshift : (idx <<< 2).toNat = idx.toNat * 4 % 2 ^ 32 := by
    rw [UInt32.toNat_shiftLeft, Nat.shiftLeft_eq]
    rfl
  rw [nextIdx, Congruential.affine, UInt32.add_zero, UInt32.toNat_add, UInt32.toNat_add, hshift,
    Nat.ModEq]
  simp only [UInt32.toNat_one]
  omega

theorem trail_add_seven (m : Nat) :
    (trail mask hash (7 + m)).1.toNat ≡
      (Congruential.affine 5 1)^[m] (trail mask hash 7).1.toNat [MOD 2 ^ 32] := by
  induction m with
  | zero => rfl
  | succ m ih =>
      rw [← Nat.add_assoc, trail, trail_snd_eq_zero (Nat.le_add_right 7 m),
        Function.iterate_succ_apply']
      exact (toNat_nextIdx _).trans ((ih.mul_left 5).add_right 1)

/-- The search comes to every slot. -/
theorem probe_covers (hmask : mask + 1 = 2 ^ k) (hk : k ≤ 32) {i : Nat} (hi : i < mask + 1) :
    ∃ n < mask + 8, probe mask hash n = i := by
  obtain ⟨m, hm, hmod⟩ := Congruential.exists_iterate_modEq (a := 5) (c := 1) rfl rfl k i
    (trail mask hash 7).1.toNat
  refine ⟨7 + m, by omega, ?_⟩
  have hdvd : 2 ^ k ∣ 2 ^ 32 := Nat.pow_dvd_pow 2 hk
  rw [probe, masked_eq hmask hk]
  calc (trail mask hash (7 + m)).1.toNat % 2 ^ k = i % 2 ^ k :=
        ((trail_add_seven m).of_dvd hdvd).trans hmod
    _ = i := Nat.mod_eq_of_lt (hmask ▸ hi)

end

/-! ## The searches -/

section
variable {mask k : Nat} {array : List (Slot HashItem)} {key : Bytes} {hash : UInt32}

theorem lookupLoop_eq (fuel n : Nat) (free : Option Nat) :
    lookupLoop mask array key hash fuel (trail mask hash n).1 (trail mask hash n).2 free =
      walk array (hits key hash) (probe mask hash) fuel (n + 1) free := by
  induction fuel generalizing n free with
  | zero => rfl
  | succ fuel ih =>
      rw [lookupLoop, walk]
      have hprobe : masked mask (nextIdx (trail mask hash n).1 (trail mask hash n).2) =
          probe mask hash (n + 1) := rfl
      rw [hprobe]
      split
      · next h => rw [h]
      · next h => rw [h]
      · next h => rw [h]; exact ih (n + 1) _
      · next hi h =>
        rw [h]
        dsimp only
        split
        · rfl
        · exact ih (n + 1) free

theorem lookup_eq : lookup mask array key hash =
    walk array (hits key hash) (probe mask hash) (mask + 8) 0 none := by
  rw [lookup, walk, probe_zero]
  split
  · next h => rw [h]
  · next h => rw [h]; rfl
  · next h => rw [h]; exact lookupLoop_eq (mask + 7) 0 _
  · next hi h =>
    rw [h]
    dsimp only
    split
    · rfl
    · exact lookupLoop_eq (mask + 7) 0 none

/-- A search ends in every table with a slot that was never used. -/
theorem lookup_spot (hmask : mask + 1 = 2 ^ k) (hk : k ≤ 32) (hlen : array.length = mask + 1)
    (hnull : Slot.null ∈ array) :
    ∃ i, lookup mask array key hash = some i ∧ Spot array (hits key hash) (probe mask hash) i := by
  rw [lookup_eq]
  refine exists_spot (fun n => ?_) (fun i hi => ?_) hnull
  · rw [hlen]
    exact probe_lt hmask hk n
  · exact probe_covers hmask hk (hlen ▸ hi)

/-- The search for a place in an array without removed items is a search that hits nothing. -/
theorem placeLoop_eq (hrem : Slot.removed ∉ array) (fuel n : Nat) :
    placeLoop mask array fuel (trail mask hash n).1 (trail mask hash n).2 =
      walk array (fun _ => false) (probe mask hash) fuel (n + 1) none := by
  induction fuel generalizing n with
  | zero => rfl
  | succ fuel ih =>
      rw [placeLoop, walk]
      have hprobe : masked mask (nextIdx (trail mask hash n).1 (trail mask hash n).2) =
          probe mask hash (n + 1) := rfl
      rw [hprobe]
      cases h : array[probe mask hash (n + 1)]? with
      | none => rfl
      | some slot =>
          cases slot with
          | null => rfl
          | removed => exact absurd (List.mem_of_getElem? h) hrem
          | item hi => exact ih (n + 1)

theorem place_eq (hrem : Slot.removed ∉ array) : place mask array hash =
    walk array (fun _ => false) (probe mask hash) (mask + 8) 0 none := by
  rw [place, walk, probe_zero]
  cases h : array[(hash &&& UInt32.ofNat mask).toNat]? with
  | none => rfl
  | some slot =>
      cases slot with
      | null => rfl
      | removed => exact absurd (List.mem_of_getElem? h) hrem
      | item hi => exact placeLoop_eq hrem (mask + 7) 0

end

end HapAndroid.Highlight
