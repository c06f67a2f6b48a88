import Mathlib.Data.List.Basic

/-!
# Open addressing

A table of slots.  A key has a sequence of positions, its probes, and its item stands at one of
them: at the first, or at a later one if the slots before it were taken.  A search for a key walks
along the probes to the item, or to a slot that was never used: behind that the key cannot
stand.  A slot whose item was removed does not end the search, but it can be used again.

`Spread` is what the searches rely on and what every change keeps: each item is reached along its
own probes, and no key stands twice.  `spot_of_walk` says what a search finds, and
`Spread.set` that an item may be written there.
-/

namespace Probing

/-- A place in the table. -/
inductive Slot (β : Type*) where
  /-- Never used. -/
  | null
  | removed
  | item (b : β)
deriving DecidableEq

namespace Slot

variable {β : Type*}

def isItem : Slot β → Bool
  | item _ => true
  | _ => false

/-- The slot was used. -/
def isFilled : Slot β → Bool
  | null => false
  | _ => true

theorem null_mem {s : List (Slot β)} (h : s.countP isFilled < s.length) : null ∈ s := by
  by_contra hnull
  have hall : ∀ a ∈ s, a.isFilled = true := by
    rintro (_ | _ | b) ha
    · exact absurd ha hnull
    · rfl
    · rfl
  rw [List.countP_eq_length.mpr hall] at h
  exact Nat.lt_irrefl _ h

theorem countP_isFilled {s : List (Slot β)} (h : removed ∉ s) :
    s.countP isFilled = s.countP isItem := by
  apply List.countP_congr
  rintro (_ | _ | b) ha
  · rfl
  · exact absurd ha h
  · rfl

/-- Writing a slot changes a count by that slot. -/
theorem countP_set_add {s : List (Slot β)} {i : Nat} {a : Slot β} (h : s[i]? = some a) (b : Slot β)
    (p : Slot β → Bool) : (s.set i b).countP p + (if p a then 1 else 0) =
      s.countP p + (if p b then 1 else 0) := by
  obtain ⟨hi, rfl⟩ := List.getElem?_eq_some_iff.mp h
  have hpos : p s[i] = true → 0 < s.countP p := fun hp =>
    List.countP_pos_iff.mpr ⟨s[i], List.getElem_mem hi, hp⟩
  rw [List.countP_set hi]
  split
  · next hp =>
    have := hpos hp
    omega
  · omega

end Slot

variable {β κ : Type*}

/-! ## The search -/

section
variable (s : List (Slot β)) (hit : β → Bool) (probe : Nat → Nat)

/-- Walk along the probes from the `n`-th on: the place of the item that is searched for, or the
place where it can be written.  `free` is the first removed slot so far. -/
def walk : Nat → Nat → Option Nat → Option Nat
  | 0, _, _ => none
  | fuel + 1, n, free =>
      match s[probe n]? with
      | none => none
      | some .null => some (free.getD (probe n))
      | some .removed => walk fuel (n + 1) (free.or (some (probe n)))
      | some (.item b) => if hit b then some (probe n) else walk fuel (n + 1) free

/-- The place is on the way, in front of every slot that was never used. -/
def OnWay (i : Nat) : Prop := ∃ n, probe n = i ∧ ∀ m < n, s[probe m]? ≠ some .null

/-- The walk ends without the item. -/
def Misses : Prop :=
  ∃ z, s[probe z]? = some .null ∧ ∀ m < z, ∀ b, s[probe m]? = some (.item b) → hit b = false

/-- What a walk may return. -/
structure Spot (i : Nat) : Prop where
  onWay : OnWay s probe i
  content : (∃ b, s[i]? = some (.item b) ∧ hit b = true) ∨
    (s[i]? = some .null ∨ s[i]? = some .removed) ∧ Misses s hit probe

end

section
variable {s : List (Slot β)} {hit : β → Bool} {probe : Nat → Nat}

/-- A walk ends if it comes to a slot that was never used. -/
theorem walk_isSome (hlt : ∀ n, probe n < s.length) {fuel n : Nat} {free : Option Nat} {z : Nat}
    (hn : n ≤ z) (hz : z < n + fuel) (hnull : s[probe z]? = some .null) :
    (walk s hit probe fuel n free).isSome = true := by
  induction fuel generalizing n free with
  | zero => omega
  | succ fuel ih =>
      rw [walk]
      have hgo : n ≠ z → ∀ free, (walk s hit probe fuel (n + 1) free).isSome = true :=
        fun hne free => ih (by omega) (by omega)
      split
      · next hnone => exact absurd (hlt n) (by simpa using hnone)
      · rfl
      · next hrem => exact hgo (by rintro rfl; simp [hrem] at hnull) _
      · next b hitem =>
        split
        · rfl
        · exact hgo (by rintro rfl; simp [hitem] at hnull) _

/-- The probes that a walk has gone over. -/
structure Passed (s : List (Slot β)) (hit : β → Bool) (probe : Nat → Nat) (n : Nat)
    (free : Option Nat) : Prop where
  not_null : ∀ m < n, s[probe m]? ≠ some .null
  not_hit : ∀ m < n, ∀ b, s[probe m]? = some (.item b) → hit b = false
  removed : ∀ i, free = some i → ∃ m < n, probe m = i ∧ s[i]? = some .removed

theorem Passed.succ {n : Nat} {free free' : Option Nat} (h : Passed s hit probe n free)
    (hnull : s[probe n]? ≠ some .null)
    (hhit : ∀ b, s[probe n]? = some (.item b) → hit b = false)
    (hfree : ∀ i, free' = some i → free = some i ∨ probe n = i ∧ s[i]? = some .removed) :
    Passed s hit probe (n + 1) free' where
  not_null := fun m hm => by
    rcases Nat.lt_succ_iff_lt_or_eq.mp hm with hm | rfl
    · exact h.not_null m hm
    · exact hnull
  not_hit := fun m hm => by
    rcases Nat.lt_succ_iff_lt_or_eq.mp hm with hm | rfl
    · exact h.not_hit m hm
    · exact hhit
  removed := fun i hi => by
    rcases hfree i hi with hi | hi
    · obtain ⟨m, hm, hpm⟩ := h.removed i hi
      exact ⟨m, Nat.lt_succ_of_lt hm, hpm⟩
    · exact ⟨n, Nat.lt_succ_self n, hi⟩

theorem spot_of_walk {fuel n i : Nat} {free : Option Nat} (hp : Passed s hit probe n free)
    (h : walk s hit probe fuel n free = some i) : Spot s hit probe i := by
  induction fuel generalizing n free with
  | zero => cases h
  | succ fuel ih =>
      rw [walk] at h
      split at h
      · cases h
      · next hnull =>
        cases h
        have hmiss : Misses s hit probe := ⟨n, hnull, hp.not_hit⟩
        cases free with
        | none => exact ⟨⟨n, rfl, hp.not_null⟩, Or.inr ⟨Or.inl hnull, hmiss⟩⟩
        | some j =>
            obtain ⟨m, hm, rfl, hrem⟩ := hp.removed j rfl
            exact ⟨⟨m, rfl, fun l hl => hp.not_null l (Nat.lt_trans hl hm)⟩,
              Or.inr ⟨Or.inr hrem, hmiss⟩⟩
      · next hrem =>
        refine ih (hp.succ (by simp [hrem]) (by simp [hrem]) fun j hj => ?_) h
        cases free with
        | none =>
            cases hj
            exact Or.inr ⟨rfl, hrem⟩
        | some k => exact Or.inl hj
      · next b hitem =>
        split at h
        · next hb =>
          cases h
          exact ⟨⟨n, rfl, hp.not_null⟩, Or.inl ⟨b, hitem, hb⟩⟩
        · next hb =>
          refine ih (hp.succ (by simp [hitem]) (fun c hc => ?_) fun j hj => Or.inl hj) h
          rw [hitem] at hc
          cases hc
          exact Bool.eq_false_iff.mpr hb

/-- If the probes come to every slot, a search in a table with a slot that was never used ends,
and with a spot. -/
theorem exists_spot {fuel : Nat} (hlt : ∀ n, probe n < s.length)
    (hcov : ∀ i < s.length, ∃ n < fuel, probe n = i) (hnull : Slot.null ∈ s) :
    ∃ i, walk s hit probe fuel 0 none = some i ∧ Spot s hit probe i := by
  obtain ⟨j, hj, hnull⟩ := List.mem_iff_getElem.mp hnull
  obtain ⟨z, hz, rfl⟩ := hcov j hj
  have hsome : (walk s hit probe fuel 0 none).isSome = true :=
    walk_isSome hlt (Nat.zero_le z) (by omega) (List.getElem?_eq_some_iff.mpr ⟨hj, hnull⟩)
  obtain ⟨i, hi⟩ := Option.isSome_iff_exists.mp hsome
  refine ⟨i, hi, spot_of_walk ⟨fun m hm => ?_, fun m hm => ?_, fun j hj => ?_⟩ hi⟩
  · exact absurd hm (Nat.not_lt_zero m)
  · exact absurd hm (Nat.not_lt_zero m)
  · cases hj

end

/-! ## Spread tables -/

/-- Every item is on the way of its key, and no key stands twice. -/
structure Spread (key : β → κ) (probe : κ → Nat → Nat) (s : List (Slot β)) : Prop where
  onWay : ∀ (i : Nat) (b : β), s[i]? = some (.item b) → OnWay s (probe (key b)) i
  inj : ∀ (i j : Nat) (b c : β), s[i]? = some (.item b) → s[j]? = some (.item c) →
    key b = key c → i = j

section
variable {s : List (Slot β)} {key : β → κ} {probe : κ → Nat → Nat} {hit : β → Bool} {k : κ}
  {i : Nat} {b : β}

theorem spread_replicate_null (n : Nat) :
    Spread key probe (List.replicate n (Slot.null : Slot β)) where
  onWay := fun i b h => by simp [List.getElem?_replicate] at h
  inj := fun i j b c h => by simp [List.getElem?_replicate] at h

/-- A slot that was never used on the way of a key shows that the key is not in the table. -/
theorem Spread.key_ne_of_misses (h : Spread key probe s)
    (hhit : ∀ b, Slot.item b ∈ s → key b = k → hit b = true) (hmiss : Misses s hit (probe k))
    (hb : s[i]? = some (.item b)) : key b ≠ k := by
  rintro rfl
  obtain ⟨z, hnull, hbefore⟩ := hmiss
  obtain ⟨n, rfl, hway⟩ := h.onWay i b hb
  -- The item is not behind the unused slot, not at it, and not in front of it.
  rcases Nat.lt_trichotomy n z with hlt | rfl | hgt
  · have := hbefore n hlt b hb
    rw [hhit b (List.mem_of_getElem? hb) rfl] at this
    cases this
  · rw [hb] at hnull
    cases hnull
  · exact hway z hgt hnull

theorem Spot.lt_length {p : Nat → Nat} (hspot : Spot s hit p i) : i < s.length := by
  rcases hspot.content with ⟨a, ha, -⟩ | ⟨hfree | hfree, -⟩
  · exact (List.getElem?_eq_some_iff.mp ha).1
  · exact (List.getElem?_eq_some_iff.mp hfree).1
  · exact (List.getElem?_eq_some_iff.mp hfree).1

/-- Writing an item keeps every way open. -/
theorem OnWay.set_item {p : Nat → Nat} {j : Nat} (hway : OnWay s p j) :
    OnWay (s.set i (.item b)) p j := by
  obtain ⟨n, hn, hbefore⟩ := hway
  refine ⟨n, hn, fun m hm hnull => ?_⟩
  rw [List.getElem?_set] at hnull
  split at hnull
  · split at hnull <;> cases hnull
  · exact hbefore m hm hnull

section
variable (h : Spread key probe s) (hspot : Spot s hit (probe k) i)
  (hhit : ∀ b, Slot.item b ∈ s → (hit b = true ↔ key b = k))
include h hspot hhit

/-- The spot is the only place where the key can stand. -/
theorem Spread.key_eq_iff {j : Nat} {c : β} (hc : s[j]? = some (.item c)) :
    key c = k ↔ j = i := by
  rcases hspot.content with ⟨a, ha, hita⟩ | ⟨hfree, hmiss⟩
  · have hka : key a = k := (hhit a (List.mem_of_getElem? ha)).mp hita
    constructor
    · exact fun hk => h.inj j i c a hc ha (hk.trans hka.symm)
    · rintro rfl
      rw [ha] at hc
      cases hc
      exact hka
  · have hne := h.key_ne_of_misses (fun b hb => (hhit b hb).mpr) hmiss hc
    refine ⟨fun hk => absurd hk hne, ?_⟩
    rintro rfl
    rcases hfree with hfree | hfree <;> simp [hfree] at hc

/-- An item may be written at the spot of its key. -/
theorem Spread.set (hk : key b = k) : Spread key probe (s.set i (.item b)) where
  onWay := fun j c hc => by
    rcases eq_or_ne i j with rfl | hij
    · rw [List.getElem?_set_self hspot.lt_length] at hc
      cases hc
      exact (hk ▸ hspot.onWay).set_item
    · rw [List.getElem?_set_ne hij] at hc
      exact (h.onWay j c hc).set_item
  inj := fun j l c d hc hd hcd => by
    rcases eq_or_ne i j with rfl | hij <;> rcases eq_or_ne i l with rfl | hil
    · rfl
    · rw [List.getElem?_set_self hspot.lt_length] at hc
      rw [List.getElem?_set_ne hil] at hd
      cases hc
      exact ((h.key_eq_iff hspot hhit hd).mp (hcd.symm.trans hk)).symm
    · rw [List.getElem?_set_self hspot.lt_length] at hd
      rw [List.getElem?_set_ne hij] at hc
      cases hd
      exact (h.key_eq_iff hspot hhit hc).mp (hcd.trans hk)
    · rw [List.getElem?_set_ne hij] at hc
      rw [List.getElem?_set_ne hil] at hd
      exact h.inj j l c d hc hd hcd

/-- What the table holds then: the item, and the items of the other keys. -/
theorem Spread.item_mem_set {c : β} :
    Slot.item c ∈ s.set i (.item b) ↔ c = b ∨ Slot.item c ∈ s ∧ key c ≠ k := by
  constructor
  · intro hc
    obtain ⟨j, hc⟩ := List.mem_iff_getElem?.mp hc
    rcases eq_or_ne i j with rfl | hij
    · rw [List.getElem?_set_self hspot.lt_length] at hc
      cases hc
      exact Or.inl rfl
    · rw [List.getElem?_set_ne hij] at hc
      refine Or.inr ⟨List.mem_of_getElem? hc, fun hk => hij ?_⟩
      exact ((h.key_eq_iff hspot hhit hc).mp hk).symm
  · rintro (rfl | ⟨hc, hk⟩)
    · exact List.mem_of_getElem? (List.getElem?_set_self hspot.lt_length)
    · obtain ⟨j, hc⟩ := List.mem_iff_getElem?.mp hc
      have hij : i ≠ j := fun hij => hk ((h.key_eq_iff hspot hhit hc).mpr hij.symm)
      exact List.mem_of_getElem? ((List.getElem?_set_ne hij).trans hc)

end

end

end Probing
