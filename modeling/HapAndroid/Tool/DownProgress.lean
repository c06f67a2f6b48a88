import HapAndroid.Tool.DownThread

/-!
# The percentages of a download

The percentage after `n` bytes is `n * 100 / fileLen` in 32-bit arithmetic.  The product
wraps at 21474837 bytes, so the percentages of a longer body turn negative, unless the
length is so large that the quotient stays zero.  `percentOk_iff` has the largest body for
which every way to cut it into chunks gives percentages that make sense, for every length
a server can name.

The quotient `shown` is taken apart by the size of the length.  Up to 2147483600 the first
wrong value is found before the product wraps, or where it does.  Above that only the
products within 47 of `2 ^ 31` have a quotient other than zero; the products are multiples
of 4, and 42949673 is the inverse of 25 modulo `2 ^ 30`, which gives the first of them.
-/

namespace HapAndroid.DownThread

/-! ## The property -/

/-- However a body of at most `body` bytes is cut into chunks of the size of the buffer,
nothing is divided by zero, and the percentages lie between 0 and 100 and never
decrease. -/
def PercentOk (fileLen : Int32) (body : Nat) : Prop :=
  ∀ breaks room (chunks : List (List UInt8)),
    (∀ c ∈ chunks, 1 ≤ c.length ∧ c.length ≤ 4096) → (chunks.map List.length).sum ≤ body →
    (receive fileLen breaks room 0 chunks).exception ≠ some .divideByZero ∧
      (∀ p ∈ (receive fileLen breaks room 0 chunks).published, 0 ≤ p.toInt ∧ p.toInt ≤ 100) ∧
      ((receive fileLen breaks room 0 chunks).published.map Int32.toInt).Pairwise (· ≤ ·)

/-- The largest body that shows percentages for a length. -/
def largestBody (fileLen : Int32) : Nat :=
  let n := fileLen.toInt.natAbs
  let j := (2147483648 - n) / 4
  if fileLen = 0 then 0
  else if n ≤ 2147483600 then
    if 0 < fileLen.toInt then min 21474836 ((101 * n - 1) / 100) else (n - 1) / 100
  else if 0 < fileLen.toInt then
    if j = 0 then 536870911 else 536870912 - 42949673 * j
  else if j = 0 then 536870912 else 536870911 - 42949673 * j

/-! ## The percentage after a number of bytes -/

/-- The product `now_len*100` after `n` bytes. -/
def product (n : Nat) : Int := (n * 100 : Int).bmod (2 ^ 32)

/-- The percentage after `n` bytes, for the length `l`. -/
def shown (l : Int) (n : Nat) : Int := ((product n).tdiv l).bmod (2 ^ 32)

theorem toInt_product (n : Nat) : (Int32.ofNat n * 100).toInt = product n := by
  have hhundred : (100 : Int32).toInt = 100 := by decide
  show _ = (n * 100 : Int).bmod (2 ^ 32)
  rw [Int32.toInt_mul, Int32.toInt_ofNat', hhundred]
  exact Int.bmod_mul_bmod

theorem toInt_percent {fileLen : Int32} (hlen : fileLen ≠ 0) (n : Nat) :
    ∃ p, percent (Int32.ofNat n) fileLen = some p ∧ p.toInt = shown fileLen.toInt n := by
  refine ⟨_, if_neg hlen, ?_⟩
  rw [Int32.toInt_div, toInt_product, shown]

/-- Wrapping takes off a multiple of `2 ^ 32` that leaves a number in range. -/
theorem bmod_spec (x : Int) :
    ∃ k : Int, x.bmod (2 ^ 32) = x - 4294967296 * k ∧ -2147483648 ≤ x.bmod (2 ^ 32) ∧
      x.bmod (2 ^ 32) < 2147483648 := by
  have h := Int.bmod_def x (2 ^ 32)
  rw [show ((2 ^ 32 : Nat) : Int) = 4294967296 from rfl] at h
  by_cases hlow : x % 4294967296 < (4294967296 + 1) / 2
  · rw [if_pos hlow] at h
    exact ⟨x / 4294967296, by omega, by omega, by omega⟩
  · rw [if_neg hlow] at h
    exact ⟨x / 4294967296 + 1, by omega, by omega, by omega⟩

theorem product_spec (n : Nat) :
    ∃ k : Int, product n = n * 100 - 4294967296 * k ∧ -2147483648 ≤ product n ∧
      product n < 2147483648 :=
  bmod_spec _

theorem product_eq {n : Nat} {v : Int} (k : Int) (hv : (n * 100 : Int) = v + 4294967296 * k)
    (hmin : -2147483648 ≤ v) (hmax : v < 2147483648) : product n = v := by
  obtain ⟨k', hk, hlo, hhi⟩ := product_spec n
  omega

theorem product_small {n : Nat} (hn : n ≤ 21474836) : product n = n * 100 :=
  product_eq 0 (by omega) (by omega) (by omega)

theorem shown_of_lt {l : Int} {n : Nat} (h : (product n).natAbs < l.natAbs) : shown l n = 0 := by
  have hzero : (product n).tdiv l = 0 := by
    rw [← Int.natAbs_eq_zero, Int.natAbs_tdiv]
    exact Nat.div_eq_of_lt h
  rw [shown, hzero, Int.zero_bmod]

theorem shown_eq_tdiv {l : Int} {n : Nat} (hlo : -2147483648 ≤ (product n).tdiv l)
    (hhi : (product n).tdiv l < 2147483648) : shown l n = (product n).tdiv l := by
  obtain ⟨k, hk, h1, h2⟩ := bmod_spec ((product n).tdiv l)
  rw [shown]
  omega

/-! ## The loop -/

/-- The percentages up to `body` bytes lie in range and do not decrease. -/
structure Steady (l : Int) (body : Nat) : Prop where
  range : ∀ n, 1 ≤ n → n ≤ body → 0 ≤ shown l n ∧ shown l n ≤ 100
  mono : ∀ m n, 1 ≤ m → m ≤ n → n ≤ body → shown l m ≤ shown l n

section loop
variable {fileLen : Int32}

/-- What the loop publishes after `n` bytes are the percentages of later numbers. -/
theorem published_receive (hlen : fileLen ≠ 0) (breaks : Bool) (room : Option Nat) (n : Nat)
    {chunks : List (List UInt8)} (hpos : ∀ c ∈ chunks, 1 ≤ c.length) {p : Int32}
    (hp : p ∈ (receive fileLen breaks room (Int32.ofNat n) chunks).published) :
    ∃ m, n < m ∧ m ≤ n + (chunks.map List.length).sum ∧ p.toInt = shown fileLen.toInt m := by
  induction chunks generalizing n room with
  | nil => exact absurd hp List.not_mem_nil
  | cons chunk chunks ih =>
      obtain ⟨q, hq, hshown⟩ := toInt_percent hlen (n + chunk.length)
      have hchunk := hpos chunk List.mem_cons_self
      rw [receive] at hp
      split at hp
      · exact absurd hp List.not_mem_nil
      · simp only [← Int32.ofNat_add, hq, List.mem_cons] at hp
        rw [List.map_cons, List.sum_cons]
        rcases hp with rfl | hp
        · exact ⟨n + chunk.length, by omega, by omega, hshown⟩
        · obtain ⟨m, hm, hle, hval⟩ :=
            ih _ _ (fun c hc => hpos c (List.mem_cons_of_mem chunk hc)) hp
          exact ⟨m, by omega, by omega, hval⟩

theorem exception_receive (hlen : fileLen ≠ 0) (breaks : Bool) (room : Option Nat) (nowLen : Int32)
    (chunks : List (List UInt8)) :
    (receive fileLen breaks room nowLen chunks).exception ≠ some .divideByZero := by
  induction chunks generalizing nowLen room with
  | nil => cases breaks <;> simp [receive]
  | cons chunk chunks ih =>
      rw [receive]
      split
      · simp
      · simp only [percent, if_neg hlen]
        exact ih _ _

theorem pairwise_receive (hlen : fileLen ≠ 0) (breaks : Bool) (room : Option Nat) (n : Nat)
    {body : Nat} (hsteady : Steady fileLen.toInt body) {chunks : List (List UInt8)}
    (hpos : ∀ c ∈ chunks, 1 ≤ c.length) (hsum : n + (chunks.map List.length).sum ≤ body) :
    ((receive fileLen breaks room (Int32.ofNat n) chunks).published.map Int32.toInt).Pairwise
      (· ≤ ·) := by
  induction chunks generalizing n room with
  | nil => exact List.Pairwise.nil
  | cons chunk chunks ih =>
      obtain ⟨q, hq, hshown⟩ := toInt_percent hlen (n + chunk.length)
      have hchunk := hpos chunk List.mem_cons_self
      have htail : ∀ c ∈ chunks, 1 ≤ c.length := fun c hc =>
        hpos c (List.mem_cons_of_mem chunk hc)
      rw [List.map_cons, List.sum_cons] at hsum
      rw [receive]
      split
      · exact List.Pairwise.nil
      · simp only [← Int32.ofNat_add, hq, List.map_cons, List.pairwise_cons]
        refine ⟨?_, ih _ _ htail (by omega)⟩
        intro v hv
        obtain ⟨p, hp, rfl⟩ := List.mem_map.mp hv
        obtain ⟨m, hm, hle, hval⟩ := published_receive hlen breaks _ _ htail hp
        rw [hshown, hval]
        exact hsteady.mono _ _ (by omega) (by omega) (by omega)

/-- Chunks of one byte show every percentage. -/
theorem published_single (hlen : fileLen ≠ 0) (n k : Nat) :
    (receive fileLen false none (Int32.ofNat n) (List.replicate k [0])).published.map Int32.toInt =
      (List.range' (n + 1) k).map (shown fileLen.toInt) := by
  induction k generalizing n with
  | zero => rfl
  | succ k ih =>
      obtain ⟨q, hq, hshown⟩ := toInt_percent hlen (n + 1)
      rw [List.replicate_succ, receive]
      simp only [Option.any_none, Bool.false_eq_true, if_false, List.length_singleton,
        ← Int32.ofNat_add, hq, Option.map_none, List.map_cons, ih, hshown, List.range'_succ]

/-- The property, said of the percentages. -/
theorem percentOk_iff_steady (hlen : fileLen ≠ 0) (body : Nat) :
    PercentOk fileLen body ↔ Steady fileLen.toInt body := by
  constructor
  · intro h
    obtain ⟨-, hrange, hmono⟩ := h false none (List.replicate body [0])
      (fun c hc => by simp [List.eq_of_mem_replicate hc]) (by simp)
    have hall := published_single hlen 0 body
    have hmem (n : Nat) (hn : 1 ≤ n) (hle : n ≤ body) :
        shown fileLen.toInt n ∈ (List.range' (0 + 1) body).map (shown fileLen.toInt) :=
      List.mem_map_of_mem (List.mem_range'_1.mpr (by omega))
    refine ⟨fun n hn hle => ?_, fun m n hm hmn hle => ?_⟩
    · obtain ⟨p, hp, hval⟩ := List.mem_map.mp (hall ▸ hmem n hn hle)
      exact hval ▸ hrange p hp
    · rw [show (0 : Int32) = Int32.ofNat 0 from rfl, hall, List.pairwise_map] at hmono
      rcases Nat.eq_or_lt_of_le hmn with rfl | hlt
      · exact Int.le_refl _
      · have hlength : (List.range' (0 + 1) body).length = body := List.length_range'
        have h := List.pairwise_iff_getElem.mp hmono (m - 1) (n - 1) (by omega) (by omega)
          (by omega)
        rw [List.getElem_range', List.getElem_range'] at h
        rwa [show 0 + 1 + 1 * (m - 1) = m by omega, show 0 + 1 + 1 * (n - 1) = n by omega] at h
  · intro hsteady breaks room chunks hchunks hsum
    have hpos : ∀ c ∈ chunks, 1 ≤ c.length := fun c hc => (hchunks c hc).1
    refine ⟨exception_receive hlen breaks room 0 chunks, fun p hp => ?_, ?_⟩
    · obtain ⟨m, hm, hle, hval⟩ := published_receive hlen breaks room 0 hpos hp
      rw [hval]
      exact hsteady.range m (by omega) (by omega)
    · exact pairwise_receive hlen breaks room 0 hsteady hpos (by omega)

end loop

/-! ## Lengths up to 2147483600 -/

section small
variable {l : Int} {body : Nat}

theorem shown_pos {n : Nat} (hl : 0 < l) (hn : n ≤ 21474836) : shown l n = n * 100 / l := by
  have hprod := product_small hn
  have hdiv : (product n).tdiv l = n * 100 / l := by
    rw [hprod, Int.tdiv_eq_ediv_of_nonneg (by omega)]
  have hlo : 0 ≤ (n * 100 : Int) / l := Int.ediv_nonneg (by omega) (by omega)
  have hhi : (n * 100 : Int) / l ≤ n * 100 := Int.ediv_le_self _ (by omega)
  rw [shown_eq_tdiv (by omega) (by omega), hdiv]

theorem shown_neg {n : Nat} (hl : l < 0) (hn : n ≤ 21474836) : shown l n = -(n * 100 / -l) := by
  have hprod := product_small hn
  have hdiv : (product n).tdiv l = -(n * 100 / -l) := by
    rw [hprod, ← Int.neg_neg l, Int.tdiv_neg, Int.tdiv_eq_ediv_of_nonneg (by omega), Int.neg_neg]
  have hlo : 0 ≤ (n * 100 : Int) / -l := Int.ediv_nonneg (by omega) (by omega)
  have hhi : (n * 100 : Int) / -l ≤ n * 100 := Int.ediv_le_self _ (by omega)
  rw [shown_eq_tdiv (by omega) (by omega), hdiv]

/-- One byte later the product has wrapped. -/
theorem shown_wrapped (hl : 0 < l) : shown l 21474837 ≤ 0 := by
  have hprod : product 21474837 = -2147483596 := product_eq 1 rfl (by omega) (by omega)
  have hdiv : (product 21474837).tdiv l = -(2147483596 / l) := by
    rw [hprod, Int.neg_tdiv, Int.tdiv_eq_ediv_of_nonneg (by omega)]
  have hnonneg : 0 ≤ 2147483596 / l := Int.ediv_nonneg (by omega) (by omega)
  have hle : 2147483596 / l ≤ 2147483596 := Int.ediv_le_self _ (by omega)
  rw [shown_eq_tdiv (by omega) (by omega), hdiv]
  omega

theorem steady_pos_iff (hl : 0 < l) (hmax : l ≤ 2147483600) :
    Steady l body ↔ body ≤ min 21474836 ((101 * l.natAbs - 1) / 100) := by
  constructor
  · intro h
    by_contra hbody
    by_cases hfirst : (101 * l.natAbs - 1) / 100 + 1 ≤ 21474836
    · -- Before the product wraps the quotient reaches 101.
      have hquot : 101 ≤ (((101 * l.natAbs - 1) / 100 + 1 : Nat) * 100 : Int) / l :=
        Int.le_ediv_of_mul_le hl (by omega)
      have hrange := (h.range ((101 * l.natAbs - 1) / 100 + 1) (by omega) (by omega)).2
      rw [shown_pos hl hfirst] at hrange
      omega
    · -- The quotient is positive where the product is largest, and not after it wraps.
      have hquot : 1 ≤ ((21474836 : Nat) * 100 : Int) / l :=
        Int.le_ediv_of_mul_le hl (by omega)
      have hmono := h.mono 21474836 21474837 (by omega) (by omega) (by omega)
      rw [shown_pos hl (by omega)] at hmono
      have hwrapped := shown_wrapped hl
      omega
  · intro hbody
    have hsmall (n : Nat) (hn : n ≤ body) : n ≤ 21474836 := by omega
    refine ⟨fun n hn hle => ?_, fun m n hm hmn hle => ?_⟩
    · rw [shown_pos hl (hsmall n hle)]
      refine ⟨Int.ediv_nonneg (by omega) (by omega), ?_⟩
      exact Int.lt_add_one_iff.mp (Int.ediv_lt_of_lt_mul hl (by omega))
    · rw [shown_pos hl (hsmall m (by omega)), shown_pos hl (hsmall n hle)]
      exact Int.ediv_le_ediv hl (by omega)

theorem steady_neg_iff (hl : l < 0) (hmax : -2147483600 ≤ l) :
    Steady l body ↔ body ≤ (l.natAbs - 1) / 100 := by
  constructor
  · intro h
    by_contra hbody
    -- The first number of bytes whose product reaches the length has a negative quotient.
    have hfirst : (l.natAbs - 1) / 100 + 1 ≤ 21474836 := by omega
    have hquot : 1 ≤ (((l.natAbs - 1) / 100 + 1 : Nat) * 100 : Int) / -l :=
      Int.le_ediv_of_mul_le (by omega) (by omega)
    have hrange := (h.range ((l.natAbs - 1) / 100 + 1) (by omega) (by omega)).1
    rw [shown_neg hl hfirst] at hrange
    omega
  · intro hbody
    have hzero (n : Nat) (hn : n ≤ body) : shown l n = 0 :=
      shown_of_lt (by rw [product_small (by omega)]; omega)
    refine ⟨fun n hn hle => by rw [hzero n hle]; decide, fun m n hm hmn hle => ?_⟩
    have hm0 := hzero m (by omega)
    have hn0 := hzero n hle
    omega

end small

/-! ## Longer lengths -/

section large
variable {l : Int} {body : Nat}

/-- The first number of bytes whose product is within `4 * j + 3` of `2 ^ 31`. -/
def firstNear (j : Nat) : Nat := 536870912 - 42949673 * j

theorem product_firstNear {j : Nat} (hpos : j ≠ 0) (hj : j ≤ 11) :
    product (firstNear j) = 2147483648 - 4 * j :=
  product_eq (12 - j) (by rw [firstNear]; omega) (by omega) (by omega)

theorem product_firstNear_zero : product (firstNear 0) = -2147483648 :=
  product_eq 13 rfl (by omega) (by omega)

theorem product_firstNear_succ {j : Nat} (hj : j ≤ 11) :
    product (firstNear j + 1) = -2147483548 - 4 * j :=
  product_eq (13 - j) (by rw [firstNear]; omega) (by omega) (by omega)

/-- No product is that near before. -/
theorem product_before {j n : Nat} (hj : j ≤ 11) (hn : n < firstNear j) :
    (product n).natAbs + 4 * j + 4 ≤ 2147483648 := by
  obtain ⟨k, hk, hlo, hhi⟩ := product_spec n
  by_contra hnear
  -- A near product is `4 * (2 ^ 29 + e)` up to a multiple of `2 ^ 32`, with a small `e`.
  obtain ⟨q, e, hq, hemin, hemax⟩ :
      ∃ q e : Int, 25 * (n : Int) = 1073741824 * q + 536870912 + e ∧ -j ≤ e ∧ e ≤ j := by
    rcases Int.lt_or_le (product n) 0 with hneg | hnonneg
    · exact ⟨k - 1, 25 * n - 1073741824 * (k - 1) - 536870912, by omega, by omega, by omega⟩
    · exact ⟨k, 25 * n - 1073741824 * k - 536870912, by omega, by omega, by omega⟩
  -- Multiplying by the inverse of 25 brings `n` out.
  obtain ⟨t, ht⟩ : ∃ t : Int, (n : Int) = 536870912 + 42949673 * e + 1073741824 * t :=
    ⟨42949673 * q - n + 21474836, by omega⟩
  rw [firstNear] at hn
  omega

theorem tdiv_one {a b : Int} (hb : 0 < b) (hlo : b ≤ a) (hhi : a < 2 * b) : a.tdiv b = 1 := by
  rw [Int.tdiv_eq_ediv_of_nonneg (by omega)]
  have h1 : 1 ≤ a / b := Int.le_ediv_of_mul_le hb (by omega)
  have h2 : a / b < 2 := Int.ediv_lt_of_lt_mul hb hhi
  omega

/-- A quotient of one in absolute value, with the sign of a quotient. -/
theorem shown_near {n : Nat} (hlo : l.natAbs ≤ (product n).natAbs)
    (hhi : (product n).natAbs < 2 * l.natAbs) :
    shown l n = if 0 < product n ↔ 0 < l then 1 else -1 := by
  have hl : l ≠ 0 := by omega
  have hdiv : (product n).tdiv l = if 0 < product n ↔ 0 < l then 1 else -1 := by
    rcases Int.lt_or_gt_of_ne hl with hneg | hpos <;>
      rcases Int.lt_or_le (product n) 0 with hp | hp
    · rw [if_pos (by omega), ← Int.neg_neg (product n), ← Int.neg_neg l, Int.neg_tdiv,
        Int.tdiv_neg, Int.neg_neg, tdiv_one (by omega) (by omega) (by omega)]
    · rw [if_neg (by omega), ← Int.neg_neg l, Int.tdiv_neg,
        tdiv_one (by omega) (by omega) (by omega)]
    · rw [if_neg (by omega), ← Int.neg_neg (product n), Int.neg_tdiv,
        tdiv_one (by omega) (by omega) (by omega)]
    · rw [if_pos (by omega), tdiv_one hpos (by omega) (by omega)]
  have hrange : -2147483648 ≤ (product n).tdiv l ∧ (product n).tdiv l < 2147483648 := by
    rw [hdiv]
    split <;> decide
  rw [shown_eq_tdiv hrange.1 hrange.2, hdiv]

/-- Zeros up to a negative value. -/
theorem steady_iff_lt {f : Nat} (hf : 1 ≤ f) (hbefore : ∀ n < f, shown l n = 0)
    (hat : shown l f = -1) : Steady l body ↔ body < f := by
  constructor
  · intro h
    by_contra hbody
    have hrange := (h.range f hf (by omega)).1
    omega
  · intro hbody
    refine ⟨fun n hn hle => by rw [hbefore n (by omega)]; decide, fun m n hm hmn hle => ?_⟩
    have hm0 := hbefore m (by omega)
    have hn0 := hbefore n (by omega)
    omega

/-- Zeros up to a one, with another zero behind it. -/
theorem steady_iff_le {f : Nat} (hf : 1 ≤ f) (hbefore : ∀ n < f, shown l n = 0)
    (hat : shown l f = 1) (hafter : shown l (f + 1) = 0) : Steady l body ↔ body ≤ f := by
  constructor
  · intro h
    by_contra hbody
    have hmono := h.mono f (f + 1) hf (by omega) (by omega)
    omega
  · intro hbody
    have hvalue (n : Nat) (hn : n ≤ body) : shown l n = if n = f then 1 else 0 := by
      split
      · next heq => rw [heq, hat]
      · exact hbefore n (by omega)
    refine ⟨fun n hn hle => ?_, fun m n hm hmn hle => ?_⟩
    · rw [hvalue n hle]
      split <;> decide
    · rw [hvalue m (by omega), hvalue n hle]
      split <;> split <;> omega

theorem steady_large_iff (hbig : 2147483600 < l.natAbs) (hmin : -2147483648 ≤ l)
    (hmax : l < 2147483648) :
    Steady l body ↔ body ≤
      if 0 < l then
        if (2147483648 - l.natAbs) / 4 = 0 then 536870911
        else 536870912 - 42949673 * ((2147483648 - l.natAbs) / 4)
      else if (2147483648 - l.natAbs) / 4 = 0 then 536870912
      else 536870911 - 42949673 * ((2147483648 - l.natAbs) / 4) := by
  generalize hj : (2147483648 - l.natAbs) / 4 = j
  have hj11 : j ≤ 11 := by omega
  have hf : 1 ≤ firstNear j := by rw [firstNear]; omega
  have hbefore : ∀ n < firstNear j, shown l n = 0 := by
    intro n hn
    have hfar := product_before hj11 hn
    exact shown_of_lt (by omega)
  have hafter : shown l (firstNear j + 1) = 0 := by
    have hprod := product_firstNear_succ hj11
    exact shown_of_lt (by omega)
  by_cases hzero : j = 0
  · subst hzero
    have hprod := product_firstNear_zero
    have hat := shown_near (l := l) (n := firstNear 0) (by omega) (by omega)
    rw [if_pos rfl, if_pos rfl]
    split
    · next hl =>
      rw [if_neg (by omega)] at hat
      rw [steady_iff_lt hf hbefore hat]
      exact Nat.lt_succ_iff
    · next hl =>
      rw [if_pos (by omega)] at hat
      exact steady_iff_le hf hbefore hat hafter
  · have hprod := product_firstNear hzero hj11
    have hat := shown_near (l := l) (n := firstNear j) (by omega) (by omega)
    rw [if_neg hzero, if_neg hzero]
    split
    · next hl =>
      rw [if_pos (by omega)] at hat
      exact steady_iff_le hf hbefore hat hafter
    · next hl =>
      rw [if_neg (by omega)] at hat
      rw [steady_iff_lt hf hbefore hat, firstNear]
      omega

end large

/-! ## Every length -/

/-- Without a length the first chunk divides by zero. -/
theorem percentOk_zero (body : Nat) : PercentOk 0 body ↔ body ≤ 0 := by
  constructor
  · intro h
    by_contra hbody
    obtain ⟨hne, -⟩ := h false none [[0]] (by simp) (by simp; omega)
    exact hne rfl
  · intro hbody breaks room chunks hchunks hsum
    cases chunks with
    | nil => cases breaks <;> exact ⟨nofun, nofun, List.Pairwise.nil⟩
    | cons chunk chunks =>
        have hone := (hchunks chunk List.mem_cons_self).1
        rw [List.map_cons, List.sum_cons] at hsum
        omega

theorem steady_iff {fileLen : Int32} (hzero : fileLen ≠ 0) (body : Nat) :
    Steady fileLen.toInt body ↔ body ≤ largestBody fileLen := by
  have hne : fileLen.toInt ≠ 0 := fun h => hzero (Int32.toInt_inj.mp h)
  have hmin : -2147483648 ≤ fileLen.toInt := fileLen.le_toInt
  have hmax : fileLen.toInt < 2147483648 := fileLen.toInt_lt
  rw [largestBody, if_neg hzero]
  by_cases hsmall : fileLen.toInt.natAbs ≤ 2147483600
  · rw [if_pos hsmall]
    by_cases hpos : 0 < fileLen.toInt
    · rw [if_pos hpos]
      exact steady_pos_iff hpos (by omega)
    · rw [if_neg hpos]
      exact steady_neg_iff (by omega) (by omega)
  · rw [if_neg hsmall]
    exact steady_large_iff (by omega) hmin hmax

/-- The bodies whose percentages make sense. -/
theorem percentOk_iff (fileLen : Int32) (body : Nat) :
    PercentOk fileLen body ↔ body ≤ largestBody fileLen := by
  by_cases hzero : fileLen = 0
  · subst hzero
    exact percentOk_zero body
  · rw [percentOk_iff_steady hzero, steady_iff hzero]

/-- A body of the length that was named is shown rightly up to 21474836 bytes. -/
theorem percentOk_named_length {fileLen : Int32} (hpos : 0 < fileLen.toInt) :
    PercentOk fileLen fileLen.toInt.natAbs ↔ fileLen.toInt.natAbs ≤ 21474836 := by
  have hzero : fileLen ≠ 0 := by
    rintro rfl
    exact absurd hpos (by decide)
  have hmax : fileLen.toInt < 2147483648 := fileLen.toInt_lt
  rw [percentOk_iff_steady hzero, steady_iff hzero, largestBody, if_neg hzero, if_pos hpos,
    if_pos hpos]
  split
  · omega
  · split <;> omega

/-- A server that names no length, and sends a hundred bytes in two chunks; and one that names the
length of a body that is too large. -/
theorem unknown_length_negative :
    (receive (-1) false none 0 [[0], List.replicate 99 0]).published = [-100, -10000] ∧
      ¬PercentOk (-1) 100 ∧ ¬PercentOk 21474837 21474837 := by
  have hvalues : (receive (-1) false none 0 [[0], List.replicate 99 0]).published =
      [-100, -10000] := by decide +kernel
  refine ⟨hvalues, fun h => ?_, fun h => ?_⟩
  · have hrange := (h false none [[0], List.replicate 99 0] (by decide +kernel)
      (by decide +kernel)).2.1 (-100) (by rw [hvalues]; decide)
    exact absurd hrange.1 (by decide)
  · have hpos : 0 < (21474837 : Int32).toInt := by decide
    exact absurd ((percentOk_named_length hpos).mp h) (by decide)

end HapAndroid.DownThread
