import HapAndroid.Lib.Machine
import HapAndroid.Highlight.Tokens

/-!
# The runs of `scan_syntax` and its tokens

A turn of the loop goes to what is seen at its place (`leads_of_sees`), and with a token back to the
head of the loop (`leads_of_readsToken`).  In the other direction a scan that comes to its end has
read tokens, by induction on the number of steps: behind a token the way to the end is shorter.

`reaches_iff_scans`: the machine comes to an end exactly when the text can be read as tokens,
and it has recorded them then.
-/

namespace HapAndroid.Highlight

open Machine

namespace Scan

/-- The place of a state. -/
@[simps] def place (s : Scan) : Place := ⟨s.pos, s.cur, s.mem⟩

/-- The states of a scan at the head of the loop, or at its end. -/
structure Stands (s : Scan) (pc : ScanPc) (p : Place) (out : List Item) : Prop where
  pc : s.pc = pc
  place : s.place = p
  out : s.out = out

variable {e : ScanEnv} {s : Scan}

/-! ## One turn of the loop -/

/-- The state behind the loop over the items, with what they have found. -/
def AfterItems (e : ScanEnv) (s : Scan) (t : Scan) : Found → Bytes → Prop
  | .item pat n, m => t = ((s.store m).record pat.fromId n).goto .top
  | .start pat n, m => ∃ idx, e.buf.patterns[idx]? = some pat ∧
      t = ((s.store m).markStart.bytes n).goto (.region idx pat.end2.isSome)
  | .nothing, m =>
      t = if SkipsWord e s.place then ((s.store m).bytes (e.text.run isKeyword s.pos)).goto .top
        else (s.store m).goto .advance

/-- The state that a turn of the loop comes to, with what it has seen. -/
def AfterSight (e : ScanEnv) (s : Scan) (t : Scan) : Option Sight → Prop
  | none => t.pc = .fault
  | some .textEnd => t = s.goto .stop
  | some .blank => t = s.bytes 1
  | some (.keyword n g) => t = if g ≠ 0 then s.record g n else s.markStart
  | some (.found f m) => AfterItems e s.markStart t f m

/-- The loop over the items takes the first that applies. -/
theorem leads_items {pats : List SynPat} {idx : Nat} (hpats : e.buf.patterns.drop idx = pats)
    (hne : e.buf.patterns ≠ []) (hpc : s.pc = .item idx) (h0 : e.text.byte s.pos ≠ 0) :
    ∃ t, Leads (step e) s t ∧
      (search e s.pos s.mem pats).elim (t.pc = .fault) fun r => AfterItems e s t r.1 r.2 := by
  induction pats generalizing idx s with
  | nil =>
      have hnone : e.buf.patterns[idx]? = none :=
        List.getElem?_eq_none (List.drop_eq_nil_iff.mp hpats)
      refine ⟨stepWord e s, .of_step (by simp [step, hpc, stepItem, hnone]), ?_⟩
      rw [search, Option.elim_some, AfterItems, stepWord]
      simp only [SkipsWord, hne, ne_eq, not_false_eq_true, true_and]
      rfl
  | cons pat pats ih =>
      have hpat : e.buf.patterns[idx]? = some pat := by
        rw [← List.head?_drop, hpats, List.head?_cons]
      have hrest : e.buf.patterns.drop (idx + 1) = pats := by
        rw [← List.tail_drop, hpats, List.tail_cons]
      -- The next item is tried with the word that is stored by then.
      have hnext : ∀ m, step e s = (s.store m).goto (.item (idx + 1)) → ∃ t, Leads (step e) s t ∧
          (search e s.pos m pats).elim (t.pc = .fault) fun r => AfterItems e s t r.1 r.2 := by
        intro m hstep
        obtain ⟨t, ht, hafter⟩ := ih (s := (s.store m).goto (.item (idx + 1))) hrest rfl h0
        refine ⟨t, .head hstep ht.reaches, ?_⟩
        simp only [goto_pos, store_pos, goto_mem, store_mem] at hafter
        rcases hsearch : search e s.pos m pats with _ | ⟨_ | _ | _, m'⟩
        all_goals
          rw [hsearch] at hafter
          exact hafter
      rw [search]
      split
      · next hskip =>
        exact hnext s.mem (by simp [step, hpc, stepItem, hpat, h0, hskip, goto, store])
      · next hskip =>
        split
        · next hm =>
          exact ⟨s.goto .fault, .of_step (by simp [step, hpc, stepItem, hpat, h0, hskip, hm]), rfl⟩
        · next n m hm =>
          exact ⟨_, .of_step (by simp [step, hpc, stepItem, hpat, h0, hskip, hm]), rfl⟩
        · next m hm =>
          split
          · next hs =>
            exact ⟨s.goto .fault, .of_step (by simp [step, hpc, stepItem, hpat, h0, hskip, hm, hs]),
              rfl⟩
          · next n m' hs =>
            exact ⟨_, .of_step (by simp [step, hpc, stepItem, hpat, h0, hskip, hm, hs]), idx, hpat,
              rfl⟩
          · next m' hs =>
            exact hnext m' (by simp [step, hpc, stepItem, hpat, h0, hskip, hm, hs])

/-- A turn of the loop goes where the sight says. -/
theorem leads_of_sees (hpc : s.pc = .top) :
    ∃ t, Leads (step e) s t ∧ AfterSight e s t (e.sees s.place) := by
  have hstep : step e s = stepTop e s := by simp [step, hpc]
  rw [stepTop] at hstep
  rw [ScanEnv.sees]
  simp only [place_pos, place_mem]
  by_cases h0 : e.text.byte s.pos = 0
  · rw [if_pos h0] at hstep ⊢
    exact ⟨_, .of_step hstep, rfl⟩
  rw [if_neg h0] at hstep ⊢
  by_cases hblank : isBlank (e.text.byte s.pos) = true
  · rw [if_pos hblank] at hstep ⊢
    exact ⟨_, .of_step hstep, rfl⟩
  rw [if_neg hblank] at hstep ⊢
  cases hkey : e.keywordAt s.pos with
  | some kw =>
      rw [hkey] at hstep
      exact ⟨_, .of_step hstep, rfl⟩
  | none =>
      rw [hkey] at hstep
      dsimp only at hstep ⊢
      by_cases hne : e.buf.patterns = []
      · rw [if_pos hne] at hstep
        refine ⟨_, .of_step hstep, ?_⟩
        rw [hne, search, Option.map_some, AfterSight, AfterItems, if_neg fun h => h.1 hne]
        rfl
      · rw [if_neg hne] at hstep
        obtain ⟨t, ht, hafter⟩ := leads_items (s := s.markStart.goto (.item 0))
          (List.drop_zero ..) hne rfl h0
        refine ⟨t, .head hstep ht.reaches, ?_⟩
        simp only [goto_pos, markStart_pos, goto_mem, markStart_mem] at hafter
        rcases hsearch : search e s.pos s.mem e.buf.patterns with _ | ⟨_ | _ | _, m⟩
        all_goals
          rw [hsearch] at hafter
          exact hafter

/-! ## From tokens to runs -/

/-- At the end of the text the loop over the items is left, and the scan is over. -/
theorem reaches_stop {idx : Nat} (hpc : s.pc = .item idx) (h0 : e.text.byte s.pos = 0) :
    Reaches (step e) s (s.goto .stop) := by
  have hword : stepWord e s = s.goto .advance := by simp [stepWord, h0, isKeyword, isAlpha]
  have hleave : step e s = s.goto .advance := by
    cases hpat : e.buf.patterns[idx]? with
    | none => simp [step, hpc, stepItem, hpat, hword]
    | some pat => simp [step, hpc, stepItem, hpat, h0, hword]
  have hend : step e (s.goto .advance) = s.goto .stop := by
    simp [step, ScanEnv.endText, h0, goto]
  exact Reaches.head (hleave ▸ Reaches.head (hend ▸ .refl ..))

/-- A region is read to its end: there it is recorded, with its end or without. -/
theorem leads_of_body {pat : SynPat} {second closed : Bool} {p q : Place}
    (h : Body e pat second p closed q) {idx : Nat} (hpat : e.buf.patterns[idx]? = some pat)
    (hpc : s.pc = .region idx second) (hp : s.place = p) :
    ∃ t : Scan, t.place = q ∧ t.start = s.start ∧ t.out = s.out ∧
      Leads (step e) s (if closed then closeRegion t pat else (t.cutRegion pat).goto .stop) := by
  induction h generalizing s with
  | text h0 =>
      subst hp
      have hstep : step e s = (s.cutRegion pat).goto (.item (idx + 1)) := by
        simp [step, hpc, stepRegion, hpat, show e.text.byte s.pos = 0 from h0]
      exact ⟨s, rfl, rfl, rfl, .head hstep (reaches_stop rfl h0)⟩
  | @skip second closed p q n m h0 hm _ ih =>
      subst hp
      have hstep : step e s = (s.store m).bytes n :=
        (Takes.skip idx second pat n m hpc hpat h0 hm).step_eq
      obtain ⟨t, hq, hstart, hout, ht⟩ := ih (s := (s.store m).bytes n) hpc rfl
      exact ⟨t, hq, hstart, hout, .head hstep ht.reaches⟩
  | @firstEnd closed p q n m' m h0 hs hm _ ih =>
      subst hp
      have hstep : step e s = ((s.store m).bytes n).goto (.region idx false) :=
        (Takes.firstEnd idx pat n m' m hpc hpat h0 hs hm).step_eq
      obtain ⟨t, hq, hstart, hout, ht⟩ :=
        ih (s := ((s.store m).bytes n).goto (.region idx false)) rfl rfl
      exact ⟨t, hq, hstart, hout, .head hstep ht.reaches⟩
  | @close p n m' m h0 hs hm =>
      subst hp
      have hsome : pat.end ≠ none := fun hnone => by simp [hnone, ScanEnv.tryMatch] at hm
      refine ⟨(s.store m).bytes n, rfl, rfl, rfl, .of_step ?_⟩
      simp only [place] at h0 hs hm
      simp [step, hpc, stepRegion, hpat, h0, hs, hm, hsome]
  | @tag second p m' m h0 hs hsome hm htag =>
      subst hp
      refine ⟨s.store m, rfl, rfl, rfl, .of_step ?_⟩
      simp only [place] at h0 hs hm htag
      simp [step, hpc, stepRegion, hpat, h0, hs, hm, hsome, htag]
  | @char second closed p q m' m h0 hs hsome hm htag _ ih =>
      subst hp
      have hstep : step e s = (s.store m).char e.text := by
        simp only [place] at h0 hs hm htag
        simp [step, hpc, stepRegion, hpat, h0, hs, hm, hsome, htag]
      obtain ⟨t, hq, hstart, hout, ht⟩ := ih (s := (s.store m).char e.text) hpc rfl
      exact ⟨t, hq, hstart, hout, .head hstep ht.reaches⟩

/-- From the head of the loop to the end of a region. -/
theorem leads_of_region {pat : SynPat} {n : Nat} {m : Bytes} {closed : Bool} {q : Place}
    (hs : e.sees s.place = some (.found (.start pat n) m))
    (hbody : Body e pat pat.end2.isSome ((s.place.store m).bytes n) closed q) (hpc : s.pc = .top) :
    ∃ t : Scan, t.place = q ∧ t.start = s.cur ∧ t.out = s.out ∧
      Leads (step e) s (if closed then closeRegion t pat else (t.cutRegion pat).goto .stop) := by
  obtain ⟨r, hr, hafter⟩ := leads_of_sees (e := e) hpc
  rw [hs] at hafter
  obtain ⟨idx, hpat, rfl⟩ := hafter
  obtain ⟨t, hq, hstart, hout, ht⟩ := leads_of_body
    (s := ((s.markStart.store m).markStart.bytes n).goto (.region idx pat.end2.isSome)) hbody hpat
    rfl rfl
  exact ⟨t, hq, hstart, hout, hr.trans ht.reaches⟩

/-- Where the items find nothing, a word is taken or a step to the next character is made. -/
theorem leads_of_nothing {m : Bytes} (hs : e.sees s.place = some (.found .nothing m))
    (hpc : s.pc = .top) : Leads (step e) s
      (if SkipsWord e s.place then ((s.markStart.store m).bytes (e.text.run isKeyword s.pos)).goto .top
        else (s.markStart.store m).goto .advance) := by
  obtain ⟨t, ht, hafter⟩ := leads_of_sees (e := e) hpc
  rw [hs] at hafter
  exact hafter ▸ ht

/-- A token is read in one turn of the loop. -/
theorem leads_of_readsToken {k : Token} {q : Place} (h : ReadsToken e s.place k q)
    (hpc : s.pc = .top) :
    ∃ t, Leads (step e) s t ∧ Stands t .top q (s.out ++ (k.record s.cur).toList) := by
  obtain ⟨t, ht, hafter⟩ := leads_of_sees (e := e) hpc
  cases h with
  | blank hs =>
      rw [hs] at hafter
      subst hafter
      exact ⟨_, ht, hpc, rfl, (List.append_nil _).symm⟩
  | keyword hs hg =>
      rw [hs, AfterSight, if_pos hg] at hafter
      subst hafter
      exact ⟨_, ht, hpc, rfl, rfl⟩
  | item hs =>
      rw [hs] at hafter
      obtain rfl := hafter
      exact ⟨_, ht, rfl, rfl, rfl⟩
  | @region pat n size width m q hs hbody hpos hcur hhg =>
      obtain ⟨t, rfl, hstart, hout, ht⟩ := leads_of_region hs hbody hpc
      obtain ⟨⟨os, oe⟩, hadjust⟩ := Option.ne_none_iff_exists'.mp hhg
      have hcur : t.cur = s.cur + width := hcur
      have hadjust : hgAdjust pat.hg s.cur (s.cur + width : Nat) = some (os, oe) := hcur ▸ hadjust
      have hrecord : Token.record s.cur ⟨.region pat.fromId pat.hg, size, width⟩ =
          some ⟨pat.fromId, os, oe⟩ := by
        dsimp only [Token.record]
        rw [hadjust, Option.map_some]
      rw [if_pos rfl, closeRegion, hstart, hcur, hadjust] at ht
      refine ⟨_, ht, rfl, rfl, ?_⟩
      rw [hrecord]
      exact congrArg (· ++ _) hout
  | word hs hskips =>
      have ht := leads_of_nothing hs hpc
      rw [if_pos hskips] at ht
      exact ⟨_, ht, rfl, rfl, (List.append_nil _).symm⟩
  | @char m hs hskips hend =>
      have ht := leads_of_nothing hs hpc
      rw [if_neg hskips] at ht
      have hstep : step e ((s.markStart.store m).goto .advance) =
          ((s.markStart.store m).char e.text).goto .top := by
        simp [step, show e.endText s.pos = false from hend, goto, char]
      exact ⟨_, ht.trans (Leads.of_step hstep).reaches, rfl, rfl, (List.append_nil _).symm⟩

/-- Tokens are read to the end. -/
theorem reaches_of_lexes {p q : Place} {ks : List Token} (h : Lexes e p ks q) (hpc : s.pc = .top)
    (hp : s.place = p) :
    ∃ t, Reaches (step e) s t ∧ Stands t .stop q (s.out ++ records s.cur ks) := by
  induction h generalizing s with
  | textEnd hs =>
      subst hp
      obtain ⟨t, ht, hafter⟩ := leads_of_sees (e := e) hpc
      rw [hs] at hafter
      subst hafter
      exact ⟨_, ht.reaches, rfl, rfl, (List.append_nil _).symm⟩
  | @tagEnd p m hs hskips hend =>
      subst hp
      have ht := leads_of_nothing hs hpc
      rw [if_neg hskips] at ht
      have hstep : step e ((s.markStart.store m).goto .advance) =
          (s.markStart.store m).goto .stop := by
        simp [step, show e.endText s.pos = true from hend, goto]
      exact ⟨_, (ht.trans (Leads.of_step hstep).reaches).reaches, rfl, rfl,
        (List.append_nil _).symm⟩
  | @openRegion p q pat n size width m hs hbody hpos hcur =>
      subst hp
      obtain ⟨t, rfl, hstart, hout, ht⟩ := leads_of_region hs hbody hpc
      have hcur : t.cur = s.cur + width := hcur
      rw [if_neg Bool.false_ne_true, cutRegion, hstart, hcur] at ht
      refine ⟨_, ht.reaches, rfl, rfl, ?_⟩
      rw [records, records, List.append_nil]
      exact congrArg (· ++ _) hout
  | @cons p q r k ks htoken _ ih =>
      subst hp
      obtain ⟨t, ht, htop, hq, hout⟩ := leads_of_readsToken htoken hpc
      obtain ⟨u, hu, hstop, hr, hout'⟩ := ih htop hq
      refine ⟨u, ht.reaches.trans hu, hstop, hr, ?_⟩
      have hcur : t.cur = s.cur + k.width := (congrArg Place.cur hq).trans htoken.cur_eq
      rw [hout', hout, hcur, records, List.append_assoc]

/-! ## From runs to tokens -/

section
variable {u : Scan}

/-- A run that faults does not come to the end of a scan. -/
theorem not_stop_of_fault {t : Scan} {n : Nat} (ht : t.pc = .fault) (hn : (step e)^[n] t = u)
    (hu : u.pc = .stop) : False := by
  rw [Function.iterate_fixed (step_halted (.inr ht))] at hn
  rw [← hn, ht] at hu
  cases hu

/-- A region that is left has been read. -/
theorem exists_body {pat : SynPat} {idx : Nat} (hpat : e.buf.patterns[idx]? = some pat)
    {second : Bool} {n : Nat} (hpc : s.pc = .region idx second) (hn : (step e)^[n] s = u)
    (hu : u.pc = .stop) : ∃ closed q, Body e pat second s.place closed q := by
  induction n using Nat.strongRecOn generalizing s second with
  | _ n ih =>
      -- Where the region goes on, the way to the end is shorter.
      have hnext : ∀ (t : Scan) (second' : Bool), step e s = t → t.pc = .region idx second' →
          ∃ closed q, Body e pat second' t.place closed q := by
        intro t second' hstep ht
        have hne : t ≠ u := by
          rintro rfl
          rw [ht] at hu
          cases hu
        obtain ⟨m, hm, hrun⟩ := (Leads.of_step hstep).exists_lt hn (step_halted (.inl hu)) hne
        exact ih m hm ht hrun
      have hfault : step e s ≠ s.goto .fault := by
        intro hstep
        have hne : s.goto .fault ≠ u := by
          rintro rfl
          cases hu
        obtain ⟨m, -, hrun⟩ := (Leads.of_step hstep).exists_lt hn (step_halted (.inl hu)) hne
        exact not_stop_of_fault rfl hrun hu
      by_cases h0 : e.text.byte s.pos = 0
      · exact ⟨false, s.place, .text h0⟩
      have hstep : step e s = stepRegion e s idx second := by simp [step, hpc]
      rw [stepRegion, hpat] at hstep
      simp only [if_neg h0] at hstep
      split at hstep
      · exact absurd hstep hfault
      · next k m hs =>
        obtain ⟨closed, q, hbody⟩ := hnext _ second hstep hpc
        exact ⟨closed, q, .skip h0 hs hbody⟩
      · next m' hs =>
        split at hstep
        · exact absurd hstep hfault
        · next hsome =>
          split at hstep
          · exact absurd hstep hfault
          · next k m hm =>
            cases second with
            | false => exact ⟨true, _, .close h0 hs hm⟩
            | true =>
                obtain ⟨closed, q, hbody⟩ := hnext _ false hstep rfl
                exact ⟨closed, q, .firstEnd h0 hs hm hbody⟩
          · next m hm =>
            split at hstep
            · next htag => exact ⟨false, _, .tag h0 hs hsome hm htag⟩
            · next htag =>
              obtain ⟨closed, q, hbody⟩ := hnext _ second hstep hpc
              exact ⟨closed, q, .char h0 hs hsome hm (Bool.eq_false_iff.mpr htag) hbody⟩

theorem exists_region {pat : SynPat} {k : Nat} {m : Bytes}
    (hs : e.sees s.place = some (.found (.start pat k) m)) (hpc : s.pc = .top) {n : Nat}
    (hn : (step e)^[n] s = u) (hu : u.pc = .stop) :
    ∃ closed q, Body e pat pat.end2.isSome ((s.place.store m).bytes k) closed q := by
  obtain ⟨t, ht, hafter⟩ := leads_of_sees (e := e) hpc
  rw [hs] at hafter
  obtain ⟨idx, hpat, rfl⟩ := hafter
  obtain ⟨m', -, hrun⟩ := ht.exists_lt hn (step_halted (.inl hu)) fun h => by
    rw [← h] at hu
    cases hu
  exact exists_body hpat rfl hrun hu

/-- A scan that comes to its end has read tokens. -/
theorem exists_lexes {n : Nat} (hpc : s.pc = .top) (hn : (step e)^[n] s = u) (hu : u.pc = .stop) :
    ∃ ks q, Lexes e s.place ks q := by
  induction n using Nat.strongRecOn generalizing s with
  | _ n ih =>
      -- Behind every other state of the run, the way to the end is shorter.
      have hshort : ∀ t, Leads (step e) s t → t.pc ≠ .stop → ∃ m < n, (step e)^[m] t = u :=
        fun t ht hstop => ht.exists_lt hn (step_halted (.inl hu)) fun h => hstop (h ▸ hu)
      have hfault : ∀ t, Leads (step e) s t → t.pc ≠ .fault := by
        intro t ht htpc
        obtain ⟨m, -, hrun⟩ := hshort t ht (by simp [htpc])
        exact not_stop_of_fault htpc hrun hu
      have htoken : ∀ k q, ReadsToken e s.place k q → ∃ ks r, Lexes e s.place ks r := by
        intro k q hk
        obtain ⟨t, ht, htop, hq, -⟩ := leads_of_readsToken hk hpc
        obtain ⟨m, hm, hrun⟩ := hshort t ht (by simp [htop])
        obtain ⟨ks, r, hks⟩ := ih m hm htop hrun
        exact ⟨k :: ks, r, .cons hk (hq ▸ hks)⟩
      obtain ⟨t, ht, hafter⟩ := leads_of_sees (e := e) hpc
      rcases hs : e.sees s.place with _ | _ | _ | ⟨k, g⟩ | ⟨⟨pat, k⟩ | ⟨pat, k⟩ | _, m⟩
      · rw [hs] at hafter
        exact absurd hafter (hfault t ht)
      · exact ⟨[], s.place, .textEnd hs⟩
      · exact htoken _ _ (.blank hs)
      · by_cases hg : g = 0
        · -- The keyword is looked at again.
          rw [hs, AfterSight, if_neg (not_not.mpr hg)] at hafter
          subst hafter
          obtain ⟨m, hm, hrun⟩ := hshort _ ht (by simp [hpc])
          exact ih m hm (s := s.markStart) hpc hrun
        · exact htoken _ _ (.keyword hs hg)
      · exact htoken _ _ (.item hs)
      · obtain ⟨closed, q, hbody⟩ := exists_region hs hpc hn hu
        obtain ⟨size, width, hpos, hcur⟩ := hbody.exists_size
        cases closed with
        | false => exact ⟨_, q, .openRegion hs hbody hpos hcur⟩
        | true =>
            obtain ⟨t, rfl, hstart, -, ht⟩ := leads_of_region hs hbody hpc
            refine htoken _ _ (.region hs hbody hpos hcur fun hhg => ?_)
            rw [if_pos rfl, closeRegion, hstart,
              show hgAdjust pat.hg s.cur t.cur = none from hhg] at ht
            exact hfault _ ht rfl
      · by_cases hskips : SkipsWord e s.place
        · exact htoken _ _ (.word hs hskips)
        · cases hend : e.endText s.pos with
          | true => exact ⟨[], _, .tagEnd hs hskips hend⟩
          | false => exact htoken _ _ (.char hs hskips hend)

theorem step_enter (hpc : s.pc = .enter) :
    step e s = if e.endText s.pos then s.goto .stop else (s.store []).goto .top := by
  simp [step, hpc]

theorem reaches_of_scans {ks : List Token} {q : Place} (hpc : s.pc = .enter)
    (h : Scans e s.place ks q) :
    ∃ u, Reaches (step e) s u ∧ Stands u .stop q (s.out ++ records s.cur ks) := by
  have hstep := step_enter (e := e) hpc
  rw [Scans] at h
  split at h
  · next hend =>
    obtain ⟨rfl, rfl⟩ := h
    rw [if_pos (show e.endText s.pos = true from hend)] at hstep
    exact ⟨_, (Leads.of_step hstep).reaches, rfl, rfl, (List.append_nil _).symm⟩
  · next hend =>
    rw [if_neg (show ¬ e.endText s.pos = true from hend)] at hstep
    obtain ⟨u, hu, hstands⟩ := reaches_of_lexes (s := (s.store []).goto .top) h rfl rfl
    exact ⟨u, (Leads.head hstep hu).reaches, hstands⟩

theorem exists_scans (hpc : s.pc = .enter) (hu : Reaches (step e) s u) (hstop : u.pc = .stop) :
    ∃ ks, Scans e s.place ks u.place ∧ u.out = s.out ++ records s.cur ks := by
  have hfix : step e u = u := step_halted (.inl hstop)
  obtain ⟨ks, q, hks⟩ : ∃ ks q, Scans e s.place ks q := by
    have hstep := step_enter (e := e) hpc
    by_cases hend : e.endText s.pos = true
    · exact ⟨[], s.place, (if_pos hend).mpr ⟨rfl, rfl⟩⟩
    · rw [if_neg hend] at hstep
      obtain ⟨n, hn⟩ := hu
      have hne : (s.store []).goto .top ≠ u := by
        rintro rfl
        cases hstop
      obtain ⟨m, -, hm⟩ := (Leads.of_step hstep).exists_lt hn hfix hne
      obtain ⟨ks, q, hks⟩ := exists_lexes rfl hm hstop
      exact ⟨ks, q, (if_neg hend).mpr hks⟩
  -- The tokens give a run to an end, and there is only one.
  obtain ⟨t, ht, hstands⟩ := reaches_of_scans hpc hks
  obtain rfl := ht.eq_of_fixed hu (step_halted (.inl hstands.pc)) hfix
  exact ⟨ks, hstands.place ▸ hks, hstands.out⟩

/-- The scanner comes to an end exactly when the text can be read as tokens, and then it stands
behind them and has recorded them. -/
theorem reaches_iff_scans {q : Place} {out : List Item} (hpc : s.pc = .enter) :
    (∃ u, Reaches (step e) s u ∧ Stands u .stop q (s.out ++ out)) ↔
      ∃ ks, Scans e s.place ks q ∧ out = records s.cur ks := by
  constructor
  · rintro ⟨u, hu, hstop, rfl, hout⟩
    obtain ⟨ks, hks, hout'⟩ := exists_scans hpc hu hstop
    exact ⟨ks, hks, List.append_cancel_left (hout.symm.trans hout')⟩
  · rintro ⟨ks, hks, rfl⟩
    exact reaches_of_scans hpc hks

/-- The keyword `if`, and strings between quotes. -/
def quotedBuf : Buf :=
  ⟨[(Highlight.bytes "if", 5)], [],
    [⟨some (Highlight.bytes "\""), none, some (Highlight.bytes "\""), none, none, none, none, 7⟩]⟩

/-- A keyword, a blank and a string. -/
def quotedEnv : ScanEnv := ⟨⟨Highlight.bytes "if \"a\"", by decide +kernel, 0⟩, quotedBuf, none⟩

def quotedScan : Scan := ⟨.enter, 0, 0, 0, [], []⟩

theorem scans_quoted : ∃ ks, Scans quotedEnv quotedScan.place ks ⟨6, 6, []⟩ ∧
    [⟨5, 0, 2⟩, ⟨7, 3, 6⟩] = records quotedScan.cur ks :=
  (reaches_iff_scans rfl).mp ⟨(step quotedEnv)^[8] quotedScan, ⟨8, rfl⟩, by decide +kernel,
    by decide +kernel, by decide +kernel⟩

/-- A scan that has ended has read its text in one way, from end to end: the texts of its tokens
and what is left of the text make up the text, and the records are those of the tokens. -/
theorem scan_tiles (hpc : s.pc = .enter) (hu : Reaches (step e) s u) (hstop : u.pc = .stop) :
    ∃! ks, Scans e s.place ks u.place ∧ u.out = s.out ++ records s.cur ks ∧
      (texts e.text s.pos ks).flatten ++ e.text.rest u.pos = e.text.rest s.pos := by
  obtain ⟨ks, hks, hout⟩ := exists_scans hpc hu hstop
  refine ⟨ks, ⟨hks, hout, ?_⟩, fun ks' h => h.1.unique hks⟩
  obtain ⟨n, hpos, htexts⟩ := hks.tiles
  have hrest : e.text.rest u.pos = (e.text.rest s.pos).drop n := by
    rw [show u.pos = s.pos + n from hpos, FileText.rest, FileText.rest, List.drop_drop]
  rw [show (texts e.text s.pos ks).flatten = _ from htexts, hrest]
  exact List.take_append_drop n _

theorem quoted_tiles : ((step quotedEnv)^[8] quotedScan).pos = 6 ∧
    ∃! ks, Scans quotedEnv quotedScan.place ks ((step quotedEnv)^[8] quotedScan).place ∧
      ((step quotedEnv)^[8] quotedScan).out = [] ++ records quotedScan.cur ks ∧
      (texts quotedEnv.text 0 ks).flatten ++
        quotedEnv.text.rest ((step quotedEnv)^[8] quotedScan).pos = quotedEnv.text.rest 0 :=
  ⟨by decide +kernel, scan_tiles rfl ⟨8, rfl⟩ (by decide +kernel)⟩

end

end Scan

end HapAndroid.Highlight
