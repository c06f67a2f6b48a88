import HapAndroid.Highlight.Load
import HapAndroid.Highlight.Progress

/-!
# Termination

A pass of a loop leads from its head to its head without leaving it.  `terminates_iff`:
every pass moves on in the text, and the run ends, exactly when every state on the way
satisfies `Parse.Advances`.

From right to left the rank of `Progress` is used twice.  It bounds the run, and where it
comes back to the rank of a head the position has advanced.  From left to right a step
that comes back without moving is traced to the head of its loop (`History`), so that the
pass around it does not move either.
-/

namespace HapAndroid.Highlight

open Machine

namespace Parse

variable {e : ParseEnv} {s : Parse}

/-! ## Loops -/

/-- The loops over the text: that of `parse_file`, that over a tag `other`, that of
`scan_syntax` and that to the end of a region. -/
inductive Loop where
  | parse | other | scan | region
deriving DecidableEq

def InLoop : Loop → Parse → Prop
  | .parse, _ => True
  | .other, s => ∃ tag, s.pc = .other tag
  | .scan, s => ∃ tag, s.pc = .scanning tag
  | .region, s => ∃ tag idx second, s.pc = .scanning tag ∧ s.scan.pc = .region idx second

def AtHead : Loop → Parse → Prop
  | .parse, s => s.pc = .head
  | .other, s => ∃ tag, s.pc = .other tag
  | .scan, s => ∃ tag, s.pc = .scanning tag ∧ s.scan.pc = .top
  | .region, s => ∃ tag idx second, s.pc = .scanning tag ∧ s.scan.pc = .region idx second

/-- From the head of a loop `n` steps lead back to it, without leaving the loop. -/
structure Iterates (e : ParseEnv) (L : Loop) (s : Parse) (n : Nat) : Prop where
  turns : 0 < n
  head : AtHead L s
  again : AtHead L ((step e)^[n] s)
  stays : ∀ m ≤ n, InLoop L ((step e)^[m] s)

/-- Every pass of a loop that does not leave it moves on in the text, and the run
ends. -/
def Terminates (e : ParseEnv) : Prop :=
  (∀ L s n, Reaches (step e) (init e) s → Iterates e L s n → s.pos < ((step e)^[n] s).pos) ∧
    ∃ t, Reaches (step e) (init e) t ∧ t.Final

theorem not_final_of_atHead {L : Loop} (h : AtHead L s) : ¬ s.Final := by
  rintro (hf | hf | ⟨tag, hpc, hf⟩)
  · cases L <;> simp_all [AtHead]
  · cases L <;> simp_all [AtHead]
  · cases L <;> simp_all [AtHead]

theorem final_iterate {m n : Nat} (hmn : m ≤ n) (h : ((step e)^[m] s).Final) :
    ((step e)^[n] s).Final := by
  obtain ⟨k, rfl⟩ := Nat.exists_eq_add_of_le' hmn
  rw [Function.iterate_add_apply]
  exact Reaches.invariant ⟨k, rfl⟩ (fun t => final_step) h

theorem control_of_reaches (h : Reaches (step e) (init e) s) : Control e s ∨ s.Faulted := by
  refine h.invariant (I := fun s => Control e s ∨ s.Faulted) ?_ (control_init e)
  rintro t (ht | hf)
  · exact control_step ht
  · exact .inr (faulted_step hf)

section
variable (hadv : ∀ s, Reaches (step e) (init e) s → Advances e s)
include hadv

theorem progress_of_reaches (hs : Reaches (step e) (init e) s) (hend : ¬ s.Final) :
    (step e s).Final ∨ Progress pos (rank e) s (step e s) := by
  have hctl : Control e s := (control_of_reaches hs).resolve_right fun hf => hend (.inr hf)
  exact progress_step hctl (hadv s hs) hend

theorem halts : ∃ t, Reaches (step e) (init e) t ∧ t.Final := by
  refine halts_of_progress (E := e.text.length) (K := e.tags.length + 2 * scanRoom e + 6)
    (fun t ht hend => ?_) (fun t _ _ => rank_lt e t) (fun t => progress_of_reaches hadv)
  exact ((control_of_reaches ht).resolve_right fun hf => hend (.inr hf)).le_length

/-- Along a pass that stays in its loop every step is progress. -/
theorem Iterates.progress {L : Loop} {n m : Nat} (hs : Reaches (step e) (init e) s)
    (hit : Iterates e L s n) (hm : m < n) :
    Progress pos (rank e) ((step e)^[m] s) ((step e)^[m + 1] s) := by
  have hfinal : ¬ ((step e)^[n] s).Final := not_final_of_atHead hit.again
  have hreach : Reaches (step e) (init e) ((step e)^[m] s) := hs.trans ⟨m, rfl⟩
  rw [Function.iterate_succ_apply']
  refine (progress_of_reaches hadv hreach fun hf => ?_).resolve_left fun hf => ?_
  · exact hfinal (final_iterate (Nat.le_of_lt hm) hf)
  · rw [← Function.iterate_succ_apply' (step e)] at hf
    exact hfinal (final_iterate hm hf)

end

/-- A step inside of `scan_syntax` moves on, or keeps the offsets. -/
theorem scan_step_cases {tag : Option Tag} (hpc : s.pc = .scanning tag)
    (hnext : ∃ tag, (step e s).pc = .scanning tag) :
    s.scan.pc ≠ .stop ∧ s.scan.pc ≠ .fault ∧ step e s = s.on (Scan.step (e.scanEnv tag)) := by
  obtain ⟨tag', hnext⟩ := hnext
  have hstop : s.scan.pc ≠ .stop := by
    intro h
    cases tag <;> simp [step, hpc, h] at hnext
  have hfault : s.scan.pc ≠ .fault := by
    intro h
    simp [step, hpc, h] at hnext
  exact ⟨hstop, hfault, step_scanning hpc hstop hfault⟩

/-- Inside of one call of `scan_syntax`: the scanner has moved on, or nothing has
changed that the rank of its head depends on. -/
theorem Iterates.same {n m : Nat} (hit : Iterates e .scan s n) (hm : m ≤ n) :
    s.pos < ((step e)^[m] s).pos ∨ (((step e)^[m] s).pos = s.pos ∧
      ((step e)^[m] s).scan.cur = s.scan.cur ∧ ((step e)^[m] s).tagStart = s.tagStart) := by
  induction m with
  | zero => exact .inr ⟨rfl, rfl, rfl⟩
  | succ m ih =>
      obtain ⟨tag, hpc⟩ := hit.stays m (Nat.le_of_succ_le hm)
      have hnext := hit.stays (m + 1) hm
      have hfinal : ¬ ((step e)^[n] s).Final := not_final_of_atHead hit.again
      have hnot : ¬ ((step e)^[m + 1] s).Final := fun hf => hfinal (final_iterate hm hf)
      rw [Function.iterate_succ_apply'] at hnext hnot ⊢
      obtain ⟨-, -, hstep⟩ := scan_step_cases hpc hnext
      rw [hstep] at hnot ⊢
      generalize (step e)^[m] s = t at *
      have hle : t.pos ≤ (t.on (Scan.step (e.scanEnv tag))).pos := Scan.pos_le_step _ _
      rcases ih (Nat.le_of_succ_le hm) with hlt | ⟨hpos, hcur, hstart⟩
      · exact .inl (Nat.lt_of_lt_of_le hlt hle)
      · rcases Scan.forward_step (e.scanEnv tag) t.scan with hf | ⟨hlt, -⟩ | ⟨hpos', hcur'⟩
        · exact absurd (.inr (.inr ⟨tag, hpc, hf⟩)) hnot
        · exact .inl (hpos ▸ hlt)
        · exact .inr ⟨hpos'.trans hpos, hcur'.trans hcur, hstart⟩

/-- Inside of a region every pass moves on. -/
theorem region_step_lt {tag : Option Tag} {idx : Nat} {second : Bool} (h : Advances e s)
    (hpc : s.pc = .scanning tag) (hreg : s.scan.pc = .region idx second)
    (hnext : InLoop .region (step e s)) : s.pos < (step e s).pos := by
  obtain ⟨tag', idx', second', hpc', hreg'⟩ := hnext
  obtain ⟨-, -, hstep⟩ := scan_step_cases hpc ⟨tag', hpc'⟩
  rw [hstep] at hreg' ⊢
  show s.scan.pos < (Scan.step (e.scanEnv tag) s.scan).pos
  rcases Scan.region_of_step hreg' with ⟨_, hitem, -⟩ | ⟨-, -, ⟨k, n, hk, ht⟩ | hlt⟩
  · exact absurd (hitem.symm.trans hreg) (by simp)
  · have hn := (h.scan tag hpc).pattern k n _ ht
    rw [ht.pos_eq]
    rcases hk with rfl | rfl <;> exact Nat.lt_add_of_pos_right (hn.resolve_right (by simp))
  · exact hlt

/-- Every step of the loop over a tag `other` moves on. -/
theorem other_step_lt {tag : Tag} (hpc : s.pc = .other tag) (hnext : InLoop .other (step e s)) :
    s.pos < (step e s).pos := by
  obtain ⟨tag', hpc'⟩ := hnext
  generalize hu : step e s = u at hpc' ⊢
  have hmove : Move e s u := hu ▸ move_step e s
  cases hmove with
  | otherChar _ _ h0 => exact Nat.lt_add_of_pos_right (utfcPtr2len_pos h0)
  | halt hend => rcases hend with h | h <;> exact absurd (hpc.symm.trans h) (by simp)
  | look h _ => exact absurd (hpc.symm.trans h) (by simp)
  | openTag _ _ _ _ _ h => exact absurd (hpc.symm.trans h) (by simp)
  | scan _ h => exact absurd (hpc.symm.trans h) (by simp)
  | leaveScan _ h => exact absurd (hpc.symm.trans h) (by simp)
  | _ => cases hpc'

/-- A pass that does not leave its loop moves on. -/
theorem Iterates.lt {L : Loop} {n : Nat} (hadv : ∀ s, Reaches (step e) (init e) s → Advances e s)
    (hs : Reaches (step e) (init e) s) (hit : Iterates e L s n) :
    s.pos < ((step e)^[n] s).pos := by
  have hreach : ∀ m, Reaches (step e) (init e) ((step e)^[m] s) := fun m => hs.trans ⟨m, rfl⟩
  cases L with
  | parse =>
      refine lt_of_progress hit.turns (fun m hm => hit.progress hadv hs hm) fun _ => ?_
      rw [rank_head hit.head, rank_head hit.again]
  | scan =>
      obtain ⟨tag, hpc, htop⟩ := hit.head
      obtain ⟨tag', hpc', htop'⟩ := hit.again
      refine lt_of_progress hit.turns (fun m hm => hit.progress hadv hs hm) fun hpos => ?_
      obtain ⟨-, hcur, hstart⟩ := (hit.same (Nat.le_refl n)).resolve_left (by omega)
      rw [rank_scanning hpc, rank_scanning hpc', hcur, hstart, Scan.rank, Scan.rank, htop, htop']
  | other =>
      -- Every single step moves on; no rank is needed.
      refine lt_of_advance hit.turns fun m hm => ?_
      obtain ⟨tag, hpc⟩ := hit.stays m (Nat.le_of_lt hm)
      have hnext := hit.stays (m + 1) hm
      rw [Function.iterate_succ_apply'] at hnext ⊢
      exact other_step_lt hpc hnext
  | region =>
      refine lt_of_advance hit.turns fun m hm => ?_
      obtain ⟨tag, idx, second, hpc, hreg⟩ := hit.stays m (Nat.le_of_lt hm)
      have hnext := hit.stays (m + 1) hm
      rw [Function.iterate_succ_apply'] at hnext ⊢
      exact region_step_lt (hadv _ (hreach m)) hpc hreg hnext

theorem terminates_of_advances (hadv : ∀ s, Reaches (step e) (init e) s → Advances e s) :
    Terminates e :=
  ⟨fun _ _ _ hs hit => hit.lt hadv hs, halts hadv⟩

/-! ## The converse -/

/-- The state comes from the head of the scanner's loop, in the same call and at the same
position. -/
def FromTop (e : ParseEnv) (s : Parse) : Prop :=
  ∃ p k, Reaches (step e) (init e) p ∧ AtHead .scan p ∧ (step e)^[k] p = s ∧
    (∀ m ≤ k, InLoop .scan ((step e)^[m] p)) ∧ p.pos = s.pos

/-- The state comes from the head of the loop of `parse_file`, at the same position. -/
def FromHead (e : ParseEnv) (s : Parse) : Prop :=
  ∃ p k, Reaches (step e) (init e) p ∧ p.pc = .head ∧ (step e)^[k] p = s ∧ p.pos = s.pos

theorem fromTop_step (h : FromTop e s) (hin : InLoop .scan (step e s))
    (hpos : (step e s).pos = s.pos) : FromTop e (step e s) := by
  obtain ⟨p, k, hp, htop, rfl, hstays, heq⟩ := h
  have hsucc : (step e)^[k + 1] p = step e ((step e)^[k] p) :=
    Function.iterate_succ_apply' ..
  refine ⟨p, k + 1, hp, htop, hsucc, fun m hm => ?_, heq.trans hpos.symm⟩
  rcases Nat.le_succ_iff.mp hm with hm | rfl
  · exact hstays m hm
  · rw [hsucc]
    exact hin

theorem fromTop_of_atHead (hs : Reaches (step e) (init e) s) (h : AtHead .scan s) :
    FromTop e s := by
  refine ⟨s, 0, hs, h, rfl, fun m hm => ?_, rfl⟩
  obtain ⟨tag, hpc, -⟩ := h
  rw [Nat.le_zero.mp hm]
  exact ⟨tag, hpc⟩

theorem fromHead_step (h : FromHead e s) (hpos : (step e s).pos = s.pos) :
    FromHead e (step e s) := by
  obtain ⟨p, k, hp, hhead, rfl, heq⟩ := h
  exact ⟨p, k + 1, hp, hhead, Function.iterate_succ_apply' .., heq.trans hpos.symm⟩

/-- Where the states of the inner loops come from, as long as they have not moved on. -/
structure History (e : ParseEnv) (s : Parse) : Prop where
  item : ∀ tag idx, s.pc = .scanning tag → s.scan.pc = .item idx →
    e.text.byte s.scan.pos ≠ 0 → FromTop e s
  region : ∀ tag idx second, s.pc = .scanning tag → s.scan.pc = .region idx second →
    ¬ s.scan.start < s.scan.cur → FromTop e s
  tag : ∀ idx, s.pc = .tag idx → FromHead e s
  inTag : ∀ tag, s.InTag tag → ¬ s.tagStart < s.scan.cur → FromHead e s

/-- Outside of the scanner. -/
theorem history_of (hscan : ∀ tag, s.pc ≠ .scanning tag)
    (htag : ∀ idx, s.pc = .tag idx → FromHead e s)
    (hin : ∀ tag, s.InTag tag → ¬ s.tagStart < s.scan.cur → FromHead e s) : History e s :=
  ⟨fun tag _ h => absurd h (hscan tag), fun tag _ _ h => absurd h (hscan tag), htag, hin⟩

theorem history_head (h : s.pc = .head ∨ s.pc = .done) : History e s := by
  refine history_of ?_ ?_ ?_ <;> rcases h with h | h <;> simp [h, InTag]

/-- The scanner keeps its history. -/
theorem history_scan {tag : Option Tag} (hs : Reaches (step e) (init e) s) (hctl : Control e s)
    (h : History e s) (hpc : s.pc = .scanning tag)
    (hstep : step e s = s.on (Scan.step (e.scanEnv tag))) :
    History e (step e s) ∨ (step e s).Faulted := by
  have hin : InLoop .scan (step e s) := by
    rw [hstep]
    exact ⟨tag, hpc⟩
  have hscan : (step e s).scan = Scan.step (e.scanEnv tag) s.scan := by
    rw [hstep]
    rfl
  have hforward := Scan.forward_step (e.scanEnv tag) s.scan
  rw [← hscan] at hforward
  rcases hforward with hf | hmoved
  · refine .inr (.inr ⟨tag, ?_, hf⟩)
    rw [hstep]
    exact hpc
  refine .inl ⟨?_, ?_, ?_, ?_⟩
  · intro tag' idx _ hitem h0
    rw [hscan] at hitem h0
    obtain ⟨hpos, hfrom⟩ := Scan.item_of_step (e := e.scanEnv tag) hitem h0
    rw [← hscan] at hpos
    rcases hfrom with htop | ⟨idx', hitem', h0'⟩
    · exact fromTop_step (fromTop_of_atHead hs ⟨tag, hpc, htop⟩) hin hpos
    · exact fromTop_step (h.item tag idx' hpc hitem' h0') hin hpos
  · intro tag' idx second _ hreg hlt
    rw [hscan] at hreg
    -- The offset has not moved behind the start, so the position is that of the step before.
    rcases Scan.region_of_step hreg with ⟨idx', hitem, h0, hstart⟩ |
      ⟨⟨idx', second', hreg'⟩, hstart, -⟩
    · rw [← hscan] at hstart
      rcases hmoved with ⟨-, hcur⟩ | ⟨hpos, -⟩
      · omega
      · exact fromTop_step (h.item tag idx' hpc hitem h0) hin hpos
    · rw [← hscan] at hstart
      have hle := hctl.region tag idx' second' hpc hreg'
      rcases hmoved with ⟨-, hcur⟩ | ⟨hpos, hcur⟩
      · omega
      · exact fromTop_step (h.region tag idx' second' hpc hreg' (by omega)) hin hpos
  · intro idx htag
    rw [hstep] at htag
    exact absurd (hpc.symm.trans htag) (by simp)
  · intro tag' htag hlt
    have hold : s.InTag tag' := by
      unfold InTag at htag ⊢
      rw [hstep] at htag
      exact htag
    have hle := (hctl.started tag' hold).1
    have hstart : (step e s).tagStart = s.tagStart := by
      rw [hstep]
      rfl
    rw [hstart] at hlt
    rcases hmoved with ⟨-, hcur⟩ | ⟨hpos, hcur⟩
    · omega
    · exact fromHead_step (h.inTag tag' hold (by omega)) hpos

theorem history_step (hs : Reaches (step e) (init e) s) (hctl : Control e s) (h : History e s) :
    History e (step e s) ∨ (step e s).Faulted := by
  have hmove := move_step e s
  generalize hu : step e s = u at hmove
  -- A state that is left at the same position hands its history on.
  have hfrom : FromHead e s → u.pos = s.pos → FromHead e u := by
    rw [← hu]
    exact fromHead_step
  cases hmove with
  | halt _ => exact .inl h
  | fault => exact .inr (.inl rfl)
  | finish _ _ => exact .inl (history_head (.inr rfl))
  | look hpc _ =>
      have hhead : FromHead e s := ⟨s, 0, hs, hpc, rfl, rfl⟩
      exact .inl (history_of (by simp) (fun _ _ => hfrom hhead rfl) (by simp [InTag]))
  | char _ _ => exact .inl (history_head (.inl rfl))
  | nextTag idx hpc _ =>
      exact .inl (history_of (by simp) (fun _ _ => hfrom (h.tag idx hpc) rfl) (by simp [InTag]))
  | openTag idx tag syn n m hpc _ _ _ _ =>
      have hnew : ¬ (s.openTag tag n).tagStart < (s.openTag tag n).scan.cur →
          FromHead e (s.openTag tag n) := by
        intro hlt
        rw [openTag_tagStart, openTag_cur] at hlt
        obtain rfl : n = 0 := by omega
        exact hfrom (h.tag idx hpc) (openTag_pos tag 0)
      refine .inl ⟨?_, ?_, ?_, fun _ _ => hnew⟩
      · unfold openTag
        split <;> simp [call]
      · unfold openTag
        split <;> simp [call]
      · unfold openTag
        split <;> simp [call]
  | leaveOther tag hpc _ =>
      exact .inl (history_of (by simp) (by simp) fun _ _ hlt => hfrom (h.inTag tag (.inl hpc) hlt) rfl)
  | otherChar tag hpc _ =>
      have hle := (hctl.started tag (.inl hpc)).1
      refine .inl (history_of (by simp [hpc]) (by simp [hpc]) fun _ _ hlt => absurd ?_ hlt)
      exact Nat.lt_succ_of_le hle
  | leaveScan tag hpc _ =>
      cases tag with
      | none => exact .inl (history_head (.inr rfl))
      | some tag =>
          exact .inl (history_of (by simp) (by simp) fun _ _ hlt =>
            hfrom (h.inTag tag (.inr (.inl hpc)) hlt) rfl)
  | scan tag hpc _ _ =>
      rw [← hu]
      exact history_scan hs hctl h hpc hu
  | unended _ _ _ => exact .inl (history_head (.inl rfl))
  | close _ _ _ => exact .inl (history_head (.inl rfl))
  | pass _ _ _ => exact .inl (history_head (.inl rfl))

theorem history_init (e : ParseEnv) : History e (init e) ∨ (init e).Faulted := by
  unfold init
  dsimp only
  split
  · exact .inl ⟨by simp [call], by simp [call], by simp [call], by simp [call, InTag]⟩
  · split
    · exact .inl (history_head (.inl rfl))
    · exact .inr (.inl rfl)

theorem history_of_reaches (h : Reaches (step e) (init e) s) : History e s ∨ s.Faulted := by
  refine invariant_along (I := fun s => History e s ∨ s.Faulted) (history_init e)
    (fun t ht hist => ?_) s h
  rcases hist with hist | hf
  · rcases control_of_reaches ht with hctl | hf
    · exact history_step ht hctl hist
    · exact .inr (faulted_step hf)
  · exact .inr (faulted_step hf)

section
variable (hterm : ∀ L s n, Reaches (step e) (init e) s → Iterates e L s n →
  s.pos < ((step e)^[n] s).pos)
include hterm

theorem lt_of_fromTop (h : FromTop e s) (hagain : AtHead .scan (step e s)) :
    s.pos < (step e s).pos := by
  obtain ⟨p, k, hp, htop, rfl, hstays, hpos⟩ := h
  rw [← Function.iterate_succ_apply' (step e)] at hagain ⊢
  rw [← hpos]
  refine hterm .scan p (k + 1) hp ⟨Nat.succ_pos k, htop, hagain, fun m hm => ?_⟩
  rcases Nat.le_succ_iff.mp hm with hm | rfl
  · exact hstays m hm
  · obtain ⟨tag, hpc, -⟩ := hagain
    exact ⟨tag, hpc⟩

theorem lt_of_fromHead (h : FromHead e s) (hagain : (step e s).pc = .head) :
    s.pos < (step e s).pos := by
  obtain ⟨p, k, hp, hhead, rfl, hpos⟩ := h
  rw [← Function.iterate_succ_apply' (step e)] at hagain ⊢
  rw [← hpos]
  exact hterm .parse p (k + 1) hp ⟨Nat.succ_pos k, hhead, hagain, fun _ _ => trivial⟩

/-- One step from the head of a loop to its head. -/
theorem lt_of_again {L : Loop} (hs : Reaches (step e) (init e) s)
    (hin : ∀ {t : Parse}, AtHead L t → InLoop L t) (hhead : AtHead L s)
    (hagain : AtHead L (step e s)) : s.pos < (step e s).pos := by
  refine hterm L s 1 hs ⟨Nat.one_pos, hhead, hagain, fun m hm => ?_⟩
  rcases Nat.le_one_iff_eq_zero_or_eq_one.mp hm with rfl | rfl
  · exact hin hhead
  · exact hin hagain

theorem scan_advances (hs : Reaches (step e) (init e) s) {tag : Option Tag}
    (hpc : s.pc = .scanning tag) : Scan.Advances (e.scanEnv tag) s.scan := by
  constructor
  · rintro n g htop hkey rfl
    have hstep : step e s = s.on (Scan.step (e.scanEnv tag)) :=
      step_scanning hpc (by simp [htop]) (by simp [htop])
    have hscan : (step e s).scan = s.scan.markStart := by
      rw [hstep]
      exact Scan.step_loop htop hkey
    have hagain : AtHead .scan (step e s) := by
      refine ⟨tag, by rw [hstep]; exact hpc, ?_⟩
      rw [hscan]
      exact htop
    have hlt := lt_of_again hterm (L := .scan) hs (fun ⟨tag, h, _⟩ => ⟨tag, h⟩)
      ⟨tag, hpc, htop⟩ hagain
    rw [pos, pos, hscan] at hlt
    exact Nat.lt_irrefl _ hlt
  · intro k n u ht
    by_contra hcon
    obtain ⟨hn, hk⟩ := not_or.mp hcon
    obtain ⟨hstart, hclose⟩ := not_or.mp hk
    obtain ⟨hstop, hfault, hu⟩ := ht.pc_ne
    have hstep : step e s = s.on (Scan.step (e.scanEnv tag)) := step_scanning hpc hstop hfault
    have hscan : (step e s).scan = u := by
      rw [hstep]
      exact ht.step_eq
    have hpc' : (step e s).pc = .scanning tag := by
      rw [hstep]
      exact hpc
    have hsame : ¬ s.pos < (step e s).pos := by
      rw [pos, pos, hscan, ht.pos_eq]
      omega
    have hist : History e s := by
      refine (history_of_reaches hs).resolve_right ?_
      rintro (h | ⟨_, -, h⟩)
      · exact absurd (hpc.symm.trans h) (by simp)
      · exact hfault h
    cases ht with
    | item idx _ _ _ hitem _ h0 _ _ =>
        exact hsame (lt_of_fromTop hterm (hist.item tag idx hpc hitem h0)
          ⟨tag, hpc', by rw [hscan]; rfl⟩)
    | start => exact hstart rfl
    | skip idx second _ _ _ hreg _ _ _ =>
        exact hsame (lt_of_again hterm (L := .region) hs id ⟨tag, idx, second, hpc, hreg⟩
          ⟨tag, idx, second, hpc', by rw [hscan]; exact hreg⟩)
    | firstEnd idx _ _ _ _ hreg _ _ _ _ =>
        exact hsame (lt_of_again hterm (L := .region) hs id ⟨tag, idx, true, hpc, hreg⟩
          ⟨tag, idx, false, hpc', by rw [hscan]; rfl⟩)
    | close idx _ _ _ _ _ _ hreg _ _ _ _ _ =>
        have hlt : ¬ s.scan.start < s.scan.cur := fun h => hclose ⟨rfl, h⟩
        exact hsame (lt_of_fromTop hterm (hist.region tag idx false hpc hreg hlt)
          ⟨tag, hpc', by rw [hscan]; rfl⟩)

theorem advances_of_terminates (hs : Reaches (step e) (init e) s) : Advances e s := by
  refine ⟨fun tag hpc => scan_advances hterm hs hpc, ?_⟩
  intro tag w hpc hw hstart
  by_contra hcon
  obtain ⟨hlen, hlt⟩ := not_or.mp hcon
  have hist : History e s := by
    refine (history_of_reaches hs).resolve_right ?_
    rintro (h | ⟨_, h, -⟩) <;> exact absurd (hpc.symm.trans h) (by simp)
  -- The step behind a tag leads to the head, over an end of no bytes.
  have hstep : step e s = stepAfter e s tag := by simp [step, hpc]
  have hhead : (step e s).pc = .head := by
    rw [hstep, stepAfter]
    split_ifs <;> rfl
  have hpos : (step e s).pos = s.pos := by
    have hw0 : w = [] := List.length_eq_zero_iff.mp (by omega)
    rw [hstep, stepAfter]
    split_ifs
    · rfl
    · simp [pos, closeTag, hw, hw0]
    · rfl
  have := lt_of_fromHead hterm (hist.inTag tag (.inr (.inr hpc)) hlt) hhead
  omega

end

/-- `parse_file` terminates, and every pass of a loop that stays in it moves on, exactly
when no step on the way is one that comes back without moving. -/
theorem terminates_iff (e : ParseEnv) :
    Terminates e ↔ ∀ s, Reaches (step e) (init e) s → Advances e s :=
  ⟨fun h _ hs => advances_of_terminates h.1 hs, terminates_of_advances⟩

/-- A file with one command.  The name of its group is not valid, so that the keyword
gets the group 0. -/
def badNameFiles : Files := fun conf =>
  if conf = bytes "c" then some (bytes "syn keyword bad-name foo\n") else none

/-- What the loader makes of it. -/
def badNameLoader : Loader :=
  (loadConf badNameFiles 1 (bytes "c") .fresh .fresh).getD ⟨false, [], [], .fresh, .fresh⟩

/-- The text `foo`, with this configuration. -/
def badNameEnv : ParseEnv :=
  ⟨⟨bytes "foo", by decide +kernel, 0⟩, badNameLoader.buf, badNameLoader.groups.items⟩

/-- The scanner stays at the keyword. -/
theorem badName_not_terminates :
    loadConf badNameFiles 1 (bytes "c") .fresh .fresh = some badNameLoader ∧
      ¬ Terminates badNameEnv := by
  refine ⟨by decide +kernel, fun h => ?_⟩
  obtain ⟨t, ⟨n, rfl⟩, hfinal⟩ := h.2
  -- After one step nothing changes any more.
  have hfixed : step badNameEnv (step badNameEnv (init badNameEnv)) =
      step badNameEnv (init badNameEnv) := by decide +kernel
  have hpc : (step badNameEnv (init badNameEnv)).pc = .scanning none ∧
      (step badNameEnv (init badNameEnv)).scan.pc = .top := by decide +kernel
  have hnext : ((step badNameEnv)^[n + 1] (init badNameEnv)).Final := by
    rw [Function.iterate_succ_apply']
    exact final_step hfinal
  rw [Function.iterate_succ_apply, Function.iterate_fixed hfixed] at hnext
  exact not_final_of_atHead (L := .scan) ⟨none, hpc⟩ hnext

end Parse

end HapAndroid.Highlight
