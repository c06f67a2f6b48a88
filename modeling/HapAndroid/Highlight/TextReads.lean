import HapAndroid.Highlight.Probes

/-!
# What the matcher reads of the text

The positions of the text that each test looks at, and how far it moves the pointer.  Only `^`
and `\b` look back, so only they can read the byte in front of the text; `\b` steps over a byte
that it does not count, and the end of a pattern that meets the end of the text steps over that.

`textContract_iff`: a call reads inside the text and reports what it has moved over exactly when
none of its tests does one of these things and none leaves its own memory.
-/

namespace HapAndroid.Highlight

/-! ## Reads -/

namespace FileText

variable (t : FileText)

/-- What a loop over a class reads: its bytes and the one behind them. -/
def scanned (cls : UInt8 → Bool) (pos : Nat) : List Nat :=
  (List.range (t.run cls pos + 1)).map (pos + ·)

/-- What `strncmp(w, text, strlen(w))` reads of the text: up to the first difference. -/
def compared (w : Bytes) (pos : Nat) : List Nat :=
  (List.range (min w.length
    (((w.zip (t.rest pos)).takeWhile fun e => e.1 == e.2).length + 1))).map (pos + ·)

end FileText

/-- What `match_text` reads of the text at its pointer and behind it. -/
def elemAhead (t : FileText) (p : Bytes) (pos : Nat) (mem : Option Bytes) : List Nat :=
  (if isEscape p 'z' then [pos] else []) ++
    if isEscape p 'z' && isAlpha (t.byte pos) then
      match mem with
      | none => []
      | some [] => t.scanned isKeyword pos
      | some w => t.compared w pos
    else if isEscape p 's' then
      if p.getD 2 0 = 0x2A ∨ p.getD 2 0 = 0x2B then t.scanned isBlank pos else [pos]
    else if isEscape p 'w' then
      if p.getD 2 0 = 0x2B then t.scanned isKeyword pos else [pos]
    else if isEscape p 'b' then
      if isKeyword (t.prev pos) then [pos] else []
    else [pos]

/-- The place of a test. -/
def Probe.pos : Probe → Nat
  | .start pos => pos
  | .caret pos => pos
  | .lineEnd pos => pos
  | .elem _ pos _ => pos

/-- The positions that a test looks at. -/
def Probe.reads (t : FileText) : Probe → List Int
  | .start _ => []
  | .caret pos => [pos - 1]
  | .lineEnd pos => [pos]
  | .elem p pos mem =>
      (if isEscape p 'b' then [(pos : Int) - 1] else []) ++ (elemAhead t p pos mem).map Int.ofNat

/-- Where the pointer is after a test. -/
def Probe.after (t : FileText) : Probe → Nat
  | .start pos => pos
  | .caret pos => pos
  | .lineEnd pos => pos
  | .elem p pos mem => ((matchText t p pos mem).map (·.pos)).getD pos

/-- The pointer after some tests. -/
def endOf (t : FileText) (pos : Nat) (prs : List Probe) : Nat :=
  prs.foldl (fun _ pr => pr.after t) pos

/-- Where the pointer is after all tests of a call. -/
def cursor (t : FileText) (pos : Nat) (syn : Bytes) (mem : Option Bytes) : Nat :=
  endOf t pos (regionProbes t pos syn mem)

/-- The call returns, it reads between the first byte of the text and the zero byte at its end,
and a reported length is how far the pointer has moved. -/
def TextContract (t : FileText) (pos : Nat) (syn : Bytes) (mem : Option Bytes) : Prop :=
  ∃ r, matchRegion t pos syn mem = some r ∧
    (∀ pr ∈ regionProbes t pos syn mem, ∀ i ∈ pr.reads t, 0 ≤ i ∧ i ≤ t.length) ∧
    ∀ n, r.len = some n → cursor t pos syn mem = pos + n

/-! ## The tests that go wrong -/

/-- The test does not look at the byte in front of the text. -/
def Probe.LooksInside : Probe → Prop
  | .caret pos => pos ≠ 0
  | .elem p pos _ => isEscape p 'b' = true → pos ≠ 0
  | _ => True

/-- The test is no `\b` that matches at the end of an alternative. -/
def Probe.Counted (t : FileText) : Probe → Prop
  | .elem p pos _ => p = [0x5C, 0x62] → ¬t.WordEnd pos
  | _ => True

/-! ## Reads inside the text -/

section
variable {t : FileText} {p : Bytes} {pos : Nat} {mem : Option Bytes}

theorem le_of_mem_scanned {cls : UInt8 → Bool} {i : Nat} (hpos : pos ≤ t.length)
    (h : i ∈ t.scanned cls pos) : i ≤ t.length := by
  obtain ⟨k, hk, rfl⟩ := List.mem_map.mp h
  rw [List.mem_range] at hk
  have := FileText.run_le (p := cls) hpos
  omega

theorem le_of_mem_compared {w : Bytes} {i : Nat} (hpos : pos ≤ t.length)
    (h : i ∈ t.compared w pos) : i ≤ t.length := by
  obtain ⟨k, hk, rfl⟩ := List.mem_map.mp h
  rw [List.mem_range] at hk
  have hzip := (List.takeWhile_prefix (fun e => e.1 == e.2) :
    _ <+: w.zip (t.rest pos)).length_le
  rw [List.length_zip, FileText.rest, List.length_drop] at hzip
  unfold FileText.length at *
  unfold FileText.rest at hk
  omega

theorem le_of_mem_elemAhead {i : Nat} (hpos : pos ≤ t.length)
    (h : i ∈ elemAhead t p pos mem) : i ≤ t.length := by
  have hone : ∀ {j}, j ∈ [pos] → j ≤ t.length := fun hj => List.mem_singleton.mp hj ▸ hpos
  unfold elemAhead at h
  rcases List.mem_append.mp h with h | h
  · split at h
    · exact hone h
    · cases h
  · split at h
    · split at h
      · cases h
      · exact le_of_mem_scanned hpos h
      · exact le_of_mem_compared hpos h
    · split at h
      · split at h
        · exact le_of_mem_scanned hpos h
        · exact hone h
      · split at h
        · split at h
          · exact le_of_mem_scanned hpos h
          · exact hone h
        · split at h
          · split at h
            · exact hone h
            · cases h
          · exact hone h

/-- A test in the text reads inside of it unless it looks back from the first byte. -/
theorem Probe.reads_iff {pr : Probe} (hpos : pr.pos ≤ t.length) :
    (∀ i ∈ pr.reads t, 0 ≤ i ∧ i ≤ t.length) ↔ pr.LooksInside := by
  cases pr with
  | start pos => simp [reads, LooksInside]
  | caret pos =>
      have hpos : pos ≤ t.length := hpos
      simp only [reads, LooksInside, List.forall_mem_singleton]
      omega
  | lineEnd pos =>
      have hpos : pos ≤ t.length := hpos
      simp only [reads, LooksInside, List.forall_mem_singleton, iff_true]
      omega
  | elem p pos mem =>
      have hpos : pos ≤ t.length := hpos
      have hahead : ∀ i ∈ (elemAhead t p pos mem).map Int.ofNat, 0 ≤ i ∧ i ≤ t.length := by
        intro i hi
        obtain ⟨j, hj, rfl⟩ := List.mem_map.mp hi
        have := le_of_mem_elemAhead hpos hj
        simp only [Int.ofNat_eq_natCast]
        omega
      simp only [reads, LooksInside, List.forall_mem_append]
      split
      · next hb =>
        simp only [List.forall_mem_singleton, hb, forall_const]
        refine ⟨fun h => by omega, fun h => ⟨by omega, hahead⟩⟩
      · next hb => exact ⟨fun _ h => absurd h hb, fun _ => ⟨by simp, hahead⟩⟩

theorem LoopRun.pos_le {ret : Nat} {prs : List Probe} {res : Option (AltEnd × Option Bytes)}
    (h : LoopRun t p pos mem ret prs res) (hpos : pos ≤ t.length) :
    ∀ pr ∈ prs, pr.pos ≤ t.length := by
  induction h with
  | nil => simp
  | lineEnd | fault _ _ | stop _ _ _ => simpa [Probe.pos] using hpos
  | cons _ hr hlen _ ih =>
      exact List.forall_mem_cons.mpr ⟨hpos, ih ((sound_matchText hr).pos_le hlen hpos)⟩

theorem AltRun.pos_le {prs : List Probe} {res : Option (AltEnd × Option Bytes)}
    (h : AltRun t p pos mem prs res) (hpos : pos ≤ t.length) : ∀ pr ∈ prs, pr.pos ≤ t.length := by
  cases h with
  | plain _ hloop => exact List.forall_mem_cons.mpr ⟨hpos, hloop.pos_le hpos⟩
  | noLine _ _ | fault _ _ _ | stop _ _ _ _ => simpa [Probe.pos] using hpos
  | caret _ _ hr hlen hloop =>
      have hrest := hloop.pos_le ((sound_matchText hr).pos_le hlen hpos)
      exact List.forall_mem_cons.mpr ⟨hpos, List.forall_mem_cons.mpr
        ⟨hpos, List.forall_mem_cons.mpr ⟨hpos, hrest⟩⟩⟩

theorem AltsRun.pos_le {ps : List Bytes} {prs : List Probe} {res : Option RegionMatch}
    (h : AltsRun t pos ps mem prs res) (hpos : pos ≤ t.length) : ∀ pr ∈ prs, pr.pos ≤ t.length := by
  induction h with
  | nil => simp
  | fault halt | matched halt | leave halt => exact halt.pos_le hpos
  | next halt _ ih => exact List.forall_mem_append.mpr ⟨halt.pos_le hpos, ih⟩

/-! ## The length that is reported -/

theorem Probe.after_elem {r : TextMatch} (h : matchText t p pos mem = some r) :
    (Probe.elem p pos mem).after t = r.pos := by
  rw [after, h]
  rfl

/-- A `\b` never counts. -/
theorem matchText_wordEnd (t : FileText) (pos : Nat) (mem : Option Bytes) :
    matchText t [0x5C, 0x62] pos mem = some (matchWordEnd t [0x5C, 0x62] pos mem) := rfl

theorem counted_of_len_ne {r : TextMatch} (h : matchText t p pos mem = some r) (hlen : r.len ≠ 0) :
    (Probe.elem p pos mem).Counted t := by
  rintro rfl -
  rw [matchText_wordEnd, Option.some.injEq] at h
  refine hlen (h ▸ ?_)
  unfold matchWordEnd
  split <;> rfl

/-- A test that returns 0: it is a `\b` that uses the pattern up, and steps over a byte, or it
counts what it does. -/
theorem counted_of_len_zero {r : TextMatch} (h : matchText t p pos mem = some r) (hp : p ≠ [])
    (hlen : r.len = 0) :
    (r.pat = [] ∧ r.pos = pos + 1 ∧ ¬(Probe.elem p pos mem).Counted t) ∨
      r.pat ≠ [] ∧ (Probe.elem p pos mem).Counted t := by
  rcases matchText_len_zero h hlen with rfl | ⟨hb, hend, rfl⟩
  · refine .inr ⟨hp, ?_⟩
    rintro rfl hend
    rw [matchText_wordEnd, matchWordEnd, if_pos (by simpa [FileText.WordEnd] using hend)] at h
    cases h
  · obtain ⟨q, rfl⟩ : ∃ q, p = 0x5C :: 0x62 :: q := eq_cons_of_isEscape (by decide) hb
    cases q with
    | nil => exact .inl ⟨rfl, rfl, fun h => h rfl hend⟩
    | cons c q => exact .inr ⟨List.cons_ne_nil c q, fun h => by cases h⟩

/-- How the loop over the elements reports: exactly, if every test counts what it does; and only a
match has one that does not. -/
def Reports (t : FileText) (pos : Nat) (prs : List Probe) (stop : Nat) : AltEnd → Prop
  | .matched n => stop = pos + n ↔ ∀ pr ∈ prs, pr.Counted t
  | _ => ∀ pr ∈ prs, pr.Counted t

theorem Probe.counted_start (pos : Nat) : (Probe.start pos).Counted t := trivial

theorem Probe.counted_caret (pos : Nat) : (Probe.caret pos).Counted t := trivial

theorem Probe.counted_lineEnd (pos : Nat) : (Probe.lineEnd pos).Counted t := trivial

theorem Reports.cons {pr : Probe} (hpr : pr.Counted t) {start stop : Nat} {prs : List Probe}
    {e : AltEnd} (h : Reports t start prs stop e) : Reports t start (pr :: prs) stop e := by
  cases e with
  | matched n =>
      refine h.trans ?_
      rw [List.forall_mem_cons]
      exact ⟨fun hall => ⟨hpr, hall⟩, And.right⟩
  | next | leave => exact List.forall_mem_cons.mpr ⟨hpr, h⟩

theorem LoopRun.reports {start ret : Nat} {prs : List Probe} {e : AltEnd} {mem' : Option Bytes}
    (h : LoopRun t p pos mem ret prs (some (e, mem'))) (hpos : pos = start + ret) :
    Reports t start prs (endOf t pos prs) e := by
  generalize hres : some (e, mem') = res at h
  induction h with
  | nil =>
      cases hres
      simpa [Reports, endOf] using hpos
  | lineEnd =>
      cases hres
      refine Reports.cons (Probe.counted_lineEnd _) ?_
      split
      · simpa [Reports, endOf, Probe.after] using hpos
      · simp [Reports]
  | fault _ _ => cases hres
  | @stop c p pos mem ret r _ hr hlen =>
      cases hres
      rcases counted_of_len_zero hr (List.cons_ne_nil c p) hlen with ⟨hpat, hstep, hnot⟩ | ⟨hpat, hyes⟩
      · -- The `\b` has moved the pointer and is not in the length.
        rw [if_pos hpat]
        refine iff_of_false ?_ fun hall => hnot (hall _ List.mem_cons_self)
        show (Probe.elem (c :: p) pos mem).after t ≠ start + ret
        rw [Probe.after_elem hr]
        omega
      · rw [if_neg hpat]
        exact List.forall_mem_singleton.mpr hyes
  | cons _ hr hlen _ ih =>
      have hnext := (sound_matchText hr).pos_eq hlen
      have hrest := ih (by omega) hres
      rw [← Probe.after_elem hr] at hrest
      exact Reports.cons (counted_of_len_ne hr hlen) hrest

/-- At the start of a line no word ends. -/
theorem not_wordEnd_of_lineStart (h : t.LineStart pos) : ¬t.WordEnd pos := by
  rintro ⟨hprev, -⟩
  rcases h with h | h <;> simp [h, isKeyword, isAlpha] at hprev

theorem AltRun.reports {prs : List Probe} {e : AltEnd} {mem' : Option Bytes}
    (h : AltRun t p pos mem prs (some (e, mem'))) (x : Nat) :
    Reports t pos prs (endOf t x prs) e := by
  generalize hres : some (e, mem') = res at h
  cases h with
  | plain _ hloop =>
      subst hres
      exact Reports.cons (Probe.counted_start pos) (hloop.reports (Nat.add_zero pos).symm)
  | noLine _ _ =>
      cases hres
      exact List.forall_mem_cons.mpr ⟨trivial, List.forall_mem_singleton.mpr trivial⟩
  | fault _ _ _ => cases hres
  | stop _ hline _ _ =>
      cases hres
      have helem : (Probe.elem (p.drop 1) pos mem).Counted t :=
        fun _ => not_wordEnd_of_lineStart hline
      exact List.forall_mem_cons.mpr ⟨trivial, List.forall_mem_cons.mpr
        ⟨trivial, List.forall_mem_singleton.mpr helem⟩⟩
  | caret _ hline hr hlen hloop =>
      subst hres
      have hrest := hloop.reports ((sound_matchText hr).pos_eq hlen)
      rw [← Probe.after_elem hr] at hrest
      exact Reports.cons (Probe.counted_start pos) (Reports.cons (Probe.counted_caret pos)
        (Reports.cons (counted_of_len_ne hr hlen) hrest))

theorem AltsRun.reports {ps : List Bytes} {prs : List Probe} {r : RegionMatch}
    (h : AltsRun t pos ps mem prs (some r)) (x : Nat) :
    (∀ n, r.len = some n → endOf t x prs = pos + n) ↔ ∀ pr ∈ prs, pr.Counted t := by
  generalize hres : some r = res at h
  induction h generalizing x with
  | nil =>
      cases hres
      simp
  | fault _ => cases hres
  | matched halt =>
      cases hres
      rw [← show _ ↔ _ from halt.reports x]
      exact ⟨fun h => h _ rfl, fun h n hn => Option.some.inj hn ▸ h⟩
  | leave halt =>
      cases hres
      exact iff_of_true (fun n hn => by cases hn) (halt.reports x)
  | next halt _ ih =>
      have hfirst := halt.reports x
      rw [endOf, List.foldl_append, List.forall_mem_append]
      refine (ih _ hres).trans ⟨fun hall => ⟨hfirst, hall⟩, And.right⟩

end

/-- A call from a position in the text reads inside of the text and reports how far it has moved,
exactly when the pattern fits into the buffer and every test stays in its memory, looks at nothing
in front of the text and is no `\b` that ends a match. -/
theorem textContract_iff {t : FileText} {pos : Nat} (hpos : pos ≤ t.length) (syn : Bytes)
    (mem : Option Bytes) : TextContract t pos syn mem ↔
      syn.length < maxSplitMatchLength ∧ ∀ pr ∈ regionProbes t pos syn mem,
        pr.InMemory t ∧ pr.LooksInside ∧ pr.Counted t := by
  have hrun : AltsRun t pos (syn.splitOn 0x7C) mem (regionProbes t pos syn mem)
      (matchAlts t pos (syn.splitOn 0x7C) mem) := altsRun pos _ mem
  have hreads : (∀ pr ∈ regionProbes t pos syn mem, ∀ i ∈ pr.reads t, 0 ≤ i ∧ i ≤ t.length) ↔
      ∀ pr ∈ regionProbes t pos syn mem, pr.LooksInside :=
    forall₂_congr fun pr hpr => Probe.reads_iff (hrun.pos_le hpos pr hpr)
  have hsplit : (∀ pr ∈ regionProbes t pos syn mem, pr.InMemory t ∧ pr.LooksInside ∧ pr.Counted t) ↔
      (∀ pr ∈ regionProbes t pos syn mem, pr.InMemory t) ∧
        (∀ pr ∈ regionProbes t pos syn mem, pr.LooksInside) ∧
          ∀ pr ∈ regionProbes t pos syn mem, pr.Counted t := by
    simp only [forall_and]
  have hreports : ∀ r, matchRegion t pos syn mem = some r →
      ((∀ n, r.len = some n → cursor t pos syn mem = pos + n) ↔
        ∀ pr ∈ regionProbes t pos syn mem, pr.Counted t) := by
    intro r hr
    have hlen := (matchRegion_isSome_iff.mp (hr ▸ rfl : (matchRegion t pos syn mem).isSome = true)).1
    rw [matchRegion, if_pos hlen] at hr
    rw [hr] at hrun
    exact hrun.reports pos
  rw [hsplit, ← and_assoc, ← matchRegion_isSome_iff, TextContract]
  constructor
  · rintro ⟨r, hr, hin, hcount⟩
    exact ⟨hr ▸ rfl, hreads.mp hin, (hreports r hr).mp hcount⟩
  · rintro ⟨hsome, hin, hcount⟩
    obtain ⟨r, hr⟩ := Option.isSome_iff_exists.mp hsome
    exact ⟨r, hr, hreads.mpr hin, (hreports r hr).mpr hcount⟩

theorem zero_notMem_ab : (0 : UInt8) ∉ [0x61, 0x62] := by decide

/-- The text `ab`. -/
def abText : FileText := ⟨[0x61, 0x62], zero_notMem_ab, 0⟩

/-- The pattern `b$|\s` at the `b` of `ab`. -/
theorem textContract_lineEnd : TextContract abText 1 [0x62, 0x24, 0x7C, 0x5C, 0x73] none := by
  refine (textContract_iff (by decide) _ _).mpr ⟨by decide, ?_⟩
  have hprobes : regionProbes abText 1 [0x62, 0x24, 0x7C, 0x5C, 0x73] none =
      [.start 1, .elem [0x62, 0x24] 1 none, .lineEnd 2] := by decide
  rw [hprobes]
  simp [Probe.InMemory, Probe.LooksInside, Probe.Counted, ZInMemory, isEscape]

/-- A `^` at the first byte reads the byte in front of the text. -/
theorem caret_reads_before : ¬TextContract abText 0 [0x5E, 0x61] none := by
  rintro ⟨r, -, hin, -⟩
  have h := hin (.caret 0) (by decide) (-1) (by decide)
  exact absurd h.1 (by decide)

end HapAndroid.Highlight
