import HapAndroid.Highlight.Progress

/-!
# Where `scan_syntax` returns

A call of `scan_syntax` for a tag leaves its loops at five places.  `Scan.Returned` is what holds
at each of them: the text ends there, or the end of the tag stands there.  In the second case the
step of `parse_file` behind the call takes the end (`closes_of_startsWith`).
-/

namespace HapAndroid.Highlight

open Machine

namespace Scan

variable {e : ScanEnv} {s u : Scan}

/-- A call that has returned is at the end of the text or of the tag; one that is going on is
inside the text. -/
structure Returned (e : ScanEnv) (s : Scan) : Prop where
  stop : s.pc = .stop → e.endText s.pos = true
  le_length : s.pc ≠ .fault → s.pos ≤ e.text.length

theorem returned_step (h : Returned e s) : Returned e (step e s) := by
  by_cases hhalt : s.pc = .stop ∨ s.pc = .fault
  · rw [step_halted hhalt]
    exact h
  · obtain ⟨hstop, hfault⟩ := not_or.mp hhalt
    exact ⟨endText_step hstop, (pos_le_length_step (h.le_length hfault)).resolve_left⟩

theorem returned_of_reaches (hpc : s.pc = .enter) (hpos : s.pos ≤ e.text.length)
    (h : Reaches (step e) s u) : Returned e u :=
  h.invariant (fun _ => returned_step) ⟨fun hstop => by simp [hpc] at hstop, fun _ => hpos⟩

end Scan

namespace Parse

variable {e : ParseEnv}

theorem byte_ne_zero_of_startsWith {t : FileText} {pos : Nat} {w : Bytes} (hw : w ≠ [])
    (h : w <+: t.rest pos) : t.byte pos ≠ 0 := by
  refine FileText.byte_ne_zero ?_
  have hle := h.length_le
  have hlen := List.length_pos_iff.mpr hw
  rw [FileText.rest, List.length_drop] at hle
  unfold FileText.length
  omega

/-- Where the end of the tag stands, `parse_file` takes it after the call. -/
theorem closes_of_startsWith {tag : Tag} {w : Bytes} (htag : tag.pat.end = some w) (hw : w ≠ [])
    {u : Scan} (hstop : u.pc = .stop) (h : w <+: e.text.rest u.pos) (tagStart : Nat) :
    (step e)^[2] ⟨.scanning (some tag), u, tagStart⟩ =
      (closeTag ⟨.after tag, u, tagStart⟩ tag).goto .head := by
  have hleave : step e ⟨.scanning (some tag), u, tagStart⟩ = ⟨.after tag, u, tagStart⟩ := by
    simp [step, hstop, goto]
  have hend : atEnd e ⟨.after tag, u, tagStart⟩ tag = true := by
    rw [atEnd, htag]
    exact List.isPrefixOf_iff_prefix.mpr h
  rw [Function.iterate_succ_apply, hleave]
  exact step_closeTag rfl (byte_ne_zero_of_startsWith hw h) hend

/-- Every call of `scan_syntax` for a tag that returns, returns the end of the text or a place
where the end of the tag stands; there `parse_file` takes it. -/
theorem scan_returns_at_tag (e : ParseEnv) {tag : Tag} {w : Bytes} (htag : tag.pat.end = some w)
    (hw : w ≠ []) {s u : Scan} (hpc : s.pc = .enter) (hpos : s.pos ≤ e.text.length)
    (hrun : Reaches (Scan.step (e.scanEnv (some tag))) s u) (hstop : u.pc = .stop) :
    u.pos = e.text.length ∨ w <+: e.text.rest u.pos ∧ ∀ tagStart,
      (step e)^[2] ⟨.scanning (some tag), u, tagStart⟩ =
        (closeTag ⟨.after tag, u, tagStart⟩ tag).goto .head := by
  have hret : Scan.Returned (e.scanEnv (some tag)) u := Scan.returned_of_reaches hpc hpos hrun
  have hle : u.pos ≤ e.text.length := hret.le_length (by simp [hstop])
  rcases Bool.or_eq_true_iff.mp (hret.stop hstop) with h0 | hany
  · refine .inl (Nat.le_antisymm hle (Nat.le_of_not_lt fun hlt => ?_))
    exact FileText.byte_ne_zero hlt (of_decide_eq_true h0)
  · have htagEnd : (e.scanEnv (some tag)).tagEnd = some w := htag
    rw [htagEnd] at hany
    have hstands : w <+: e.text.rest u.pos := List.isPrefixOf_iff_prefix.mp hany
    exact .inr ⟨hstands, closes_of_startsWith htag hw hstop hstands⟩

/-- A block between `<?` and `?>`. -/
def blockTag : Tag :=
  ⟨⟨some (bytes "<?"), none, some (bytes "?>"), none, some (bytes "x"), none, none, 7⟩, 7⟩

def blockEnv : ParseEnv := ⟨⟨bytes "<?a?>", by decide +kernel, 0⟩, ⟨[], [], [blockTag.pat]⟩, []⟩

/-- The call behind the start of the block. -/
def blockCall : Scan := ⟨.enter, 2, 2, 0, [], []⟩

/-- The call returns in front of `?>`, which ends the text. -/
theorem scan_returns_at_block :
    let u := (Scan.step (blockEnv.scanEnv (some blockTag)))^[8] blockCall
    u.pc = .stop ∧ u.pos = 3 ∧ bytes "?>" <+: blockEnv.text.rest u.pos ∧
      ∀ tagStart, (step blockEnv)^[2] ⟨.scanning (some blockTag), u, tagStart⟩ =
        (closeTag ⟨.after blockTag, u, tagStart⟩ blockTag).goto .head := by
  intro u
  have hend : blockTag.pat.end = some (bytes "?>") := rfl
  have hstop : u.pc = .stop := by decide +kernel
  have hpos : u.pos = 3 := by decide +kernel
  rcases scan_returns_at_tag blockEnv hend (by decide) rfl (by decide +kernel) ⟨8, rfl⟩ hstop with
    hlen | hstands
  · rw [hpos] at hlen
    exact absurd hlen (by decide +kernel)
  · exact ⟨hstop, hpos, hstands⟩

end Parse

end HapAndroid.Highlight
