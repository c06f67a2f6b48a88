import HapAndroid.Highlight.Render
import HapAndroid.Lib.Run
import HapAndroid.Platform.Files

/-!
# The pool of span objects (`highlight.java`)

`render` keeps its span objects in a static list.  A call takes every object out of the
buffer, and then gives the first object the range of the first triple it shows, the second
one that of the second, and so on; only when the list is used up a new object is made.  An
object keeps the colour it was made with: the line that would change it is commented out.

So the colours of a call are those of the calls in which the objects were made.
`placed_renderLoop` says which spans a call leaves, and `renders_right` that they are
the right ones in every run in which each call finds the colours it needs at their place
in the list.
-/

namespace HapAndroid.Highlight

/-! ## The calls -/

/-- The fields of a `highlight` object, the static list and the buffer. -/
structure Highlighter where
  mExt : Text
  mStartOffset : Int
  mEndOffset : Int
  mStop : Bool
  spans : Spans

/-- An argument of `render`, with what `jni_parse` answers. -/
structure Render where
  startOffset : Int
  endOffset : Int
  ret : Option (List Int)

/-- `removeSpan` for each object of the list. -/
def Spans.clear (s : Spans) : Spans :=
  ⟨s.mSpans, fun i => if i < s.mSpans.length then none else s.range i, 0⟩

/-- `render`.  The files of `langTab` are found by the extension. -/
def render (langTab : Text → Bool) (h : Highlighter) (a : Render) : Bool × Highlighter :=
  if h.mStop || h.mExt = [] then (false, h)
  else if h.mStartOffset ≤ a.startOffset ∧ h.mEndOffset ≥ a.endOffset then (false, h)
  else if !langTab h.mExt then (false, h)
  else
    -- `mStop` is set while the call runs.
    let h := { h with mStartOffset := a.startOffset, mEndOffset := a.endOffset }
    match a.ret with
    | none => (false, h)
    | some ret =>
        -- `len % 3.0F` says the same up to 2^24 cells, which a float counts exactly.
        if ret.length < 1 ∨ ret.length % 3 ≠ 0 then (false, h)
        else
          let r := renderLoop a.startOffset h.spans.mSpans.length ret h.spans.clear
          (r.1, { h with spans := r.2 })

/-- What is done with a `highlight` object. -/
inductive Use where
  | setSyntaxType (ext : Text)
  | stop
  | redraw
  | render (a : Render)

def perform (langTab : Text → Bool) (h : Highlighter) : Use → Option Highlighter
  | .setSyntaxType ext => some { h with mExt := ext }
  | .stop => some { h with mStop := true }
  | .redraw => some { h with mStop := false, mStartOffset := -1, mEndOffset := -1 }
  | .render a => some (render langTab h a).2

/-! ## The property -/

/-- The triples whose end is not before the start of the visible part, with their
colours. -/
def kept (startOffset : Int) : List Int → List ((Int × Int) × Color)
  | id :: start :: stop :: ret =>
      match colorOf id with
      | none => []
      | some color =>
          if stop < startOffset then kept startOffset ret
          else ((start, stop), color) :: kept startOffset ret
  | _ => []

/-- An object of the list that is in the buffer: its range and its colour. -/
def Spans.at (s : Spans) (i : Nat) : Option ((Int × Int) × Color) :=
  (s.range i).bind fun r => (s.mSpans[i]?).map fun c => (r, c)

/-- The spans in the buffer. -/
def Spans.shown (s : Spans) : List ((Int × Int) × Color) :=
  (List.range s.mSpans.length).filterMap s.at

/-- Only objects of the list are in the buffer. -/
def Spans.InPool (s : Spans) : Prop := ∀ i, s.mSpans.length ≤ i → s.range i = none

/-- The spans are those of the triples, each with its range and its colour. -/
def Spans.Shows (s : Spans) (startOffset : Int) (ret : List Int) : Prop :=
  s.InPool ∧ s.shown.Perm (kept startOffset ret)

/-- A call that returns `true` shows what it should. -/
def RendersRight (langTab : Text → Bool) (h : Highlighter) : Use → Prop
  | .render a => (render langTab h a).1 = true →
      ∃ ret, a.ret = some ret ∧ (render langTab h a).2.spans.Shows a.startOffset ret
  | _ => True

/-- Each object that a call will use again has the colour of its triple. -/
def FindsColours (h : Highlighter) : Use → Prop
  | .render a => ∀ ret, a.ret = some ret →
      ∀ p ∈ h.spans.mSpans.zip (kept a.startOffset ret), p.1 = p.2.2
  | _ => True

/-! ## One call -/

/-- Spans put on objects: the colours of the objects first, then the right ones. -/
def putOn : List Color → List ((Int × Int) × Color) → List ((Int × Int) × Color)
  | _, [] => []
  | [], k :: ks => k :: putOn [] ks
  | c :: pool, k :: ks => (k.1, c) :: putOn pool ks

theorem putOn_nil (ks : List ((Int × Int) × Color)) : putOn [] ks = ks := by
  induction ks with
  | nil => rfl
  | cons k ks ih => rw [putOn, ih]

theorem putOn_eq_iff (pool : List Color) (ks : List ((Int × Int) × Color)) :
    putOn pool ks = ks ↔ ∀ p ∈ pool.zip ks, p.1 = p.2.2 := by
  induction ks generalizing pool with
  | nil => simp [putOn]
  | cons k ks ih =>
      cases pool with
      | nil => simp [putOn_nil]
      | cons c pool =>
          rw [putOn, List.cons.injEq, ih, List.zip_cons_cons, List.forall_mem_cons]
          refine and_congr ⟨fun h => ?_, fun h => ?_⟩ Iff.rfl
          · rw [← h]
          · rw [show c = k.2 from h]

/-- The loop has used the first `index` objects, in order, and made those beyond
`bufLen`. -/
structure Spans.Placing (s : Spans) (bufLen : Nat) : Prop where
  length : s.mSpans.length = max bufLen s.index
  unused : ∀ i, s.index ≤ i → s.range i = none

/-- The spans on the objects that were used. -/
def Spans.placed (s : Spans) : List ((Int × Int) × Color) :=
  (List.range s.index).filterMap s.at

section loop
variable {s : Spans} {bufLen : Nat}

theorem Spans.Placing.place (h : s.Placing bufLen) (color : Color) (start stop : Int) :
    (s.place bufLen color start stop).Placing bufLen := by
  have hlen := h.length
  rw [Spans.place]
  split
  · next hnew =>
    have hlast : s.mSpans.length = s.index := by omega
    refine ⟨by simp only [List.length_append, List.length_singleton]; omega, fun i hi => ?_⟩
    simp only at hi ⊢
    rw [Function.update_of_ne (by omega), h.unused i (by omega)]
  · next hold =>
    refine ⟨by simp only; omega, fun i hi => ?_⟩
    simp only at hi ⊢
    rw [Function.update_of_ne (by omega), h.unused i (by omega)]

/-- What is set on an object when it is given a range. -/
theorem Spans.Placing.placed_place (h : s.Placing bufLen) (color : Color) (start stop : Int) :
    (s.place bufLen color start stop).placed =
      s.placed ++ [((start, stop), (s.mSpans[s.index]?).getD color)] := by
  have hlen := h.length
  have hindex : (s.place bufLen color start stop).index = s.index + 1 := by
    rw [Spans.place]
    split <;> rfl
  have hbefore : ∀ i < s.index, (s.place bufLen color start stop).at i = s.at i := by
    intro i hi
    rw [Spans.place]
    split
    · next hnew => simp [Spans.at, Function.update_of_ne (show i ≠ s.mSpans.length by omega),
        List.getElem?_append_left (show i < s.mSpans.length by omega)]
    · next hold => simp [Spans.at, Function.update_of_ne (show i ≠ s.index by omega)]
  have hlast : (s.place bufLen color start stop).at s.index =
      some ((start, stop), (s.mSpans[s.index]?).getD color) := by
    rw [Spans.place]
    split
    · next hnew =>
      have hend : s.mSpans.length = s.index := by omega
      simp [Spans.at, hend]
    · next hold =>
      have hget := List.getElem?_eq_getElem (show s.index < s.mSpans.length by omega)
      simp [Spans.at, hget]
  rw [Spans.placed, hindex, List.range_succ, List.filterMap_append, Spans.placed]
  congr 1
  · exact List.filterMap_congr fun i hi => hbefore i (List.mem_range.mp hi)
  · simp [hlast]

/-- The objects that are left for the next triples. -/
theorem Spans.Placing.drop_place (h : s.Placing bufLen) (color : Color) (start stop : Int)
    (ks : List ((Int × Int) × Color)) :
    putOn (s.mSpans.drop s.index) (((start, stop), color) :: ks) =
      ((start, stop), (s.mSpans[s.index]?).getD color) ::
        putOn ((s.place bufLen color start stop).mSpans.drop
          (s.place bufLen color start stop).index) ks := by
  have hlen := h.length
  rw [Spans.place]
  split
  · next hnew =>
    have hend : s.mSpans.length = s.index := by omega
    rw [List.drop_eq_nil_of_le (by omega), List.drop_eq_nil_of_le (by simp; omega), putOn,
      List.getElem?_eq_none (by omega)]
    rfl
  · next hold =>
    have hlt : s.index < s.mSpans.length := by omega
    rw [List.drop_eq_getElem_cons hlt, putOn, List.getElem?_eq_getElem hlt]
    rfl

/-- The spans of a call. -/
theorem placed_renderLoop (startOffset : Int) (ret : List Int) (h : s.Placing bufLen) :
    (renderLoop startOffset bufLen ret s).2.Placing bufLen ∧
      (renderLoop startOffset bufLen ret s).2.placed =
        s.placed ++ putOn (s.mSpans.drop s.index) (kept startOffset ret) := by
  fun_induction renderLoop startOffset bufLen ret s with
  | case1 id start stop ret s hnone =>
      refine ⟨h, ?_⟩
      rw [kept, hnone, putOn, List.append_nil]
  | case2 id start stop ret s color hcolor hbefore ih =>
      have hkept : kept startOffset (id :: start :: stop :: ret) = kept startOffset ret := by
        rw [kept, hcolor]
        exact if_pos hbefore
      rw [hkept]
      exact ih h
  | case3 id start stop ret s color hcolor hnot ih =>
      have hkept : kept startOffset (id :: start :: stop :: ret) =
          ((start, stop), color) :: kept startOffset ret := by
        rw [kept, hcolor]
        exact if_neg hnot
      obtain ⟨hplacing, hplaced⟩ := ih (h.place color start stop)
      refine ⟨hplacing, ?_⟩
      rw [hplaced, h.placed_place, hkept, h.drop_place, List.append_assoc]
      rfl
  | case4 ret s hshort =>
      have hkept : kept startOffset ret = [] := by
        rw [kept]
        exact hshort
      refine ⟨h, ?_⟩
      rw [hkept, putOn, List.append_nil]

theorem Spans.Placing.shown_eq (h : s.Placing bufLen) : s.shown = s.placed := by
  obtain ⟨k, hk⟩ : ∃ k, s.mSpans.length = s.index + k := Nat.exists_eq_add_of_le (by
    have := h.length
    omega)
  rw [Spans.shown, hk, List.range_add, List.filterMap_append, ← Spans.placed]
  have hrest : ((List.range k).map (s.index + ·)).filterMap s.at = [] := by
    rw [List.filterMap_eq_nil_iff]
    intro i hi
    obtain ⟨j, -, rfl⟩ := List.mem_map.mp hi
    rw [Spans.at, h.unused _ (by omega), Option.bind_none]
  rw [hrest, List.append_nil]

theorem Spans.Placing.inPool (h : s.Placing bufLen) : s.InPool := by
  intro i hi
  have := h.length
  exact h.unused i (by omega)

theorem Spans.InPool.placing_clear (h : s.InPool) : s.clear.Placing s.mSpans.length := by
  refine ⟨(Nat.max_zero _).symm, fun i _ => ?_⟩
  show (if i < s.mSpans.length then none else s.range i) = none
  split
  · rfl
  · next hi => exact h i (by omega)

end loop

section call
variable {langTab : Text → Bool} {h : Highlighter} {a : Render}

/-- A call that returns `true` has gone through the array. -/
theorem render_eq_true (htrue : (render langTab h a).1 = true) :
    ∃ ret, a.ret = some ret ∧ (render langTab h a).2.spans =
      (renderLoop a.startOffset h.spans.mSpans.length ret h.spans.clear).2 := by
  rw [render] at htrue ⊢
  split at htrue
  · cases htrue
  · next h1 =>
    rw [if_neg h1]
    split at htrue
    · cases htrue
    · next h2 =>
      rw [if_neg h2]
      split at htrue
      · cases htrue
      · next h3 =>
        rw [if_neg h3]
        cases hret : a.ret with
        | none =>
            rw [hret] at htrue
            cases htrue
        | some ret =>
            rw [hret] at htrue
            dsimp only at htrue ⊢
            split at htrue
            · cases htrue
            · next h4 => exact ⟨ret, rfl, by rw [if_neg h4]⟩

/-- Every call leaves only objects of the list in the buffer. -/
theorem inPool_render (hpool : h.spans.InPool) : (render langTab h a).2.spans.InPool := by
  rw [render]
  split
  · exact hpool
  split
  · exact hpool
  split
  · exact hpool
  cases a.ret with
  | none => exact hpool
  | some ret =>
      dsimp only
      split
      · exact hpool
      · exact (placed_renderLoop a.startOffset ret hpool.placing_clear).1.inPool

theorem inPool_use {u : Use} {h' : Highlighter} (hpool : h.spans.InPool)
    (huse : perform langTab h u = some h') : h'.spans.InPool := by
  cases u with
  | render a =>
      cases huse
      exact inPool_render hpool
  | setSyntaxType ext | stop | redraw =>
      cases huse
      exact hpool

/-- The spans after a call that returns `true`. -/
theorem shown_render (hpool : h.spans.InPool) (htrue : (render langTab h a).1 = true) :
    ∃ ret, a.ret = some ret ∧ (render langTab h a).2.spans.shown =
      putOn h.spans.mSpans (kept a.startOffset ret) := by
  obtain ⟨ret, hret, hspans⟩ := render_eq_true htrue
  obtain ⟨hplacing, hplaced⟩ := placed_renderLoop a.startOffset ret hpool.placing_clear
  refine ⟨ret, hret, ?_⟩
  rw [hspans, hplacing.shown_eq, hplaced]
  rfl

/-- A call that finds the colours it needs shows what it should. -/
theorem rendersRight_of_findsColours (hpool : h.spans.InPool) {u : Use}
    (hfinds : FindsColours h u) : RendersRight langTab h u := by
  cases u with
  | render a =>
      intro htrue
      obtain ⟨ret, hret, hshown⟩ := shown_render hpool htrue
      refine ⟨ret, hret, inPool_render hpool, ?_⟩
      rw [hshown, (putOn_eq_iff _ _).mpr (hfinds ret hret)]
  | setSyntaxType ext | stop | redraw => trivial

end call

/-! ## Runs -/

/-- In a run in which every call finds the colours it needs, every call that returns `true`
shows what it should. -/
theorem renders_right (langTab : Text → Bool) (h : Highlighter) (hpool : h.spans.InPool)
    (uses : List Use) (hfinds : Run.Along (perform langTab) FindsColours h uses) :
    Run.Along (perform langTab) (RendersRight langTab) h uses := by
  induction uses generalizing h with
  | nil => trivial
  | cons u uses ih =>
      refine ⟨rendersRight_of_findsColours hpool hfinds.1, fun h' huse => ?_⟩
      exact ih h' (inPool_use hpool huse) (hfinds.2 h' huse)

/-- A new object, with nothing shown. -/
def Highlighter.fresh : Highlighter := ⟨[], -1, -1, true, ⟨[], fun _ => none, 0⟩⟩

/-- Two calls, the second after a change of the text. -/
def twoRenders (first second : List Int) : List Use :=
  [.setSyntaxType ['c'], .redraw, .render ⟨0, 9, some first⟩, .redraw, .render ⟨0, 9, some second⟩]

theorem renders_right_keywords :
    Run.Along (perform fun _ => true) (RendersRight fun _ => true) .fresh
      (twoRenders [4, 0, 2] [4, 3, 5]) := by
  refine renders_right _ _ (fun i _ => rfl) _ ?_
  refine Run.along_cons rfl trivial (Run.along_cons rfl trivial ?_)
  refine Run.along_cons rfl ?_ (Run.along_cons rfl trivial (Run.along_cons rfl ?_ trivial))
  all_goals
    intro ret hret
    cases hret
    decide +kernel

/-- A keyword and then a comment: the comment has the colour of the keyword. -/
theorem second_render_wrong :
    ¬Run.Along (perform fun _ => true) (RendersRight fun _ => true) .fresh
      (twoRenders [4, 0, 2] [2, 0, 5]) := by
  intro h
  have hrun : Run.run (perform fun _ => true) .fresh ((twoRenders [4, 0, 2] [2, 0, 5]).take 4) =
      some _ := rfl
  have hsecond := h.event hrun
  obtain ⟨ret, hret, -, hperm⟩ := hsecond (by decide +kernel)
  cases hret
  exact absurd hperm (by decide +kernel)

end HapAndroid.Highlight
