import HapAndroid.Lib.Regex
import HapAndroid.Lib.Run
import HapAndroid.Platform.Files

/-!
# The colours of the editor (`Edit_mode.java`)

`SpText` colours a text with seven patterns when a mode is opened, and a text watcher
colours it again after every change.  The watcher has a table of its own: the patterns for
requests are others, and the first of them can match nothing.  It puts new spans over the
old ones and takes none away, and its `onTextChanged` looks at the character at the place
of the change, which throws when nothing is left there.  The watcher is there before the
text is set, so it has run once when the mode is open.

A span stays on the characters of its range that survive a change.  A change between two
of its characters becomes part of the range, and one at its ends does not.

`colour_reached` has the condition under which the colours are those of `SpText`: no text
holds a request, and no change leaves a coloured character outside the brackets and
comments of the new text.
-/

namespace HapAndroid.EditColours

open Regex

/-! ## The tables -/

/-- The colours, in the order of the tables. -/
inductive Paint where
  | requestLine
  | requestEnd
  | requestHead
  | request
  | bracket
  | percent
  | comment
deriving DecidableEq

/-- `.`: every character that ends no line. -/
def dot (c : Char) : Bool := !isLineTerminator c

/-- `(请求|http-request)`. -/
def requests : List Text := ["请求".toList, "http-request".toList]

/-- `^`, which stands for the beginning of the text. -/
def atStart (pos : Nat) (_ : Text) : Bool := pos = 0

/-- `$`: the end of the text, or the end of its last line. -/
def atEnd (_ : Nat) : Text → Bool
  | [] => true
  | [c] => !dot c
  | t => t = ['\r', '\n']

/-- The patterns both tables end with. -/
def marks : List (List (Piece Char) × Paint) :=
  [(between ['['] dot ']', .bracket),
   (between ['%', '['] dot ']', .percent),
   (between ['#'] dot '\n', .comment)]

/-- The patterns of `SpText` for requests. -/
def spRequests : List (List (Piece Char) × Paint) :=
  [([.word requests, .word [[' ']], .star dot, .word [['\n']]], .requestLine),
   ([.word requests, .word [[' ']], .lazyStar dot, .word [[' ']], .star dot, .word [['!', ' ']]],
      .requestEnd),
   ([.word requests, .word [[' ']], .lazyStar dot, .word [[' ']]], .requestHead),
   ([.word [[' ']], .word requests, .word [[' ']]], .request)]

/-- The patterns of the watcher for requests. -/
def watcherRequests : List (List (Piece Char) × Paint) :=
  [([.word requests, .word [[' ']], .look atStart, .star dot, .look atEnd, .word [['\n']]],
      .requestLine),
   ([.word requests, .word [[' ']], .lazyStar dot, .word [[' ']], .star dot,
      .word [['!', ' ', '\n']]], .requestEnd),
   ([.word requests, .word [[' ']], .lazyStar dot, .word [[' ']], .word [['\n']]], .requestHead),
   ([.word requests], .request)]

/-! ## Spans -/

/-- A colour on a range. -/
structure Span where
  paint : Paint
  start : Nat
  stop : Nat
deriving DecidableEq

def Span.covers (s : Span) (k : Nat) : Bool := s.start ≤ k && k < s.stop

/-- The loop over a table: a span for each match. -/
def spansOf (table : List (List (Piece Char) × Paint)) (str : Text) : List Span :=
  table.flatMap fun rule => (allMatches rule.1 str).map fun m => ⟨rule.2, m.1, m.2⟩

/-- `SpText`. -/
def spText (str : Text) : List Span := spansOf (spRequests ++ marks) str

/-- The spans `afterTextChanged` sets. -/
def watched (str : Text) : List Span := spansOf (watcherRequests ++ marks) str

/-- The colour of a character: the span set last is drawn last. -/
def colourAt (spans : List Span) (k : Nat) : Option Paint :=
  (spans.reverse.find? (·.covers k)).map (·.paint)

/-! ## Changes -/

/-- The characters from `start` to `stop` are replaced. -/
structure Edit where
  start : Nat
  stop : Nat
  insert : Text

def Edit.apply (e : Edit) (str : Text) : Text := str.take e.start ++ e.insert ++ str.drop e.stop

/-- A span that excludes what is inserted at its ends. -/
def Edit.move (e : Edit) (s : Span) : Span :=
  { s with
    start := if s.start < e.start then s.start
      else if s.start < e.stop then e.start + e.insert.length
      else s.start - (e.stop - e.start) + e.insert.length
    stop := if s.stop ≤ e.start then s.stop
      else if s.stop ≤ e.stop then e.start
      else s.stop - (e.stop - e.start) + e.insert.length }

/-- The spans after a change.  Those on nothing are removed. -/
def Edit.carry (e : Edit) (spans : List Span) : List Span :=
  (spans.map e.move).filter fun s => s.start < s.stop

/-- A text field. -/
structure Field where
  text : Text
  spans : List Span

/-- `setText(SpText(str))`.  On the empty text the watcher throws. -/
def opened (str : Text) : Option Field :=
  if str = [] then none else some ⟨str, spText str ++ watched str⟩

/-- A change with the callbacks of the watcher. -/
def edit (f : Field) (e : Edit) : Option Field :=
  if e.start ≤ e.stop ∧ e.stop ≤ f.text.length then
    let str := e.apply f.text
    -- `s.charAt(start)` throws at the end of the text.
    if str.length ≤ e.start then none
    else some ⟨str, e.carry f.spans ++ watched str⟩
  else none

/-! ## The property -/

/-- Every character has the colour `SpText` would give it. -/
def Coloured (f : Field) : Prop :=
  ∀ k < f.text.length, colourAt f.spans k = colourAt (spText f.text) k

/-- No request stands in a text. -/
def NoRequest (str : Text) : Prop := ∀ w ∈ requests, ¬w <:+: str

/-- A place in a bracket, in a bracket with a percent sign, or in a comment. -/
def Marked (str : Text) (k : Nat) : Prop :=
  ∃ mark ∈ [(['['], ']'), (['%', '['], ']'), (['#'], '\n')], ∃ before inner,
    Delimited mark.1 dot mark.2 str before inner ∧ before.length ≤ k ∧
      k < before.length + mark.1.length + inner.length + 1

/-- A change to a text without requests that leaves no colour outside its marks. -/
def Clean (f : Field) (e : Edit) : Prop :=
  NoRequest (e.apply f.text) ∧
    ∀ k < (e.apply f.text).length, ¬Marked (e.apply f.text) k →
      colourAt (e.carry f.spans) k = none

/-! ## The colours of a text without requests -/

theorem spansOf_append (a b : List (List (Piece Char) × Paint)) (str : Text) :
    spansOf (a ++ b) str = spansOf a str ++ spansOf b str :=
  List.flatMap_append

/-- Patterns with a request in them find nothing. -/
theorem spansOf_requests {table : List (List (Piece Char) × Paint)} {str : Text}
    (htable : ∀ rule ∈ table, .word requests ∈ rule.1) (hstr : NoRequest str) :
    spansOf table str = [] := by
  rw [spansOf, List.flatMap_eq_nil_iff]
  intro rule hrule
  rw [List.map_eq_nil_iff, allMatches, matchesFrom_eq_nil (htable rule hrule) hstr]

theorem spText_eq {str : Text} (hstr : NoRequest str) : spText str = spansOf marks str := by
  rw [spText, spansOf_append, spansOf_requests (by simp [spRequests]) hstr, List.nil_append]

theorem watched_eq {str : Text} (hstr : NoRequest str) : watched str = spansOf marks str := by
  rw [watched, spansOf_append, spansOf_requests (by simp [watcherRequests]) hstr,
    List.nil_append]

theorem colourAt_append (a b : List Span) (k : Nat) :
    colourAt (a ++ b) k = (colourAt b k).or (colourAt a k) := by
  rw [colourAt, List.reverse_append, List.find?_append, colourAt, colourAt]
  cases b.reverse.find? (·.covers k) <;> rfl

theorem colourAt_ne_none {spans : List Span} {s : Span} (hs : s ∈ spans) {k : Nat}
    (hk : s.covers k = true) : colourAt spans k ≠ none := by
  rw [colourAt, ne_eq, Option.map_eq_none_iff, List.find?_eq_none]
  exact fun h => h s (List.mem_reverse.mpr hs) hk

/-- The patterns leave nothing out that is marked. -/
theorem colourAt_marked {str : Text} {k : Nat} (h : Marked str k) :
    colourAt (spansOf marks str) k ≠ none := by
  obtain ⟨mark, hmark, before, inner, hdel, hlo, hhi⟩ := h
  have hcovered (paint : Paint) {opening : Text} {closing : Char}
      (hrule : (between opening dot closing, paint) ∈ marks)
      (hdel : Delimited opening dot closing str before inner) (hclosing : closing ∉ opening)
      (hhi : k < before.length + opening.length + inner.length + 1) :
      colourAt (spansOf marks str) k ≠ none := by
    obtain ⟨m, hm, hstart, hstop⟩ := hdel.covered hclosing (Nat.zero_le _) 0
      (show 0 + before.length ≤ k by omega) (by omega)
    refine colourAt_ne_none (s := ⟨paint, m.1, m.2⟩) ?_ (by simp [Span.covers, hstart, hstop])
    exact List.mem_flatMap.mpr ⟨_, hrule, List.mem_map_of_mem hm⟩
  simp only [List.mem_cons, List.not_mem_nil, or_false] at hmark
  rcases hmark with rfl | rfl | rfl
  · exact hcovered .bracket (by simp [marks]) hdel (by decide) hhi
  · exact hcovered .percent (by simp [marks]) hdel (by decide) hhi
  · exact hcovered .comment (by simp [marks]) hdel (by decide) hhi

/-! ## Opening and changing -/

theorem coloured_opened {str : Text} {f : Field} (hopen : opened str = some f)
    (hstr : NoRequest str) : Coloured f := by
  rw [opened] at hopen
  split at hopen
  · cases hopen
  · cases hopen
    intro k hk
    rw [colourAt_append, spText_eq hstr, watched_eq hstr, Option.or_self]

/-- A clean change gives the right colours, whatever was before. -/
theorem coloured_edit {f f' : Field} {e : Edit} (hclean : Clean f e) (hedit : edit f e = some f') :
    Coloured f' := by
  rw [edit] at hedit
  split at hedit
  · dsimp only at hedit
    split at hedit
    · cases hedit
    · cases hedit
      intro k hk
      rw [colourAt_append, spText_eq hclean.1, watched_eq hclean.1]
      cases hmarks : colourAt (spansOf marks (e.apply f.text)) k with
      | some c => rfl
      | none =>
          -- An unmarked place: no old colour may show.
          have hunmarked : ¬Marked (e.apply f.text) k := fun h => colourAt_marked h hmarks
          rw [hclean.2 k hk hunmarked]
          rfl
  · cases hedit

/-- After opening a mode and any clean changes the colours are those of the text. -/
theorem colour_reached {str : Text} {f f' : Field} {edits : List Edit}
    (hopen : opened str = some f) (hstr : NoRequest str)
    (hclean : Run.Along edit Clean f edits) (hrun : Run.run edit f edits = some f') :
    Coloured f' :=
  Run.run_invariant_of (fun _ _ _ _ hclean hedit => coloured_edit hclean hedit) edits
    (coloured_opened hopen hstr) hclean hrun

/-- A comment opened, and a word put before it. -/
theorem colour_reached_comment :
    ∃ f f', opened "#a\n".toList = some f ∧ Run.run edit f [⟨0, 0, "b".toList⟩] = some f' ∧
      Coloured f' := by
  refine ⟨_, _, rfl, rfl,
    @colour_reached "#a\n".toList _ _ [⟨0, 0, "b".toList⟩] rfl ?_ ?_ rfl⟩
  · intro w hw
    revert w
    decide +kernel
  · refine Run.along_cons rfl ⟨?_, fun k hk hunmarked => ?_⟩ trivial
    · intro w hw
      revert w
      decide +kernel
    · -- Only the new character is outside the comment.
      have hcomment : Delimited ['#'] dot '\n' ['b', '#', 'a', '\n'] ['b'] ['a'] :=
        ⟨⟨[], rfl⟩, fun c hc => by
          obtain rfl := List.mem_singleton.mp hc
          exact ⟨by decide, by decide⟩⟩
      cases k with
      | zero => decide +kernel
      | succ k =>
          refine absurd ⟨(['#'], '\n'), by simp, ['b'], ['a'], hcomment, ?_, ?_⟩ hunmarked
          · simp
          · exact hk

/-- A comment whose sign is deleted keeps its colour. -/
theorem comment_colour_stays :
    ∃ f f', opened "#a\n".toList = some f ∧ Run.run edit f [⟨0, 1, []⟩] = some f' ∧
      ¬Coloured f' := by
  refine ⟨_, _, rfl, rfl, fun h => ?_⟩
  exact absurd (h 0 (by decide +kernel)) (by decide +kernel)

end HapAndroid.EditColours
