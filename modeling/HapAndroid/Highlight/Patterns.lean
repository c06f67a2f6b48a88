import HapAndroid.Highlight.Match
import HapAndroid.Lib.Greedy

/-!
# Patterns as regular expressions

The patterns that are rows of plain bytes, `\$`, `\s`, `\s*`, `\s+`, `\w` and `\w+`, with a `$`
at the end or without one, and alternatives between `|`.  Such a pattern has a text, which
`match_region` is given, and a meaning, a language for each alternative.  A text is read from
the left and every element is as long as it can be: `\s` in front of a star is `\s*`.

`matchText_elem` says what `match_text` does with an element, `matchLoop_row` what the loop
over a row of them comes to: the greedy matcher on the same row.
-/

namespace HapAndroid.Highlight

open Greedy (Atom)

/-! ## Elements -/

/-- A byte that stands for itself. -/
structure Literal where
  byte : UInt8
  ne_nul : byte ≠ 0
  ne_backslash : byte ≠ 0x5C
  ne_dollar : byte ≠ 0x24
  ne_bar : byte ≠ 0x7C

inductive Elem where
  | lit (c : Literal)
  /-- `\$` -/
  | dollar
  /-- `\s` -/
  | blank
  /-- `\s*` -/
  | blanks
  /-- `\s+` -/
  | someBlanks
  /-- `\w` -/
  | word
  /-- `\w+` -/
  | someWord

namespace Elem

def text : Elem → Bytes
  | lit c => [c.byte]
  | dollar => [0x5C, 0x24]
  | blank => [0x5C, 0x73]
  | blanks => [0x5C, 0x73, 0x2A]
  | someBlanks => [0x5C, 0x73, 0x2B]
  | word => [0x5C, 0x77]
  | someWord => [0x5C, 0x77, 0x2B]

/-- Equality up to ASCII case. -/
def sameLetter (c b : UInt8) : Bool := toLower c == toLower b

/-- What an element means, up to case. -/
def atom : Elem → Atom UInt8
  | lit c => ⟨sameLetter c.byte, .one⟩
  | dollar => ⟨sameLetter 0x24, .one⟩
  | blank => ⟨isBlank, .one⟩
  | blanks => ⟨isBlank, .any⟩
  | someBlanks => ⟨isBlank, .some⟩
  | word => ⟨isKeyword, .one⟩
  | someWord => ⟨isKeyword, .some⟩

/-- The element ends in front of `p`: it is not the start of a longer one. -/
def EndsAt (p : Bytes) : Elem → Prop
  | blank => p.getD 0 0 ≠ 0x2A ∧ p.getD 0 0 ≠ 0x2B
  | word => p.getD 0 0 ≠ 0x2B
  | _ => True

/-- The text of a row of elements in front of `tail`. -/
def row (tail : Bytes) : List Elem → Bytes
  | [] => tail
  | e :: es => e.text ++ row tail es

/-- A row is read as it is meant. -/
def Reads (tail : Bytes) : List Elem → Prop
  | [] => True
  | e :: es => e.EndsAt (row tail es) ∧ Reads tail es

end Elem

/-- The `$` at the end of an alternative. -/
def endMark (atEnd : Bool) : Bytes := if atEnd then [0x24] else []

/-- An alternative.  It does not start with `^`. -/
structure Alt where
  elems : List Elem
  atEnd : Bool
  reads : Elem.Reads (endMark atEnd) elems
  noCaret : (Elem.row (endMark atEnd) elems).getD 0 0 ≠ 0x5E

def Alt.text (a : Alt) : Bytes := Elem.row (endMark a.atEnd) a.elems

/-- A line ends at a position. -/
def FileText.AtLineEnd (t : FileText) (i : Nat) : Prop := t.length ≤ i ∨ t.byte i = 0x0A

instance (t : FileText) (i : Nat) : Decidable (t.AtLineEnd i) :=
  inferInstanceAs (Decidable (_ ∨ _))

/-- The first `n` bytes from a position on are a word of the alternative, and a line ends behind
them where it ends in `$`. -/
structure Alt.Matches (a : Alt) (t : FileText) (pos n : Nat) : Prop where
  le : n ≤ (t.rest pos).length
  mem_lang : (t.rest pos).take n ∈ Greedy.lang (a.elems.map Elem.atom)
  line_end : a.atEnd = true → t.AtLineEnd (pos + n)

structure Pattern where
  alts : List Alt
  ne_nil : alts ≠ []

def Pattern.text (p : Pattern) : Bytes := [(0x7C : UInt8)].intercalate (p.alts.map Alt.text)

/-- No element of the pattern is repeated. -/
def Pattern.FixedWidth (p : Pattern) : Prop :=
  ∀ a ∈ p.alts, ∀ e ∈ a.elems, e.atom.rep = .one

/-! ## One element -/

namespace FileText

variable {t : FileText} {pos : Nat} {cls : UInt8 → Bool}

theorem byte_eq_zero_iff : t.byte pos = 0 ↔ t.length ≤ pos := by
  constructor
  · intro h
    by_contra hlt
    exact byte_ne_zero (Nat.lt_of_not_le hlt) h
  · exact fun h => List.getD_eq_default _ _ h

theorem atLineEnd_iff : t.AtLineEnd pos ↔ t.byte pos = 0x0A ∨ t.byte pos = 0 := by
  rw [AtLineEnd, byte_eq_zero_iff, or_comm]

theorem rest_add (n : Nat) : t.rest (pos + n) = (t.rest pos).drop n := by
  rw [rest, rest, List.drop_drop]

end FileText

section
variable {t : FileText} {p : Bytes} {pos : Nat} {mem : Option Bytes}

/-- What `match_text` leaves when the element in front of `p` takes `n` bytes. -/
def taken (p : Bytes) (pos : Nat) (mem : Option Bytes) (n : Nat) : TextMatch :=
  ⟨p, pos + n, mem, if n = 0 then -1 else n⟩

/-- A class that does not hold of the zero byte is tested within the text. -/
theorem matchOne_eq {q : Bytes} {cls : UInt8 → Bool} (h0 : cls 0 = false) :
    matchOne t q pos mem cls = ((Atom.mk cls .one).take? (t.rest pos)).elim (noText q pos mem)
      (taken (q.drop 2) pos mem) := by
  rw [matchOne, FileText.byte_eq_headD, Atom.take?]
  cases t.rest pos with
  | nil => simp [h0]
  | cons b w => cases hb : cls b <;> simp [hb, taken, takes]

theorem matchRun_eq {q : Bytes} {cls : UInt8 → Bool} :
    matchRun t q pos mem cls = ((Atom.mk cls .some).take? (t.rest pos)).elim (noText q pos mem)
      (taken (q.drop 3) pos mem) := by
  rw [matchRun, FileText.run, Atom.take?]
  split
  · rfl
  · next h => simp [taken, takes, h]

theorem matchLiteral_eq {q : Bytes} {c : UInt8} (hq : unescape q = c :: p) (h0 : c ≠ 0) :
    matchLiteral t q pos mem = some (((Atom.mk (Elem.sameLetter c) .one).take? (t.rest pos)).elim
      (noText q pos mem) (taken p pos mem)) := by
  rw [matchLiteral, hq, List.getD_cons_zero, if_neg fun h => h0 h.1, FileText.byte_eq_headD,
    Atom.take?]
  cases t.rest pos with
  | nil =>
      have hne : toLower c ≠ toLower 0 := fun h => h0 (toLower_eq_zero h)
      exact if_neg hne
  | cons b w => cases hb : Elem.sameLetter c b <;> simp_all [Elem.sameLetter, taken, takes]

/-- `match_text` on an element: it takes what the element takes, and the -1 is for an element
that takes nothing. -/
theorem matchText_elem {e : Elem} (he : e.EndsAt p) :
    matchText t (e.text ++ p) pos mem = some ((e.atom.take? (t.rest pos)).elim
      (noText (e.text ++ p) pos mem) (taken p pos mem)) := by
  cases e with
  | lit c =>
      have hesc : ∀ l : Char, isEscape (c.byte :: p) l = false := fun l => by
        simp [isEscape, c.ne_backslash]
      have hun : unescape (c.byte :: p) = c.byte :: p := by simp [unescape, hesc]
      simp only [Elem.text, List.singleton_append, matchText, hesc, Bool.false_and]
      exact matchLiteral_eq hun c.ne_nul
  | dollar =>
      have hun : unescape (Elem.dollar.text ++ p) = 0x24 :: p := rfl
      exact matchLiteral_eq hun (by decide)
  | blank =>
      have hstar : (Elem.blank.text ++ p).getD 2 0 ≠ 0x2A := he.1
      have hplus : (Elem.blank.text ++ p).getD 2 0 ≠ 0x2B := he.2
      exact (if_neg hstar).trans ((if_neg hplus).trans (congrArg some (matchOne_eq rfl)))
  | blanks => rfl
  | someBlanks => exact congrArg some matchRun_eq
  | word =>
      have hplus : (Elem.word.text ++ p).getD 2 0 ≠ 0x2B := he
      exact (if_neg hplus).trans (congrArg some (matchOne_eq rfl))
  | someWord => exact congrArg some matchRun_eq

/-! ## A row of elements -/

theorem Elem.text_eq_cons (e : Elem) : ∃ c q, e.text = c :: q ∧ c ≠ 0x24 := by
  cases e with
  | lit c => exact ⟨_, _, rfl, c.ne_dollar⟩
  | dollar | blank | blanks | someBlanks | word | someWord => exact ⟨_, _, rfl, by decide⟩

theorem matchLoop_elem {e : Elem} (he : e.EndsAt p) (ret : Nat) :
    matchLoop t (e.text ++ p).length (e.text ++ p) pos mem ret =
      (e.atom.take? (t.rest pos)).elim (some (.next, mem))
        fun n => matchLoop t p.length p (pos + n) mem (ret + n) := by
  obtain ⟨c, q, htext, hc⟩ := e.text_eq_cons
  have hstep := @matchText_elem t p pos mem e he
  rw [htext, List.cons_append] at hstep ⊢
  rw [List.length_cons, matchLoop, if_neg hc, hstep]
  cases e.atom.take? (t.rest pos) with
  | none => simp [noText]
  | some n =>
      have hlen : (taken p pos mem n).len ≠ 0 := by
        rw [taken]
        split <;> simp_all
      have hnat : (taken p pos mem n).len.toNat = n := by
        rw [taken]
        split <;> simp_all
      have hfuel : p.length ≤ (q ++ p).length := by simp
      simp only [Option.elim_some, if_neg hlen, hnat]
      exact matchLoop_fuel hfuel

/-- How an alternative ends whose elements take this much. -/
def rowEnd (t : FileText) (atEnd : Bool) (pos ret : Nat) : Option Nat → AltEnd
  | none => .next
  | some n => if atEnd = true ∧ ¬t.AtLineEnd (pos + n) then .next else .matched (ret + n)

theorem matchLoop_row {atEnd : Bool} {es : List Elem} (h : Elem.Reads (endMark atEnd) es)
    (pos ret : Nat) :
    matchLoop t (Elem.row (endMark atEnd) es).length (Elem.row (endMark atEnd) es) pos mem ret =
      some (rowEnd t atEnd pos ret (Greedy.take? (es.map Elem.atom) (t.rest pos)), mem) := by
  induction es generalizing pos ret with
  | nil =>
      cases atEnd with
      | false => simp [Elem.row, endMark, matchLoop, rowEnd, Greedy.take?]
      | true =>
          simp only [Elem.row, endMark, List.length_cons, List.length_nil, matchLoop, if_true,
            List.map_nil, Greedy.take?, rowEnd, ← FileText.atLineEnd_iff, true_and, Nat.add_zero,
            ite_not]
  | cons e es ih =>
      rw [Elem.row, matchLoop_elem h.1, List.map_cons, Greedy.take?]
      cases e.atom.take? (t.rest pos) with
      | none => rfl
      | some n =>
          simp only [Option.elim_some, Option.bind_some, ih h.2, FileText.rest_add]
          -- The lengths add up the same on both sides.
          cases Greedy.take? (es.map Elem.atom) ((t.rest pos).drop n) with
          | none => rfl
          | some m => simp [rowEnd, Nat.add_assoc]

/-! ## Alternatives -/

/-- How `match_region` leaves an alternative. -/
def Alt.ends (a : Alt) (t : FileText) (pos : Nat) : AltEnd :=
  rowEnd t a.atEnd pos 0 (Greedy.take? (a.elems.map Elem.atom) (t.rest pos))

theorem matchAlt_text (a : Alt) : matchAlt t a.text pos mem = some (a.ends t pos, mem) := by
  rw [matchAlt, if_neg (by exact a.noCaret)]
  exact matchLoop_row a.reads pos 0

theorem Alt.ends_ne_leave (a : Alt) : a.ends t pos ≠ .leave := by
  rw [Alt.ends]
  cases Greedy.take? (a.elems.map Elem.atom) (t.rest pos) with
  | none => simp [rowEnd]
  | some n =>
      rw [rowEnd]
      split <;> simp

theorem Alt.matches_of_ends {a : Alt} {n : Nat} (h : a.ends t pos = .matched n) :
    a.Matches t pos n := by
  rw [Alt.ends] at h
  cases htake : Greedy.take? (a.elems.map Elem.atom) (t.rest pos) with
  | none => simp [htake, rowEnd] at h
  | some m =>
      rw [htake, rowEnd, Nat.zero_add] at h
      split at h
      · cases h
      · next hend =>
        cases h
        obtain ⟨hle, hmem⟩ := Greedy.take?_sound htake
        exact ⟨hle, hmem, fun hat => by_contra fun hno => hend ⟨hat, hno⟩⟩

/-- An alternative without repetitions is left only when it does not match. -/
theorem Alt.not_matches_of_ends {a : Alt} {n : Nat} (hfixed : ∀ e ∈ a.elems, e.atom.rep = .one)
    (h : a.ends t pos = .next) : ¬a.Matches t pos n := by
  intro hm
  have hone : ∀ b ∈ a.elems.map Elem.atom, b.rep = .one := by
    intro b hb
    obtain ⟨e, he, rfl⟩ := List.mem_map.mp hb
    exact hfixed e he
  -- The matcher takes the word that matches.
  have htake := @Greedy.take?_append _ _ hone _ ((t.rest pos).drop n) hm.mem_lang
  rw [List.take_append_drop, List.length_take, Nat.min_eq_left hm.le] at htake
  rw [Alt.ends, htake, rowEnd, if_neg fun hno => hno.2 (hm.line_end hno.1)] at h
  cases h

/-- The first alternative that matches, if there is one. -/
def firstEnd (t : FileText) (pos : Nat) : List Alt → Option Nat
  | [] => none
  | a :: as =>
      match a.ends t pos with
      | .matched n => some n
      | _ => firstEnd t pos as

theorem matchAlts_text (as : List Alt) :
    matchAlts t pos (as.map Alt.text) mem = some ⟨firstEnd t pos as, mem⟩ := by
  induction as with
  | nil => rfl
  | cons a as ih =>
      rw [List.map_cons, matchAlts, matchAlt_text, firstEnd]
      cases hend : a.ends t pos with
      | matched n => rfl
      | next => exact ih
      | leave => exact absurd hend a.ends_ne_leave

theorem firstEnd_sound {n : Nat} {as : List Alt} (h : firstEnd t pos as = some n) :
    ∃ a ∈ as, a.Matches t pos n := by
  induction as with
  | nil => cases h
  | cons a as ih =>
      rw [firstEnd] at h
      split at h
      · next hend =>
        cases h
        exact ⟨a, List.mem_cons_self, Alt.matches_of_ends hend⟩
      · obtain ⟨b, hb, hm⟩ := ih h
        exact ⟨b, List.mem_cons_of_mem a hb, hm⟩

theorem firstEnd_complete {as : List Alt}
    (hfixed : ∀ a ∈ as, ∀ e ∈ a.elems, e.atom.rep = .one) (h : firstEnd t pos as = none) :
    ∀ a ∈ as, ∀ n, ¬a.Matches t pos n := by
  induction as with
  | nil => exact fun a ha => absurd ha List.not_mem_nil
  | cons a as ih =>
      rw [firstEnd] at h
      obtain ⟨hfix, hfixed⟩ := List.forall_mem_cons.mp hfixed
      cases hend : a.ends t pos with
      | matched n => simp [hend] at h
      | leave => exact absurd hend a.ends_ne_leave
      | next =>
          rw [hend] at h
          exact List.forall_mem_cons.mpr
            ⟨fun n => Alt.not_matches_of_ends hfix hend, ih hfixed h⟩

/-! ## The pattern -/

theorem Elem.bar_notMem_row {tail : Bytes} (htail : 0x7C ∉ tail) (es : List Elem) :
    0x7C ∉ Elem.row tail es := by
  induction es with
  | nil => exact htail
  | cons e es ih =>
      rw [Elem.row, List.mem_append]
      rintro (h | h)
      · cases e with
        | lit c => exact c.ne_bar (List.mem_singleton.mp h).symm
        | dollar | blank | blanks | someBlanks | word | someWord => revert h; decide
      · exact ih h

theorem Alt.bar_notMem_text (a : Alt) : 0x7C ∉ a.text := by
  refine Elem.bar_notMem_row ?_ a.elems
  cases a.atEnd <;> decide

theorem Pattern.splitOn_text (p : Pattern) : p.text.splitOn 0x7C = p.alts.map Alt.text := by
  refine List.splitOn_intercalate _ ?_ (by simpa using p.ne_nil)
  intro l hl
  obtain ⟨a, -, rfl⟩ := List.mem_map.mp hl
  exact a.bar_notMem_text

theorem matchRegion_text (p : Pattern) : matchRegion t pos p.text mem =
    if p.text.length < maxSplitMatchLength then some ⟨firstEnd t pos p.alts, mem⟩ else none := by
  rw [matchRegion, p.splitOn_text, matchAlts_text]

end

/-- The matcher on a pattern that fits into its buffer returns.  A match is a word of one of the
alternatives, up to case and at the end of a line where the alternative asks for it; and if
nothing in the pattern is repeated, `FALSE` means that no alternative matches. -/
theorem matchRegion_regular (t : FileText) (pos : Nat) (p : Pattern) (mem : Option Bytes) :
    (p.text.length < maxSplitMatchLength → (matchRegion t pos p.text mem).isSome = true) ∧
      ∀ r, matchRegion t pos p.text mem = some r →
        (∀ n, r.len = some n → ∃ a ∈ p.alts, a.Matches t pos n) ∧
          (p.FixedWidth → r.len = none → ∀ a ∈ p.alts, ∀ n, ¬a.Matches t pos n) := by
  rw [matchRegion_text]
  refine ⟨fun h => by rw [if_pos h]; rfl, fun r hr => ?_⟩
  split at hr
  · cases hr
    exact ⟨fun n => firstEnd_sound, fun hfixed => firstEnd_complete hfixed⟩
  · cases hr

/-- `if|\s*;$` -/
def statementEnd : Pattern where
  alts :=
    [⟨[.lit ⟨0x69, by decide, by decide, by decide, by decide⟩,
        .lit ⟨0x66, by decide, by decide, by decide, by decide⟩], false,
        ⟨trivial, trivial, trivial⟩, by decide⟩,
      ⟨[.blanks, .lit ⟨0x3B, by decide, by decide, by decide, by decide⟩], true,
        ⟨trivial, trivial, trivial⟩, by decide⟩]
  ne_nil := List.cons_ne_nil _ _

/-- `\s\$` -/
def blankDollar : Pattern where
  alts := [⟨[.blank, .dollar], false, ⟨⟨by decide, by decide⟩, trivial, trivial⟩, by decide⟩]
  ne_nil := List.cons_ne_nil _ _

/-- The text `x  ;`. -/
def blanksText : FileText := ⟨[0x78, 0x20, 0x20, 0x3B], by decide, 0⟩

theorem matchRegion_regular_blanks :
    (∃ a ∈ statementEnd.alts, a.Matches blanksText 1 3) ∧
      ∀ a ∈ blankDollar.alts, ∀ n, ¬a.Matches blanksText 1 n :=
  ⟨((matchRegion_regular blanksText 1 statementEnd none).2 ⟨some 3, none⟩ rfl).1 3 rfl,
    ((matchRegion_regular blanksText 1 blankDollar none).2 ⟨none, none⟩ rfl).2
      (by simp [Pattern.FixedWidth, blankDollar, Elem.atom]) rfl⟩

end HapAndroid.Highlight
