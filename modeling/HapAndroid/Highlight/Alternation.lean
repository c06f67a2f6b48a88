import Mathlib.Data.List.Infix
import HapAndroid.Highlight.Patterns

/-!
# Alternatives

What an alternative without `\z` matches, as a relation: its elements take the text one behind
the other (`Consumes`), a `$` ends it at the end of a line, and a `\b` may stand at its end.
Such an alternative keeps the stored word and does not look at it (`matchAlt_plain`).

A pattern is the disjunction of its alternatives as long as the matcher comes to the first one
that matches.  It does not when it meets a `^` that fails before: `match_region` leaves the loop
over the alternatives there, and not only the one over the elements (`alternation_iff`).
-/

namespace HapAndroid.Highlight

/-- The text of an alternative, or of its end, without `\z`. -/
structure Plain (p : Bytes) : Prop where
  noNul : 0 ∉ p
  noBar : 0x7C ∉ p
  noZ : ¬[0x5C, 0x7A] <:+: p

/-- An alternative without `\z`. -/
structure PlainAlt where
  text : Bytes
  plain : Plain text

/-! ## Elements -/

/-- A byte that stands for itself though it may do something else: a `$` where no end of line is
tested, and a backslash in front of no letter of an element. -/
def Raw (c : UInt8) (q : Bytes) : Prop :=
  c = 0x24 ∨ c = 0x5C ∧ q.headD 0 ∉ [0x7A, 0x73, 0x77, 0x62, 0x24]

/-- The element in front of `q` takes `n` bytes from `pos` on. -/
inductive Takes (t : FileText) (pos : Nat) : Bytes → Bytes → Nat → Prop where
  | elem (e : Elem) (q : Bytes) {n : Nat} : e.EndsAt q → e.atom.take? (t.rest pos) = some n →
      Takes t pos (e.text ++ q) q n
  | raw (c : UInt8) (q : Bytes) : Raw c q → Elem.sameLetter c (t.byte pos) = true →
      Takes t pos (c :: q) q 1

/-- The elements of `p` match `n` bytes from `pos` on. -/
inductive Consumes (t : FileText) : Bytes → Nat → Nat → Prop where
  | nil (pos : Nat) : Consumes t [] pos 0
  /-- `$` -/
  | lineEnd (p : Bytes) {pos : Nat} : t.AtLineEnd pos → Consumes t (0x24 :: p) pos 0
  /-- `\b` -/
  | wordEnd {pos : Nat} : t.WordEnd pos → Consumes t [0x5C, 0x62] pos 0
  | cons {p q : Bytes} {pos k n : Nat} : p.headD 0 ≠ 0x24 → Takes t pos p q k →
      Consumes t q (pos + k) n → Consumes t p pos (k + n)

/-- The alternative matches `n` bytes from `pos` on. -/
inductive Matches (t : FileText) (pos : Nat) : Bytes → Nat → Prop where
  | plain {p : Bytes} {n : Nat} : p.headD 0 ≠ 0x5E → Consumes t p pos n → Matches t pos p n
  /-- `^` -/
  | caret {p q : Bytes} {k n : Nat} : t.LineStart pos → Takes t pos p q k →
      Consumes t q (pos + k) n → Matches t pos (0x5E :: p) (k + n)

/-- The alternative starts with a `^` that fails, at the byte in front or at the element behind
it. -/
def Blocked (t : FileText) (pos : Nat) (p : Bytes) : Prop :=
  ∃ q, p = 0x5E :: q ∧ (t.LineStart pos → ¬∃ q' k, Takes t pos q q' k)

/-- A bare `^` at the end of the text, which steps over the end of both. -/
def BareEnd (t : FileText) (pos : Nat) (p : Bytes) : Prop :=
  p = [0x5E] ∧ t.LineStart pos ∧ t.length ≤ pos

/-! ## What `match_text` does with an element -/

section
variable {t : FileText} {pos : Nat} {mem : Option Bytes} {p q : Bytes}

theorem isEscape_cons_of_ne {c : UInt8} (h : c ≠ 0x5C) (l : Char) : isEscape (c :: q) l = false := by
  simp [isEscape, h]

theorem isEscape_backslash {l : Char} (h : q.headD 0 ≠ l.toUInt8) :
    isEscape (0x5C :: q) l = false := by
  cases q with
  | nil => simpa [isEscape] using h
  | cons d q => simpa [isEscape] using h

/-- A byte that stands for itself is none of the elements with a backslash. -/
theorem Raw.isEscape_eq {c : UInt8} (h : Raw c q) {l : Char} (hl : l ∈ ['z', 's', 'w', 'b', '$']) :
    isEscape (c :: q) l = false := by
  rcases h with rfl | ⟨rfl, hq⟩
  · exact isEscape_cons_of_ne (by decide) l
  · refine isEscape_backslash fun heq => hq ?_
    rw [heq]
    simp only [List.mem_cons, List.not_mem_nil, or_false] at hl
    rcases hl with rfl | rfl | rfl | rfl | rfl <;> decide

theorem matchText_raw {c : UInt8} (h : Raw c q) : matchText t (c :: q) pos mem =
    some (if Elem.sameLetter c (t.byte pos) then taken q pos mem 1
      else noText (c :: q) pos mem) := by
  have hesc : ∀ l ∈ ['z', 's', 'w', 'b', '$'], isEscape (c :: q) l = false :=
    fun l hl => h.isEscape_eq hl
  have h0 : c ≠ 0 := by
    rcases h with rfl | ⟨rfl, -⟩ <;> decide
  have hun : unescape (c :: q) = c :: q := by simp [unescape, hesc '$' (by simp)]
  rw [matchText, hesc 'z' (by simp), hesc 's' (by simp), hesc 'w' (by simp), hesc 'b' (by simp)]
  simp only [Bool.false_and, Bool.false_eq_true, if_false]
  rw [matchLiteral, hun, List.getD_cons_zero, if_neg fun hz => h0 hz.1]
  simp only [Elem.sameLetter, beq_iff_eq]
  split <;> rfl

theorem Takes.matchText_eq {n : Nat} (h : Takes t pos p q n) (mem : Option Bytes) :
    matchText t p pos mem = some (taken q pos mem n) := by
  cases h with
  | elem e q he htake => rw [matchText_elem he, htake]; rfl
  | raw c q hraw hsame => rw [matchText_raw hraw, if_pos hsame]

theorem taken_len_ne (q : Bytes) (pos : Nat) (mem : Option Bytes) (n : Nat) :
    (taken q pos mem n).len ≠ 0 := by
  rw [taken]
  split
  · exact Int.neg_ne_zero.mpr Int.one_ne_zero
  · simpa

theorem taken_len_toNat (q : Bytes) (pos : Nat) (mem : Option Bytes) (n : Nat) :
    (taken q pos mem n).len.toNat = n := by
  rw [taken]
  split
  · next h => rw [h]; rfl
  · rfl

/-- A call of `match_text` that returns 0 tests no element that takes the text. -/
theorem not_takes_of_len {r : TextMatch} (h : matchText t p pos mem = some r) (hlen : r.len = 0) :
    ¬∃ q n, Takes t pos p q n := by
  rintro ⟨q, n, htakes⟩
  rw [htakes.matchText_eq mem, Option.some.injEq] at h
  exact taken_len_ne q pos mem n (h ▸ hlen)

/-- What stands at the front of a pattern without `\z`. -/
inductive Front : Bytes → Prop where
  | nil : Front []
  | elem (e : Elem) (q : Bytes) : e.EndsAt q → Front (e.text ++ q)
  | wordEnd (q : Bytes) : Front (0x5C :: 0x62 :: q)
  | raw (c : UInt8) (q : Bytes) : Raw c q → Front (c :: q)

theorem front_blank (q : Bytes) : Front (0x5C :: 0x73 :: q) := by
  by_cases hstar : q.getD 0 0 = 0x2A
  · obtain ⟨q, rfl⟩ : ∃ q', q = 0x2A :: q' := by
      cases q with
      | nil => simp at hstar
      | cons c q => exact ⟨q, by simpa using hstar⟩
    exact .elem .blanks q trivial
  · by_cases hplus : q.getD 0 0 = 0x2B
    · obtain ⟨q, rfl⟩ : ∃ q', q = 0x2B :: q' := by
        cases q with
        | nil => simp at hplus
        | cons c q => exact ⟨q, by simpa using hplus⟩
      exact .elem .someBlanks q trivial
    · exact .elem .blank q ⟨hstar, hplus⟩

theorem front_word (q : Bytes) : Front (0x5C :: 0x77 :: q) := by
  by_cases hplus : q.getD 0 0 = 0x2B
  · obtain ⟨q, rfl⟩ : ∃ q', q = 0x2B :: q' := by
      cases q with
      | nil => simp at hplus
      | cons c q => exact ⟨q, by simpa using hplus⟩
    exact .elem .someWord q trivial
  · exact .elem .word q hplus

theorem front_backslash (hz : ¬[0x5C, 0x7A] <:+: 0x5C :: q) : Front (0x5C :: q) := by
  cases q with
  | nil => exact .raw 0x5C [] (.inr ⟨rfl, by decide⟩)
  | cons d q =>
      by_cases hs : d = 0x73
      · exact hs ▸ front_blank q
      by_cases hw : d = 0x77
      · exact hw ▸ front_word q
      by_cases hb : d = 0x62
      · exact hb ▸ .wordEnd q
      by_cases hd : d = 0x24
      · exact hd ▸ .elem .dollar q trivial
      · have hdz : d ≠ 0x7A := by
          rintro rfl
          exact hz (List.IsPrefix.isInfix ⟨q, rfl⟩)
        exact .raw 0x5C (d :: q) (.inr ⟨rfl, by simp [hs, hw, hb, hd, hdz]⟩)

theorem Plain.front (h : Plain p) : Front p := by
  cases p with
  | nil => exact .nil
  | cons c q =>
      by_cases hc : c = 0x5C
      · subst hc
        exact front_backslash h.noZ
      by_cases hd : c = 0x24
      · exact hd ▸ .raw 0x24 q (.inl rfl)
      · have hne : ∀ b, b ∉ c :: q → c ≠ b := fun b hb hcb => hb (hcb ▸ List.mem_cons_self)
        exact .elem (.lit ⟨c, hne 0 h.noNul, hc, hd, hne 0x7C h.noBar⟩) q trivial

theorem Plain.of_suffix (h : Plain p) (hq : q <:+ p) : Plain q where
  noNul := fun hmem => h.noNul (hq.subset hmem)
  noBar := fun hmem => h.noBar (hq.subset hmem)
  noZ := fun hz => h.noZ (hz.trans hq.isInfix)

/-- The end of the pattern. -/
theorem matchText_nil :
    matchText t [] pos mem = if t.byte pos = 0 then none else some (noText [] pos mem) := by
  have htext : matchText t [] pos mem = matchLiteral t [] pos mem := rfl
  have hun : (unescape []).getD 0 0 = (0 : UInt8) := rfl
  rw [htext, matchLiteral, hun]
  by_cases hb : t.byte pos = 0
  · rw [if_pos hb, if_pos ⟨rfl, hb⟩]
  · have hne : toLower 0 ≠ toLower (t.byte pos) := fun heq => hb (toLower_eq_zero heq.symm)
    rw [if_neg hb, if_neg fun h => hb h.2, if_neg hne]

theorem noText_pat (hnil : p ≠ []) (hb : p ≠ [0x5C, 0x62]) :
    (noText p pos mem).pat = [] ↔ p = [] ∨ p = [0x5C, 0x62] ∧ t.WordEnd pos :=
  ⟨fun h => absurd h hnil, fun h => h.elim (absurd · hnil) fun h => absurd h.1 hb⟩

/-- `match_text` on a pattern without `\z`: the element takes the text, or 0 is returned, with the
pattern used up only by a `\b` at its end, or the end of the pattern meets the end of the text. -/
theorem matchText_front (t : FileText) (pos : Nat) (h : Front p) (mem : Option Bytes) :
    (∃ q n, Takes t pos p q n) ∨
      (∃ r, matchText t p pos mem = some r ∧ r.len = 0 ∧ r.mem = mem ∧
        (r.pat = [] ↔ p = [] ∨ p = [0x5C, 0x62] ∧ t.WordEnd pos)) ∨
      p = [] ∧ t.byte pos = 0 ∧ matchText t p pos mem = none := by
  cases h with
  | nil =>
      rw [matchText_nil]
      by_cases hb : t.byte pos = 0
      · exact .inr (.inr ⟨rfl, hb, if_pos hb⟩)
      · exact .inr (.inl ⟨noText [] pos mem, if_neg hb, rfl, rfl, by simp [noText]⟩)
  | elem e q he =>
      cases htake : e.atom.take? (t.rest pos) with
      | some n => exact .inl ⟨q, n, .elem e q he htake⟩
      | none =>
          obtain ⟨c, q', htext, -⟩ := e.text_eq_cons
          refine .inr (.inl ⟨noText (e.text ++ q) pos mem, ?_, rfl, rfl, ?_⟩)
          · rw [matchText_elem he, htake]
            rfl
          · -- No element is a `\b`.
            refine noText_pat (by simp [htext]) ?_
            cases e with
            | lit c => exact fun heq => c.ne_backslash (List.cons.inj heq).1
            | dollar | blank | blanks | someBlanks | word | someWord => simp [Elem.text]
  | wordEnd q =>
      have htext : matchText t (0x5C :: 0x62 :: q) pos mem =
          some (matchWordEnd t (0x5C :: 0x62 :: q) pos mem) := rfl
      refine .inr (.inl ⟨_, htext, ?_⟩)
      rw [matchWordEnd]
      split
      · next hend =>
        rw [Bool.and_eq_true_iff, Bool.not_eq_true'] at hend
        refine ⟨rfl, rfl, ?_⟩
        simp [takes, FileText.WordEnd, hend]
      · next hend =>
        rw [Bool.and_eq_true_iff, Bool.not_eq_true'] at hend
        refine ⟨rfl, rfl, ?_⟩
        simp [noText, FileText.WordEnd, hend]
  | raw c q hraw =>
      cases hsame : Elem.sameLetter c (t.byte pos) with
      | true => exact .inl ⟨q, 1, .raw c q hraw hsame⟩
      | false =>
          refine .inr (.inl ⟨noText (c :: q) pos mem, ?_, rfl, rfl, ?_⟩)
          · rw [matchText_raw hraw, hsame]
            rfl
          · refine noText_pat (List.cons_ne_nil c q) ?_
            rintro heq
            obtain ⟨rfl, rfl⟩ := List.cons.inj heq
            rcases hraw with h | ⟨-, hq⟩
            · exact absurd h (by decide)
            · exact hq (by decide)

/-! ## The loop over the elements -/

theorem Takes.suffix {n : Nat} (h : Takes t pos p q n) : q <:+ p := by
  cases h with
  | elem e q _ _ => exact ⟨e.text, rfl⟩
  | raw c q _ _ => exact ⟨[c], rfl⟩

theorem Takes.ne_nil {n : Nat} (h : Takes t pos p q n) : p ≠ [] := by
  cases h with
  | elem e q _ _ =>
      obtain ⟨c, q', htext, -⟩ := e.text_eq_cons
      simp [htext]
  | raw c q _ _ => exact List.cons_ne_nil c q

theorem Takes.unique {q' : Bytes} {n n' : Nat} (h : Takes t pos p q n) (h' : Takes t pos p q' n') :
    q = q' ∧ n = n' := by
  have heq := (h.matchText_eq none).symm.trans (h'.matchText_eq none)
  simp only [taken, Option.some.injEq, TextMatch.mk.injEq, Nat.add_left_cancel_iff] at heq
  exact ⟨heq.1, heq.2.1⟩

theorem not_takes_wordEnd : ¬∃ q' n, Takes t pos (0x5C :: 0x62 :: q) q' n := by
  have htext : matchText t (0x5C :: 0x62 :: q) pos none =
      some (matchWordEnd t (0x5C :: 0x62 :: q) pos none) := rfl
  refine not_takes_of_len htext ?_
  rw [matchWordEnd]
  split <;> rfl

/-- After an element that takes the text the rest has to match. -/
theorem Takes.consumes_iff {k n : Nat} (h : Takes t pos p q k) (hp : p.headD 0 ≠ 0x24) :
    Consumes t p pos n ↔ ∃ m, n = k + m ∧ Consumes t q (pos + k) m := by
  constructor
  · intro hc
    cases hc with
    | nil => exact absurd rfl h.ne_nil
    | lineEnd p hend => exact absurd rfl hp
    | wordEnd hend => exact absurd ⟨q, k, h⟩ not_takes_wordEnd
    | @cons _ q' _ k' m _ h' hrest =>
        obtain ⟨rfl, rfl⟩ := h.unique h'
        exact ⟨m, rfl, hrest⟩
  · rintro ⟨m, rfl, hrest⟩
    exact .cons hp h hrest

/-- Without such an element only a `\b` at the end matches. -/
theorem consumes_iff_of_not_takes (hnil : p ≠ []) (hp : p.headD 0 ≠ 0x24)
    (h : ¬∃ q k, Takes t pos p q k) (n : Nat) :
    Consumes t p pos n ↔ (p = [0x5C, 0x62] ∧ t.WordEnd pos) ∧ n = 0 := by
  constructor
  · intro hc
    cases hc with
    | nil => exact absurd rfl hnil
    | lineEnd p hend => exact absurd rfl hp
    | wordEnd hend => exact ⟨⟨rfl, hend⟩, rfl⟩
    | cons _ h' _ => exact absurd ⟨_, _, h'⟩ h
  · rintro ⟨⟨rfl, hend⟩, rfl⟩
    exact .wordEnd hend

/-- How the loop over the elements ends. -/
inductive LoopResult (t : FileText) (p : Bytes) (pos : Nat) (mem : Option Bytes) (ret : Nat) :
    Option (AltEnd × Option Bytes) → Prop where
  | matched (n : Nat) : Consumes t p pos n → LoopResult t p pos mem ret (some (.matched (ret + n), mem))
  | next : (¬∃ n, Consumes t p pos n) → LoopResult t p pos mem ret (some (.next, mem))

theorem LoopResult.cons {k ret : Nat} {res : Option (AltEnd × Option Bytes)}
    (h : LoopResult t q (pos + k) mem (ret + k) res) (htakes : Takes t pos p q k)
    (hp : p.headD 0 ≠ 0x24) : LoopResult t p pos mem ret res := by
  cases h with
  | matched n hcons =>
      rw [Nat.add_assoc]
      exact .matched (k + n) (.cons hp htakes hcons)
  | next hno =>
      refine .next fun ⟨n, hcons⟩ => ?_
      obtain ⟨m, -, hrest⟩ := (htakes.consumes_iff hp).mp hcons
      exact hno ⟨m, hrest⟩

theorem matchLoop_plain (h : Plain p) (ret : Nat) :
    LoopResult t p pos mem ret (matchLoop t p.length p pos mem ret) := by
  -- By induction on the length of what is left of the alternative.
  induction hlen : p.length using Nat.strongRecOn generalizing p pos ret with
  | ind len ih =>
      subst hlen
      cases p with
      | nil =>
          rw [matchLoop]
          exact .matched 0 (.nil pos)
      | cons c p =>
          rw [List.length_cons, matchLoop]
          split
          · next hc =>
            subst hc
            split
            · next hend => exact .matched 0 (.lineEnd p (FileText.atLineEnd_iff.mpr hend))
            · next hend =>
              refine .next ?_
              rintro ⟨n, hcons⟩
              cases hcons with
              | lineEnd _ hyes => exact hend (FileText.atLineEnd_iff.mp hyes)
              | cons hp _ _ => exact hp rfl
          · next hc =>
            have hp : (c :: p).headD 0 ≠ 0x24 := hc
            rcases matchText_front t pos h.front mem with
              ⟨q, k, htakes⟩ | ⟨r, hr, hlen, hmem, hpat⟩ | ⟨hnil, -⟩
            · have hlt : q.length < (c :: p).length :=
                (sound_matchText (htakes.matchText_eq mem)).pat_lt (taken_len_ne q pos mem k)
              have hrest : LoopResult t q (pos + k) mem (ret + k)
                  (matchLoop t q.length q (pos + k) mem (ret + k)) :=
                ih q.length hlt (h.of_suffix htakes.suffix) (ret + k) rfl
              rw [← matchLoop_fuel (Nat.le_of_lt_succ hlt)] at hrest
              rw [htakes.matchText_eq mem]
              simp only [if_neg (taken_len_ne q pos mem k), taken_len_toNat]
              exact hrest.cons htakes hp
            · have hno := not_takes_of_len hr hlen
              have hiff := consumes_iff_of_not_takes (List.cons_ne_nil c p) hp hno
              rw [hr]
              simp only [if_pos hlen, hmem]
              split
              · next hempty => exact .matched 0 ((hiff 0).mpr ⟨by simpa using hpat.mp hempty, rfl⟩)
              · next hempty =>
                refine .next ?_
                rintro ⟨n, hcons⟩
                exact hempty (hpat.mpr (.inr ((hiff n).mp hcons).1))
            · cases hnil

/-! ## One alternative -/

/-- How an alternative ends. -/
inductive AltResult (t : FileText) (p : Bytes) (pos : Nat) (mem : Option Bytes) :
    Option (AltEnd × Option Bytes) → Prop where
  | matched (n : Nat) : Matches t pos p n → AltResult t p pos mem (some (.matched n, mem))
  | next : (¬∃ n, Matches t pos p n) → ¬Blocked t pos p → AltResult t p pos mem (some (.next, mem))
  | leave : Blocked t pos p → ¬BareEnd t pos p → AltResult t p pos mem (some (.leave, mem))
  | fault : BareEnd t pos p → AltResult t p pos mem none

theorem BareEnd.blocked (h : BareEnd t pos p) : Blocked t pos p := by
  obtain ⟨rfl, -⟩ := h
  exact ⟨[], rfl, fun _ ⟨q, k, htakes⟩ => htakes.ne_nil rfl⟩

/-- A `^` that fails does not match. -/
theorem Blocked.not_matches (h : Blocked t pos p) : ¬∃ n, Matches t pos p n := by
  rintro ⟨n, hm⟩
  obtain ⟨q, rfl, hno⟩ := h
  cases hm with
  | plain hhead _ => exact hhead rfl
  | caret hstart htakes _ => exact hno hstart ⟨_, _, htakes⟩

theorem matches_iff_consumes (hp : p.headD 0 ≠ 0x5E) {n : Nat} :
    Matches t pos p n ↔ Consumes t p pos n := by
  constructor
  · intro hm
    cases hm with
    | plain _ hc => exact hc
    | caret _ _ _ => exact absurd rfl hp
  · exact .plain hp

theorem Takes.matches_iff {k n : Nat} (h : Takes t pos p q k) (hstart : t.LineStart pos) :
    Matches t pos (0x5E :: p) n ↔ ∃ m, n = k + m ∧ Consumes t q (pos + k) m := by
  constructor
  · intro hm
    cases hm with
    | plain hp _ => exact absurd rfl hp
    | @caret _ q' k' m _ h' hrest =>
        obtain ⟨rfl, rfl⟩ := h.unique h'
        exact ⟨m, rfl, hrest⟩
  · rintro ⟨m, rfl, hrest⟩
    exact .caret hstart h hrest

theorem LoopResult.caret {k : Nat} {res : Option (AltEnd × Option Bytes)}
    (h : LoopResult t q (pos + k) mem k res) (hstart : t.LineStart pos)
    (htakes : Takes t pos p q k) : AltResult t (0x5E :: p) pos mem res := by
  cases h with
  | matched n hcons => exact .matched (k + n) (.caret hstart htakes hcons)
  | next hno =>
      refine .next (fun ⟨n, hm⟩ => ?_) fun ⟨p', heq, hnot⟩ => ?_
      · obtain ⟨m, -, hrest⟩ := (htakes.matches_iff hstart).mp hm
        exact hno ⟨m, hrest⟩
      · obtain rfl : p = p' := (List.cons.inj heq).2
        exact hnot hstart ⟨q, k, htakes⟩

theorem matchAlt_caret (h : Plain p) :
    AltResult t (0x5E :: p) pos mem (matchAlt t (0x5E :: p) pos mem) := by
  have hblocked : (t.LineStart pos → ¬∃ q k, Takes t pos p q k) → Blocked t pos (0x5E :: p) :=
    fun hno => ⟨p, rfl, hno⟩
  rw [matchAlt, List.getD_cons_zero, if_pos rfl, List.drop_one, List.tail_cons]
  split
  · next hstart =>
    have hstart : t.LineStart pos := hstart
    rcases matchText_front t pos h.front mem with
      ⟨q, k, htakes⟩ | ⟨r, hr, hlen, hmem, -⟩ | ⟨rfl, hb, hr⟩
    · rw [htakes.matchText_eq mem]
      simp only [if_neg (taken_len_ne q pos mem k), taken_len_toNat]
      have hrest : LoopResult t q (pos + k) mem k (matchLoop t q.length q (pos + k) mem k) :=
        matchLoop_plain (h.of_suffix htakes.suffix) k
      exact hrest.caret hstart htakes
    · rw [hr]
      simp only [if_pos hlen, hmem]
      refine .leave (hblocked fun _ => not_takes_of_len hr hlen) fun hbare => ?_
      -- A bare `^` at the end of the text is no call that returns.
      obtain ⟨hnil, -, hend⟩ := hbare
      obtain rfl : p = [] := (List.cons.inj hnil).2
      rw [matchText_nil, if_pos (FileText.byte_eq_zero_iff.mpr hend)] at hr
      cases hr
    · rw [hr]
      exact .fault ⟨rfl, hstart, FileText.byte_eq_zero_iff.mp hb⟩
  · next hstart =>
    refine .leave (hblocked fun hyes => absurd hyes hstart) fun hbare => hstart hbare.2.1

theorem matchAlt_plain (h : Plain p) : AltResult t p pos mem (matchAlt t p pos mem) := by
  by_cases hp : p.headD 0 = 0x5E
  · obtain ⟨p, rfl⟩ : ∃ p', p = 0x5E :: p' := by
      cases p with
      | nil => cases hp
      | cons c p => exact ⟨p, by simpa using hp⟩
    exact matchAlt_caret (h.of_suffix (List.suffix_cons 0x5E p))
  · have hloop : matchAlt t p pos mem = matchLoop t p.length p pos mem 0 := by
      rw [matchAlt, if_neg]
      cases p with
      | nil => decide
      | cons c p => exact hp
    have hnot : ¬Blocked t pos p := by
      rintro ⟨q, rfl, -⟩
      exact hp rfl
    have hres : LoopResult t p pos mem 0 (matchLoop t p.length p pos mem 0) := matchLoop_plain h 0
    rw [hloop]
    generalize matchLoop t p.length p pos mem 0 = res at hres
    cases hres with
    | matched n hcons =>
        rw [Nat.zero_add]
        exact .matched n (.plain hp hcons)
    | next hno =>
        refine .next ?_ hnot
        rintro ⟨n, hm⟩
        exact hno ⟨n, (matches_iff_consumes hp).mp hm⟩

end

/-! ## The alternatives of a pattern -/

/-- The pattern with these alternatives. -/
def joined (as : List PlainAlt) : Bytes := [(0x7C : UInt8)].intercalate (as.map PlainAlt.text)

section
variable (t : FileText) (pos : Nat) (mem : Option Bytes)

/-- The length that `match_region` reports for an alternative alone, if it returns `TRUE`. -/
def alone (a : PlainAlt) : Option Nat := (matchRegion t pos a.text mem).bind (·.len)

/-- The pattern is the disjunction of its alternatives: `match_region` returns, with the answer for
the first of them that matches alone. -/
def Disjunction (as : List PlainAlt) : Prop :=
  ∃ r, matchRegion t pos (joined as) mem = some r ∧ r.len = as.findSome? (alone t pos mem)

/-- The first alternative that matches does not stand behind a `^` that fails. -/
def ComesToFirst : List PlainAlt → Prop
  | [] => True
  | a :: as =>
      (∃ n, Matches t pos a.text n) ∨
        (¬Blocked t pos a.text ∧ ComesToFirst as) ∨
        (Blocked t pos a.text ∧ ¬BareEnd t pos a.text ∧ ∀ b ∈ as, ¬∃ n, Matches t pos b.text n)

end

section
variable {t : FileText} {pos : Nat} {mem : Option Bytes}

theorem splitOn_joined (a : PlainAlt) (as : List PlainAlt) :
    (joined (a :: as)).splitOn 0x7C = (a :: as).map PlainAlt.text := by
  refine List.splitOn_intercalate _ ?_ (by simp)
  intro l hl
  obtain ⟨b, -, rfl⟩ := List.mem_map.mp hl
  exact b.plain.noBar

theorem length_le_joined {a : PlainAlt} {as : List PlainAlt} (h : a ∈ as) :
    a.text.length ≤ (joined as).length := by
  induction as with
  | nil => cases h
  | cons b as ih =>
      cases as with
      | nil =>
          rw [List.mem_singleton.mp h]
          simp [joined]
      | cons c as =>
          have hcons : joined (b :: c :: as) = b.text ++ [0x7C] ++ joined (c :: as) :=
            List.intercalate_cons_cons
          rw [hcons, List.length_append, List.length_append]
          rcases List.mem_cons.mp h with rfl | h
          · omega
          · have := ih h
            omega

/-- An alternative alone, when it fits into the buffer. -/
theorem alone_eq (t : FileText) (pos : Nat) (mem : Option Bytes) {a : PlainAlt}
    (hlen : a.text.length < maxSplitMatchLength) :
    alone t pos mem a = (matchAlt t a.text pos mem).bind fun e =>
      match e.1 with
      | .matched n => some n
      | _ => none := by
  have hsplit : a.text.splitOn 0x7C = [a.text] := by
    simpa [joined] using splitOn_joined a []
  rw [alone, matchRegion, if_pos hlen, hsplit, matchAlts]
  cases matchAlt t a.text pos mem with
  | none => rfl
  | some e =>
      obtain ⟨e, mem'⟩ := e
      cases e <;> rfl

theorem alone_eq_none_iff (t : FileText) (pos : Nat) (mem : Option Bytes) {a : PlainAlt}
    (hlen : a.text.length < maxSplitMatchLength) :
    alone t pos mem a = none ↔ ¬∃ n, Matches t pos a.text n := by
  have hres : AltResult t a.text pos mem (matchAlt t a.text pos mem) := matchAlt_plain a.plain
  rw [alone_eq t pos mem hlen]
  generalize matchAlt t a.text pos mem = res at hres
  cases hres with
  | matched n hm => simpa using ⟨n, hm⟩
  | next hno _ => simpa using hno
  | leave hblocked _ => simpa using hblocked.not_matches
  | fault hbare => simpa using hbare.blocked.not_matches

/-- The loop over the alternatives, by cases of how the first one ends. -/
theorem matchAlts_iff {as : List PlainAlt}
    (hlen : ∀ a ∈ as, a.text.length < maxSplitMatchLength) :
    (∃ r, matchAlts t pos (as.map PlainAlt.text) mem = some r ∧
      r.len = as.findSome? (alone t pos mem)) ↔ ComesToFirst t pos as := by
  induction as with
  | nil => exact ⟨fun _ => trivial, fun _ => ⟨⟨none, mem⟩, rfl, rfl⟩⟩
  | cons a as ih =>
      obtain ⟨ha, has⟩ := List.forall_mem_cons.mp hlen
      have hres : AltResult t a.text pos mem (matchAlt t a.text pos mem) := matchAlt_plain a.plain
      have halone := alone_eq t pos mem ha
      have hnone := alone_eq_none_iff t pos mem ha
      rw [List.map_cons, matchAlts, List.findSome?_cons, ComesToFirst]
      generalize matchAlt t a.text pos mem = res at hres halone
      cases hres with
      | matched n hm =>
          have hfirst : alone t pos mem a = some n := halone
          rw [hfirst]
          exact ⟨fun _ => .inl ⟨n, hm⟩, fun _ => ⟨⟨some n, mem⟩, rfl, rfl⟩⟩
      | next hno hnot =>
          rw [hnone.mpr hno]
          refine (ih has).trans ⟨fun h => .inr (.inl ⟨hnot, h⟩), ?_⟩
          rintro (h | ⟨-, h⟩ | ⟨h, -⟩)
          · exact absurd h hno
          · exact h
          · exact absurd h hnot
      | leave hblocked hbare =>
          have hno := hblocked.not_matches
          rw [hnone.mpr hno]
          have hrest : (none : Option Nat) = as.findSome? (alone t pos mem) ↔
              ∀ b ∈ as, ¬∃ n, Matches t pos b.text n := by
            rw [eq_comm, List.findSome?_eq_none_iff]
            exact forall₂_congr fun b hb => alone_eq_none_iff t pos mem (has b hb)
          constructor
          · rintro ⟨r, hr, hlen⟩
            cases hr
            exact .inr (.inr ⟨hblocked, hbare, hrest.mp hlen⟩)
          · rintro (h | ⟨h, -⟩ | ⟨-, -, h⟩)
            · exact absurd h hno
            · exact absurd hblocked h
            · exact ⟨⟨none, mem⟩, rfl, hrest.mpr h⟩
      | fault hbare =>
          have hno := hbare.blocked.not_matches
          constructor
          · rintro ⟨r, hr, -⟩
            cases hr
          · rintro (h | ⟨h, -⟩ | ⟨-, h, -⟩)
            · exact absurd h hno
            · exact absurd hbare.blocked h
            · exact absurd hbare h

end

/-- A pattern without `\z` is the disjunction of its alternatives exactly when it fits into the
buffer and the matcher comes to the first alternative that matches. -/
theorem alternation_iff (t : FileText) (pos : Nat) (mem : Option Bytes) (a : PlainAlt)
    (as : List PlainAlt) : Disjunction t pos mem (a :: as) ↔
      (joined (a :: as)).length < maxSplitMatchLength ∧ ComesToFirst t pos (a :: as) := by
  rw [Disjunction, matchRegion, splitOn_joined]
  split
  · next hlen =>
    rw [matchAlts_iff fun b hb => Nat.lt_of_le_of_lt (length_le_joined hb) hlen]
    exact ⟨fun h => ⟨hlen, h⟩, And.right⟩
  · next hlen =>
    constructor
    · rintro ⟨r, hr, -⟩
      cases hr
    · exact fun h => absurd h.1 hlen

/-- `^a` -/
def caretA : PlainAlt := ⟨[0x5E, 0x61], by decide, by decide, by decide⟩

/-- `b` -/
def plainB : PlainAlt := ⟨[0x62], by decide, by decide, by decide⟩

/-- The text `xb`. -/
def xbText : FileText := ⟨[0x78, 0x62], by decide, 0⟩

/-- At the `b` of `xb` the pattern `^a|b` does not match, though `b` does. -/
theorem caret_hides_rest : ¬Disjunction xbText 1 (some []) [caretA, plainB] := by
  rintro ⟨r, hr, hlen⟩
  cases hr
  cases hlen

end HapAndroid.Highlight
