import Mathlib.Data.List.Infix

/-!
# Searching with simple regular expressions

An expression is a row of pieces: a choice of words, a greedy or a reluctant repetition of
a test, or a condition on the position that takes nothing.  Matching backtracks, so the
first match in the order of the choices is found, as the libraries do it.  `allMatches` lists
the matches of a search that goes on behind each match.

`infix_of_match` says that the words of an expression stand in every text it matches, and
`Delimited.covered` that a search for what stands between two marks leaves nothing out.
-/

namespace Regex

variable {α : Type}

/-- A part of an expression. -/
inductive Piece (α : Type) where
  /-- One of some words, tried in order. -/
  | word (ws : List (List α))
  /-- As many elements as possible. -/
  | star (test : α → Bool)
  /-- As few elements as possible. -/
  | lazyStar (test : α → Bool)
  /-- A condition on the position and on what follows. -/
  | look (cond : Nat → List α → Bool)

/-- Take as many elements as possible before `rest` matches. -/
def star (test : α → Bool) (rest : Nat → List α → Option Nat) : Nat → List α → Option Nat
  | pos, [] => rest pos []
  | pos, c :: t =>
      match (if test c then star test rest (pos + 1) t else none) with
      | some n => some (n + 1)
      | none => rest pos (c :: t)

/-- Take as few elements as possible before `rest` matches. -/
def lazyStar (test : α → Bool) (rest : Nat → List α → Option Nat) : Nat → List α → Option Nat
  | pos, [] => rest pos []
  | pos, c :: t =>
      match rest pos (c :: t) with
      | some n => some n
      | none => if test c then (lazyStar test rest (pos + 1) t).map (· + 1) else none

variable [DecidableEq α]

/-- The length of the match at a position, if there is one. -/
def matchAt : List (Piece α) → Nat → List α → Option Nat
  | [], _, _ => some 0
  | .word ws :: ps, pos, t =>
      ws.findSome? fun w =>
        if w <+: t then (matchAt ps (pos + w.length) (t.drop w.length)).map (· + w.length) else none
  | .star test :: ps, pos, t => star test (matchAt ps) pos t
  | .lazyStar test :: ps, pos, t => lazyStar test (matchAt ps) pos t
  | .look cond :: ps, pos, t => if cond pos t then matchAt ps pos t else none

/-- The matches from a position on, after `skip` elements that belong to the match before:
where each begins and ends. -/
def matchesFrom (ps : List (Piece α)) : Nat → Nat → List α → List (Nat × Nat)
  | 0, pos, [] => ((matchAt ps pos []).map fun n => (pos, pos + n)).toList
  | _ + 1, _, [] => []
  | skip + 1, pos, _ :: t => matchesFrom ps skip (pos + 1) t
  | 0, pos, c :: t =>
      match matchAt ps pos (c :: t) with
      | some n => (pos, pos + n) :: matchesFrom ps (n - 1) (pos + 1) t
      | none => matchesFrom ps 0 (pos + 1) t

/-- All matches, from left to right. -/
def allMatches (ps : List (Piece α)) (t : List α) : List (Nat × Nat) := matchesFrom ps 0 0 t

/-! ## Words in a match -/

omit [DecidableEq α] in
theorem suffix_of_star {test : α → Bool} {rest : Nat → List α → Option Nat} {pos n : Nat}
    {t : List α} (h : star test rest pos t = some n) :
    ∃ pos' t' n', t' <:+ t ∧ rest pos' t' = some n' := by
  induction t generalizing pos n with
  | nil => exact ⟨pos, [], n, List.suffix_rfl, h⟩
  | cons c t ih =>
      rw [star] at h
      split at h
      · next m hm =>
        split at hm
        · obtain ⟨pos', t', n', ht, hn⟩ := ih hm
          exact ⟨pos', t', n', ht.trans (List.suffix_cons c t), hn⟩
        · cases hm
      · exact ⟨pos, c :: t, n, List.suffix_rfl, h⟩

omit [DecidableEq α] in
theorem suffix_of_lazyStar {test : α → Bool} {rest : Nat → List α → Option Nat} {pos n : Nat}
    {t : List α} (h : lazyStar test rest pos t = some n) :
    ∃ pos' t' n', t' <:+ t ∧ rest pos' t' = some n' := by
  induction t generalizing pos n with
  | nil => exact ⟨pos, [], n, List.suffix_rfl, h⟩
  | cons c t ih =>
      rw [lazyStar] at h
      split at h
      · next m hm => exact ⟨pos, c :: t, m, List.suffix_rfl, hm⟩
      · split at h
        · obtain ⟨m, hm, -⟩ := Option.map_eq_some_iff.mp h
          obtain ⟨pos', t', n', ht, hn⟩ := ih hm
          exact ⟨pos', t', n', ht.trans (List.suffix_cons c t), hn⟩
        · cases h

/-- A match has one of the words of each of its choices in it. -/
theorem infix_of_match {ps : List (Piece α)} {ws : List (List α)} (hws : .word ws ∈ ps)
    {pos n : Nat} {t : List α} (h : matchAt ps pos t = some n) : ∃ w ∈ ws, w <:+: t := by
  induction ps generalizing pos n t with
  | nil => cases hws
  | cons p ps ih =>
      have hlater {t' : List α} (ht : t' <:+ t) {pos' n' : Nat}
          (hn : matchAt ps pos' t' = some n') (hmem : .word ws ∈ ps) : ∃ w ∈ ws, w <:+: t := by
        obtain ⟨w, hw, hin⟩ := ih hmem hn
        exact ⟨w, hw, hin.trans ht.isInfix⟩
      cases p with
      | word vs =>
          obtain ⟨v, hv, hmatch⟩ := List.exists_of_findSome?_eq_some h
          split at hmatch
          · next hpre =>
            obtain ⟨m, hm, -⟩ := Option.map_eq_some_iff.mp hmatch
            rcases List.mem_cons.mp hws with heq | hmem
            · cases heq
              exact ⟨v, hv, hpre.isInfix⟩
            · exact hlater (List.drop_suffix _ _) hm hmem
          · cases hmatch
      | star test =>
          obtain ⟨pos', t', n', ht, hn⟩ := suffix_of_star h
          exact hlater ht hn ((List.mem_cons.mp hws).resolve_left nofun)
      | lazyStar test =>
          obtain ⟨pos', t', n', ht, hn⟩ := suffix_of_lazyStar h
          exact hlater ht hn ((List.mem_cons.mp hws).resolve_left nofun)
      | look cond =>
          rw [matchAt] at h
          split at h
          · exact hlater List.suffix_rfl h ((List.mem_cons.mp hws).resolve_left nofun)
          · cases h

theorem matchAt_eq_none {ps : List (Piece α)} {ws : List (List α)} (hws : .word ws ∈ ps)
    {t : List α} (hno : ∀ w ∈ ws, ¬w <:+: t) (pos : Nat) : matchAt ps pos t = none := by
  cases hm : matchAt ps pos t with
  | none => rfl
  | some n =>
      obtain ⟨w, hw, hin⟩ := infix_of_match hws hm
      exact absurd hin (hno w hw)

/-- Without the words there is no match. -/
theorem matchesFrom_eq_nil {ps : List (Piece α)} {ws : List (List α)} (hws : .word ws ∈ ps)
    {t : List α} (hno : ∀ w ∈ ws, ¬w <:+: t) (skip pos : Nat) :
    matchesFrom ps skip pos t = [] := by
  induction t generalizing skip pos with
  | nil =>
      cases skip with
      | zero => rw [matchesFrom, matchAt_eq_none hws hno]; rfl
      | succ skip => rfl
  | cons c t ih =>
      have htail := ih fun w hw hin => hno w hw (hin.trans (List.suffix_cons c t).isInfix)
      cases skip with
      | zero => rw [matchesFrom, matchAt_eq_none hws hno, htail]
      | succ skip => rw [matchesFrom, htail]

/-! ## What stands between two marks -/

/-- What begins with a word, goes on with elements that pass a test, and ends with the
first element that is the closing one. -/
def between (opening : List α) (test : α → Bool) (closing : α) : List (Piece α) :=
  [.word [opening], .lazyStar test, .word [[closing]]]

/-- A part of a list that stands between the marks, with what is before and behind it. -/
structure Delimited (opening : List α) (test : α → Bool) (closing : α) (t before inner : List α) :
    Prop where
  eq : ∃ behind, t = before ++ (opening ++ (inner ++ closing :: behind))
  inner : ∀ c ∈ inner, test c = true ∧ c ≠ closing

section between
variable {opening : List α} {test : α → Bool} {closing : α}

theorem matchAt_closing (pos : Nat) (t : List α) :
    matchAt [.word [[closing]]] pos t = if [closing] <+: t then some 1 else none := by
  rw [matchAt, List.findSome?_singleton]
  split <;> rfl

theorem lazyStar_inner {inner behind : List α} (hinner : ∀ c ∈ inner, test c = true ∧ c ≠ closing)
    (pos : Nat) :
    lazyStar test (matchAt [.word [[closing]]]) pos (inner ++ closing :: behind) =
      some (inner.length + 1) := by
  induction inner generalizing pos with
  | nil => rw [List.nil_append, lazyStar, matchAt_closing, if_pos (by simp)]; rfl
  | cons c inner ih =>
      obtain ⟨htest, hne⟩ := hinner c List.mem_cons_self
      have hno : ¬[closing] <+: c :: (inner ++ closing :: behind) := by
        simpa using fun h : closing = c => hne h.symm
      rw [List.cons_append, lazyStar, matchAt_closing, if_neg hno]
      simp only [htest, if_true, ih (fun d hd => hinner d (List.mem_cons_of_mem c hd)),
        Option.map_some, List.length_cons]

/-- The expression finds what stands between the marks. -/
theorem matchAt_between {inner behind : List α}
    (hinner : ∀ c ∈ inner, test c = true ∧ c ≠ closing) (pos : Nat) :
    matchAt (between opening test closing) pos (opening ++ (inner ++ closing :: behind)) =
      some (inner.length + 1 + opening.length) := by
  rw [between, matchAt, List.findSome?_singleton, if_pos (List.prefix_append _ _),
    List.drop_left, matchAt, lazyStar_inner hinner, Option.map_some]

theorem lazyStar_last {pos n : Nat} {t : List α}
    (h : lazyStar test (matchAt [.word [[closing]]]) pos t = some n) :
    ∃ m, n = m + 1 ∧ t[m]? = some closing := by
  induction t generalizing pos n with
  | nil =>
      rw [lazyStar, matchAt_closing, if_neg (by simp)] at h
      cases h
  | cons c t ih =>
      rw [lazyStar, matchAt_closing] at h
      split at h
      · next k hk =>
        split at hk
        · next hpre =>
          cases hk
          cases h
          exact ⟨0, rfl, by simpa using (by simpa using hpre : closing = c).symm⟩
        · cases hk
      · split at h
        · obtain ⟨k, hk, rfl⟩ := Option.map_eq_some_iff.mp h
          obtain ⟨m, rfl, hm⟩ := ih hk
          exact ⟨m + 1, rfl, by simpa using hm⟩
        · cases h

/-- A match ends with the closing element. -/
theorem matchAt_between_last {pos n : Nat} {t : List α}
    (h : matchAt (between opening test closing) pos t = some n) :
    ∃ m, n = m + 1 ∧ t[m]? = some closing := by
  rw [between, matchAt, List.findSome?_singleton] at h
  split at h
  · obtain ⟨k, hk, rfl⟩ := Option.map_eq_some_iff.mp h
    obtain ⟨m, rfl, hm⟩ := lazyStar_last hk
    refine ⟨m + opening.length, by omega, ?_⟩
    rwa [List.getElem?_drop, Nat.add_comm] at hm
  · cases h

omit [DecidableEq α] in
/-- The first closing element behind the opening word is the one that ends the part. -/
theorem Delimited.le_of_closing {t before inner : List α}
    (h : Delimited opening test closing t before inner) (hclosing : closing ∉ opening) {m : Nat}
    (hm : t[m]? = some closing) (hle : before.length ≤ m) :
    before.length + opening.length + inner.length ≤ m := by
  obtain ⟨behind, rfl⟩ := h.eq
  by_contra hlt
  rw [List.getElem?_append_right hle] at hm
  by_cases hopen : m - before.length < opening.length
  · rw [List.getElem?_append_left hopen] at hm
    exact hclosing (List.mem_of_getElem? hm)
  · rw [List.getElem?_append_right (by omega), List.getElem?_append_left (by omega)] at hm
    exact (h.inner closing (List.mem_of_getElem? hm)).2 rfl

omit [DecidableEq α] in
theorem Delimited.tail {c : α} {t before inner : List α}
    (h : Delimited opening test closing (c :: t) (c :: before) inner) :
    Delimited opening test closing t before inner := by
  obtain ⟨behind, heq⟩ := h.eq
  exact ⟨⟨behind, (List.cons.inj heq).2⟩, h.inner⟩

omit [DecidableEq α] in
theorem Delimited.head {c b : α} {t before inner : List α}
    (h : Delimited opening test closing (c :: t) (b :: before) inner) : c = b := by
  obtain ⟨behind, heq⟩ := h.eq
  exact (List.cons.inj heq).1

/-- The search covers every part between the marks. -/
theorem Delimited.covered {t before inner : List α}
    (h : Delimited opening test closing t before inner) (hclosing : closing ∉ opening)
    {skip : Nat} (hskip : skip ≤ before.length) (pos : Nat) {k : Nat}
    (hlo : pos + before.length ≤ k)
    (hhi : k < pos + before.length + opening.length + inner.length + 1) :
    ∃ m ∈ matchesFrom (between opening test closing) skip pos t, m.1 ≤ k ∧ k < m.2 := by
  induction t generalizing before skip pos with
  | nil =>
      obtain ⟨behind, heq⟩ := h.eq
      have hlen := congrArg List.length heq
      simp at hlen
  | cons c t ih =>
      -- The search after `skip'` more elements.
      have hnext {before' : List α} (hbefore : before = c :: before') {skip' : Nat}
          (hskip' : skip' ≤ before'.length) :
          ∃ m ∈ matchesFrom (between opening test closing) skip' (pos + 1) t,
            m.1 ≤ k ∧ k < m.2 := by
        subst hbefore
        rw [List.length_cons] at hlo hhi
        exact ih h.tail hskip' (pos + 1) (by omega) (by omega)
      cases before with
      | nil =>
          obtain rfl : skip = 0 := Nat.le_zero.mp hskip
          obtain ⟨behind, heq⟩ := h.eq
          rw [List.nil_append] at heq
          have hmatch : matchAt (between opening test closing) pos
              (opening ++ (inner ++ closing :: behind)) = some _ := matchAt_between h.inner pos
          rw [matchesFrom, heq, hmatch]
          refine ⟨_, List.mem_cons_self, ?_, ?_⟩
          · simpa using hlo
          · simp only [List.length_nil] at hhi ⊢
            omega
      | cons b before =>
          obtain rfl := h.head
          rw [List.length_cons] at hskip hlo hhi
          cases skip with
          | succ skip =>
              rw [matchesFrom]
              exact hnext rfl (by omega)
          | zero =>
              rw [matchesFrom]
              cases hmatch : matchAt (between opening test closing) pos (c :: t) with
              | none => exact hnext rfl (Nat.zero_le _)
              | some n =>
                  obtain ⟨m, rfl, hm⟩ := matchAt_between_last hmatch
                  by_cases hshort : m + 1 ≤ before.length + 1
                  · obtain ⟨q, hq, hk⟩ := hnext rfl (show m + 1 - 1 ≤ before.length by omega)
                    exact ⟨q, List.mem_cons_of_mem _ hq, hk⟩
                  · have hend := h.le_of_closing hclosing hm (by simp; omega)
                    rw [List.length_cons] at hend
                    exact ⟨_, List.mem_cons_self, by simp only; omega, by simp only; omega⟩

end between

end Regex
