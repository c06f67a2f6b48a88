import HapAndroid.Lib.Machine
import HapAndroid.Highlight.Commands

/-!
# The words of a keyword line

`Letter` is a byte of the list, or the byte that a backslash stands for.  The list ends at a line
feed, or at a word that starts with a bar or a hash (`listLetters`); its words are what stands
between blanks, tabs and carriage returns.

The loop of `syn_cmd_keyword` that copies them is a machine with the buffer that it fills.  It
skips blanks and tabs between two words, but not a carriage return, where it writes one empty word
after the other.  So it copies the words of the list exactly when there is no carriage return
among its letters (`keywordContract_iff`).
-/

namespace HapAndroid.Highlight

open Machine

/-! ## The words of a list -/

/-- A byte of a list of words; a quoted one stands behind a backslash. -/
structure Letter where
  quoted : Bool
  byte : UInt8
deriving DecidableEq

/-- The letters of a text.  A backslash at the very end stands for itself. -/
def letters : Bytes → List Letter
  | [] => []
  | [c] => [⟨false, c⟩]
  | c :: d :: p => if c = 0x5C then ⟨true, d⟩ :: letters p else ⟨false, c⟩ :: letters (d :: p)

namespace Letter

/-- A blank, a tab or a carriage return. -/
def separates (x : Letter) : Bool := !x.quoted && (isWhite x.byte || x.byte == 0x0D)

/-- A line feed, or the start of a word with a bar or a hash. -/
def ends (start : Bool) (x : Letter) : Bool :=
  !x.quoted && (x.byte == 0x0A || start && (x.byte == 0x7C || x.byte == 0x23))

end Letter

/-- The letters of the list; `start` says that no word has begun. -/
def listLetters : Bool → List Letter → List Letter
  | _, [] => []
  | start, x :: xs => if x.ends start then [] else x :: listLetters x.separates xs

/-- The words between separators. -/
def wordsOf (xs : List Letter) : List Bytes :=
  ((xs.splitOnP Letter.separates).filter (· ≠ [])).map (·.map Letter.byte)

/-- The words behind the group name of a keyword command. -/
def listedWords (p : Bytes) : List Bytes :=
  if endsExcmd p then [] else wordsOf (listLetters true (letters (skipwhite (skiptowhite p))))

/-! ## The copy -/

/-- The loop that copies: where it reads, what it has written, and the number of words. -/
structure Copy where
  rest : Bytes
  out : Bytes
  cnt : Nat

/-- One pass of the loop copies one word and its zero byte. -/
def Copy.step (s : Copy) : Copy :=
  if endsExcmd s.rest then s
  else ⟨skipwhite (copyWord s.rest).2, s.out ++ (copyWord s.rest).1 ++ [0], s.cnt + 1⟩

/-- The words that are read back from the buffer, one after the other. -/
def readBack : Nat → Bytes → List Bytes
  | 0, _ => []
  | cnt + 1, out =>
      out.takeWhile (· ≠ 0) :: readBack cnt (out.drop ((out.takeWhile (· ≠ 0)).length + 1))

/-- The contract of a keyword line. -/
structure KeywordContract (l : Loader) (p : Bytes) : Prop where
  /-- The copy ends, in a buffer of the size that was allocated, with the words of the list. -/
  copies : ∀ rest ∈ getGroupName p, ∃ s, Reaches Copy.step ⟨rest, [], 0⟩ s ∧
    endsExcmd s.rest = true ∧ s.out.length ≤ rest.length + 1 ∧
    readBack s.cnt s.out = listedWords p
  /-- `add_keyword` is called for each of them. -/
  registers : ∃ id groups,
    synCmdKeyword l p = some ((listedWords p).foldl (addKeyword id) { l with groups }) ∧
    ((getGroupName p).isSome = true → synCheckGroup l.groups (untilWhite p) true = some (id, groups))

/-! ## The words, letter by letter -/

namespace Letter

/-- A letter that a copied word stops at. -/
def stops (x : Letter) : Bool := !x.quoted && isBlank x.byte

def white (x : Letter) : Bool := !x.quoted && isWhite x.byte

/-- The carriage return. -/
def cr : Letter := ⟨false, 0x0D⟩

variable {x : Letter}

theorem separates_of_white (h : x.white = true) : x.separates = true := by
  simp_all [white, separates]

theorem separates_of_not_stops (h : x.stops = false) : x.separates = false := by
  simp only [stops, separates, isBlank, isBreak] at *
  grind

theorem ends_of_not_stops (h : x.stops = false) : x.ends false = false := by
  simp only [stops, ends, isBlank, isBreak] at *
  grind

theorem ends_of_white (h : x.white = true) (start : Bool) : x.ends start = false := by
  simp only [white, ends, isWhite] at *
  grind

/-- A blank letter ends the list in front of a word or inside of one. -/
theorem ends_of_stops (h : x.stops = true) (start : Bool) : x.ends start = x.ends false := by
  simp only [stops, ends, isBlank, isWhite, isBreak] at *
  grind

end Letter

section
variable {p : Bytes} {c d : UInt8}

theorem letters_escape (d : UInt8) (p : Bytes) :
    letters (0x5C :: d :: p) = ⟨true, d⟩ :: letters p := rfl

theorem letters_cons (h : c ≠ 0x5C ∨ p = []) : letters (c :: p) = ⟨false, c⟩ :: letters p := by
  cases p with
  | nil => rfl
  | cons d p => rw [letters, if_neg (h.resolve_right (by simp))]

theorem copyWord_blank (h : isBlank c = true) (p : Bytes) : copyWord (c :: p) = ([], c :: p) := by
  rw [copyWord.eq_def]
  exact if_pos h

theorem copyWord_escape (d : UInt8) (p : Bytes) :
    copyWord (0x5C :: d :: p) = (d :: (copyWord p).1, (copyWord p).2) := rfl

theorem copyWord_cons (hb : isBlank c = false) (h : c ≠ 0x5C ∨ p = []) :
    copyWord (c :: p) = (c :: (copyWord p).1, (copyWord p).2) := by
  rw [copyWord.eq_def]
  simp only [hb, Bool.false_eq_true, if_false]
  split
  · next hc hp =>
    rcases h with h | h
    · exact absurd rfl h
    · cases h
  · rfl

/-- Induction along a word: it stops at a blank, and a backslash takes the next byte with it. -/
theorem copyWord_induction {P : Bytes → Prop} (nil : P [])
    (blank : ∀ c p, isBlank c = true → P (c :: p))
    (escape : ∀ d p, P p → P (0x5C :: d :: p))
    (cons : ∀ c p, isBlank c = false → c ≠ 0x5C ∨ p = [] → P p → P (c :: p)) (p : Bytes) : P p := by
  induction p using letters.induct with
  | case1 => exact nil
  | case2 c =>
      cases hb : isBlank c with
      | true => exact blank c [] hb
      | false => exact cons c [] hb (.inr rfl) nil
  | case3 d p ih => exact escape d p ih
  | case4 c d p hc ih =>
      cases hb : isBlank c with
      | true => exact blank c _ hb
      | false => exact cons c _ hb (.inl hc) ih

/-- A copied word goes to the first letter that it stops at. -/
theorem copyWord_letters (p : Bytes) :
    (copyWord p).1 = ((letters p).takeWhile (!·.stops)).map Letter.byte ∧
      letters (copyWord p).2 = (letters p).dropWhile (!·.stops) := by
  induction p using copyWord_induction with
  | nil => exact ⟨rfl, rfl⟩
  | blank c p hb =>
      have hc : c ≠ 0x5C := by
        rintro rfl
        cases hb
      rw [copyWord_blank hb]
      simp [letters_cons (.inl hc), Letter.stops, hb]
  | escape d p ih =>
      rw [copyWord_escape, letters_escape]
      simpa [Letter.stops] using ih
  | cons c p hb hc ih =>
      rw [copyWord_cons hb hc, letters_cons hc]
      simpa [Letter.stops, hb] using ih

/-- The first letter is the first byte, or a backslash quotes it. -/
theorem exists_letter (c : UInt8) (p : Bytes) : ∃ x xs, letters (c :: p) = x :: xs ∧
    (x = ⟨false, c⟩ ∨ x.quoted = true ∧ c = 0x5C) := by
  by_cases h : c ≠ 0x5C ∨ p = []
  · exact ⟨_, _, letters_cons h, .inl rfl⟩
  · obtain ⟨hc, hp⟩ := not_or.mp h
    obtain ⟨d, p, rfl⟩ := List.exists_cons_of_ne_nil hp
    obtain rfl := not_not.mp hc
    exact ⟨_, _, letters_escape d p, .inr ⟨rfl, rfl⟩⟩

theorem letters_skipwhite (p : Bytes) :
    letters (skipwhite p) = (letters p).dropWhile Letter.white := by
  induction p with
  | nil => rfl
  | cons c p ih =>
      cases hw : isWhite c with
      | true =>
          have hc : c ≠ 0x5C := by
            rintro rfl
            cases hw
          rw [letters_cons (.inl hc), List.dropWhile_cons_of_pos (by simp [Letter.white, hw]), ← ih,
            skipwhite, skipwhite, List.dropWhile_cons_of_pos hw]
      | false =>
          obtain ⟨x, xs, hx, hc⟩ := exists_letter c p
          have hwhite : x.white = false := by
            rcases hc with rfl | ⟨hq, -⟩
            · exact hw
            · simp [Letter.white, hq]
          rw [skipwhite, List.dropWhile_cons_of_neg (by simp [hw]), hx,
            List.dropWhile_cons_of_neg (by simp [hwhite])]

/-- The loop ends where the list does. -/
theorem endsExcmd_eq (h0 : 0 ∉ p) : endsExcmd p = (letters p).head?.all (Letter.ends true) := by
  cases p with
  | nil => rfl
  | cons c p =>
      have hc : c ≠ 0 := fun h => h0 (h ▸ List.mem_cons_self ..)
      obtain ⟨x, xs, hx, hletter⟩ := exists_letter c p
      rw [hx, List.head?_cons, Option.all_some]
      rcases hletter with rfl | ⟨hq, rfl⟩
      · simp only [endsExcmd, List.headD_cons, Letter.ends]
        grind
      · simp [endsExcmd, Letter.ends, hq]

end

/-! ### The list -/

section
variable {xs ys w : List Letter} {x : Letter}

/-- Inside of a word the list goes on. -/
theorem listLetters_append (hw : ∀ x ∈ w, x.stops = false) (ys : List Letter) :
    listLetters false (w ++ ys) = w ++ listLetters false ys := by
  induction w with
  | nil => rfl
  | cons x w ih =>
      obtain ⟨hx, hw⟩ := List.forall_mem_cons.mp hw
      rw [List.cons_append, listLetters, if_neg (by simp [Letter.ends_of_not_stops hx]),
        Letter.separates_of_not_stops hx, ih hw, List.cons_append]

/-- Blanks in front of a word belong to the list. -/
theorem listLetters_white (ys : List Letter) : listLetters true ys =
    ys.takeWhile Letter.white ++ listLetters true (ys.dropWhile Letter.white) := by
  induction ys with
  | nil => rfl
  | cons y ys ih =>
      cases hy : y.white with
      | true =>
          rw [List.takeWhile_cons_of_pos hy, List.dropWhile_cons_of_pos hy, listLetters,
            if_neg (by simp [Letter.ends_of_white hy]), Letter.separates_of_white hy, ih,
            List.cons_append]
      | false =>
          rw [List.takeWhile_cons_of_neg (by simp [hy]), List.dropWhile_cons_of_neg (by simp [hy]),
            List.nil_append]

/-- Behind a word it does not matter that one has begun. -/
theorem listLetters_of_stops (h : ∀ y ∈ ys.head?, y.stops = true) :
    listLetters false ys = listLetters true ys := by
  cases ys with
  | nil => rfl
  | cons y ys => rw [listLetters, listLetters, Letter.ends_of_stops (h y rfl) true]

/-- A word goes up to a letter that it stops at. -/
theorem not_stops_of_mem : ∀ y ∈ xs.takeWhile (!·.stops), y.stops = false :=
  fun _ hy => by simpa using List.mem_takeWhile_imp hy

theorem stops_of_head : ∀ y ∈ (xs.dropWhile (!·.stops)).head?, y.stops = true :=
  fun y hy => by simpa using head_dropWhile y hy

/-- The list from the start of a word on: the word, blanks, and the rest of the list. -/
theorem listLetters_word (hx : x.ends true = false) (hstop : x.stops = false) (xs : List Letter) :
    listLetters true (x :: xs) = x :: xs.takeWhile (!·.stops) ++
      ((xs.dropWhile (!·.stops)).takeWhile Letter.white ++
        listLetters true ((xs.dropWhile (!·.stops)).dropWhile Letter.white)) := by
  rw [listLetters, if_neg (by simp [hx]), Letter.separates_of_not_stops hstop, List.cons_append]
  conv_lhs => rw [← List.takeWhile_append_dropWhile (p := fun x => !x.stops) (l := xs)]
  rw [listLetters_append not_stops_of_mem, listLetters_of_stops stops_of_head,
    listLetters_white (xs.dropWhile _)]

/-- Words split at a separator. -/
theorem wordsOf_append (xs ys : List Letter) (hx : x.separates = true) :
    wordsOf (xs ++ x :: ys) = wordsOf xs ++ wordsOf ys := by
  rw [wordsOf, List.splitOnP_append_cons xs ys hx, List.filter_append, List.map_append]
  rfl

theorem wordsOf_nil : wordsOf [] = [] := rfl

theorem wordsOf_white (hw : ∀ x ∈ w, x.white = true) (xs : List Letter) :
    wordsOf (w ++ xs) = wordsOf xs := by
  induction w with
  | nil => rfl
  | cons x w ih =>
      obtain ⟨hx, hw⟩ := List.forall_mem_cons.mp hw
      exact (wordsOf_append [] (w ++ xs) (Letter.separates_of_white hx)).trans (ih hw)

/-- Letters without a separator are one word. -/
theorem wordsOf_word (hne : w ≠ []) (hw : ∀ x ∈ w, x.separates = false) :
    wordsOf w = [w.map Letter.byte] := by
  rw [wordsOf, List.splitOnP_eq_singleton hw]
  simp [hne]

/-- A word, blanks, and the rest of a list, which is empty when there are no blanks. -/
theorem wordsOf_list {white : List Letter} (hne : w ≠ []) (hw : ∀ x ∈ w, x.stops = false)
    (hwhite : ∀ x ∈ white, x.white = true) (hxs : white = [] → xs = []) :
    wordsOf (w ++ (white ++ xs)) = w.map Letter.byte :: wordsOf xs := by
  have hword := wordsOf_word hne fun x hx => Letter.separates_of_not_stops (hw x hx)
  cases white with
  | nil => rw [hxs rfl, List.append_nil, List.append_nil, hword, wordsOf_nil]
  | cons x white =>
      obtain ⟨hx, hwhite⟩ := List.forall_mem_cons.mp hwhite
      rw [List.cons_append, wordsOf_append _ _ (Letter.separates_of_white hx), hword,
        wordsOf_white hwhite]
      rfl

/-- Behind a word without blanks the list has ended, or a carriage return stands there. -/
theorem listLetters_eq_nil (hys : ∀ y ∈ ys.head?, y.stops = true)
    (hcr : Letter.cr ∉ listLetters true (ys.dropWhile Letter.white))
    (hwhite : ys.takeWhile Letter.white = []) :
    listLetters true (ys.dropWhile Letter.white) = [] := by
  cases ys with
  | nil => rfl
  | cons y ys =>
      cases hy : y.white with
      | true => simp [hy] at hwhite
      | false =>
          rw [List.dropWhile_cons_of_neg (by simp [hy]), listLetters] at hcr ⊢
          split
          · rfl
          · next hend =>
            rw [if_neg hend] at hcr
            refine absurd ?_ hcr
            have hstops := hys y rfl
            have : y = Letter.cr := by
              obtain ⟨quoted, byte⟩ := y
              simp only [Letter.white, Letter.stops, Letter.ends, isBlank, isBreak, Letter.cr] at *
              grind
            rw [this]
            exact List.mem_cons_self ..

/-- The carriage returns of a list are those behind its first word. -/
theorem cr_mem_append (hw : ∀ x ∈ w, x.stops = false) (xs : List Letter) :
    Letter.cr ∈ w ++ (ys.takeWhile Letter.white ++ xs) ↔ Letter.cr ∈ xs := by
  have hword : Letter.cr ∉ w := fun h => absurd (hw _ h) (by decide)
  have hwhite : Letter.cr ∉ ys.takeWhile Letter.white :=
    fun h => absurd (List.mem_takeWhile_imp h) (by decide)
  simp [hword, hwhite]

/-- A word and the rest of the list. -/
theorem map_wordsOf (hne : w ≠ []) (hw : ∀ x ∈ w, x.stops = false)
    (hys : ∀ y ∈ ys.head?, y.stops = true) :
    (if Letter.cr ∈ listLetters true (ys.dropWhile Letter.white) then none
      else some (wordsOf (listLetters true (ys.dropWhile Letter.white)))).map
        (w.map Letter.byte :: ·) =
    if Letter.cr ∈ w ++ (ys.takeWhile Letter.white ++ listLetters true (ys.dropWhile Letter.white))
      then none
    else some (wordsOf (w ++ (ys.takeWhile Letter.white ++
      listLetters true (ys.dropWhile Letter.white)))) := by
  by_cases hcr : Letter.cr ∈ listLetters true (ys.dropWhile Letter.white)
  · rw [if_pos hcr, if_pos ((cr_mem_append hw _).mpr hcr), Option.map_none]
  · rw [if_neg hcr, if_neg (mt (cr_mem_append hw _).mp hcr), Option.map_some,
      wordsOf_list hne hw (fun _ => List.mem_takeWhile_imp) (listLetters_eq_nil hys hcr)]

end

/-! ### The copy of a list -/

section
variable {p : Bytes} {fuel : Nat}

theorem notMem_skipwhite {c : UInt8} (h : c ∉ p) : c ∉ skipwhite p :=
  fun hmem => h ((List.dropWhile_sublist _).subset hmem)

theorem copyWord_suffix (p : Bytes) : (copyWord p).2 <:+ p := by
  induction p using copyWord_induction with
  | nil => exact List.suffix_refl _
  | blank c p hb => simp [copyWord_blank hb]
  | escape d p ih =>
      rw [copyWord_escape]
      exact ih.trans ((List.suffix_cons ..).trans (List.suffix_cons ..))
  | cons c p hb hc ih =>
      rw [copyWord_cons hb hc]
      exact ih.trans (List.suffix_cons ..)

/-- At a byte that is not blank the copy moves on. -/
theorem copyWord_length_lt {c : UInt8} (hb : isBlank c = false) (p : Bytes) :
    (copyWord (c :: p)).2.length ≤ p.length := by
  by_cases h : c ≠ 0x5C ∨ p = []
  · rw [copyWord_cons hb h]
    exact (copyWord_suffix p).length_le
  · obtain ⟨hc, hp⟩ := not_or.mp h
    obtain ⟨d, p, rfl⟩ := List.exists_cons_of_ne_nil hp
    obtain rfl := not_not.mp hc
    rw [copyWord_escape, List.length_cons]
    exact Nat.le_succ_of_le (copyWord_suffix p).length_le

theorem isWhite_of_skipwhite {c : UInt8} (h : skipwhite (c :: p) = c :: p) : isWhite c = false := by
  cases hw : isWhite c with
  | false => rfl
  | true =>
      have hlen := congrArg List.length h
      rw [skipwhite, List.dropWhile_cons_of_pos hw, List.length_cons] at hlen
      have hle : (p.dropWhile isWhite).length ≤ p.length := (List.dropWhile_suffix _).length_le
      omega

theorem cr_mem_listLetters (xs : List Letter) : Letter.cr ∈ listLetters true (Letter.cr :: xs) :=
  List.mem_cons_self ..

/-- The loop copies the words of a list without a carriage return, and no other list. -/
theorem copyWords_eq (h0 : 0 ∉ p) (hwhite : skipwhite p = p) (hfuel : p.length ≤ fuel) :
    copyWords fuel p = if Letter.cr ∈ listLetters true (letters p) then none
      else some (wordsOf (listLetters true (letters p))) := by
  induction fuel generalizing p with
  | zero =>
      obtain rfl : p = [] := List.length_eq_zero_iff.mp (Nat.le_zero.mp hfuel)
      rfl
  | succ fuel ih =>
      cases p with
      | nil => rfl
      | cons c p =>
          obtain ⟨x, xs, hx, hletter⟩ := exists_letter c p
          have hends := endsExcmd_eq h0
          rw [hx, List.head?_cons, Option.all_some] at hends
          rw [copyWords, hends, hx]
          cases hend : x.ends true with
          | true =>
              rw [if_pos rfl, listLetters, if_pos hend, if_neg List.not_mem_nil]
              rfl
          | false =>
              rw [if_neg (by simp)]
              by_cases hbreak : isBreak c = true
              · -- A carriage return is no end and no word.
                obtain rfl : x = Letter.cr := by
                  rcases hletter with rfl | ⟨-, rfl⟩
                  · simp only [isBreak, Letter.ends, Letter.cr] at *
                    grind
                  · cases hbreak
                rw [List.headD_cons, if_pos hbreak, if_pos (cr_mem_listLetters xs)]
              · have hblank : isBlank c = false := by
                  simp [isBlank, isWhite_of_skipwhite hwhite, hbreak]
                have hstop : x.stops = false := by
                  rcases hletter with rfl | ⟨hq, -⟩
                  · exact hblank
                  · simp [Letter.stops, hq]
                obtain ⟨hword, hrest⟩ := copyWord_letters (c :: p)
                rw [hx, List.takeWhile_cons_of_pos (by simp [hstop])] at hword
                rw [hx, List.dropWhile_cons_of_pos (by simp [hstop])] at hrest
                have hlen := copyWord_length_lt hblank p
                have hlen' : (skipwhite (copyWord (c :: p)).2).length ≤ (copyWord (c :: p)).2.length :=
                  (List.dropWhile_suffix _).length_le
                have hmem : 0 ∉ skipwhite (copyWord (c :: p)).2 :=
                  notMem_skipwhite fun hm => h0 ((copyWord_suffix _).subset hm)
                rw [List.length_cons] at hfuel
                rw [List.headD_cons, if_neg hbreak, hword,
                  ih hmem (skipwhite_skipwhite _) (by omega), letters_skipwhite, hrest,
                  listLetters_word hend hstop]
                exact map_wordsOf (List.cons_ne_nil _ _)
                  (List.forall_mem_cons.mpr ⟨hstop, not_stops_of_mem⟩) stops_of_head

end

/-! ## The buffer -/

/-- Words with their zero bytes. -/
def zeroEnded (ws : List Bytes) : Bytes := ws.flatMap (· ++ [0])

theorem readBack_zeroEnded {ws : List Bytes} (h : ∀ w ∈ ws, 0 ∉ w) :
    readBack ws.length (zeroEnded ws) = ws := by
  induction ws with
  | nil => rfl
  | cons w ws ih =>
      obtain ⟨hw, hws⟩ := List.forall_mem_cons.mp h
      have htake : (zeroEnded (w :: ws)).takeWhile (· ≠ 0) = w := by
        rw [zeroEnded, List.flatMap_cons, List.append_assoc, List.takeWhile_append_of_pos
          fun c hc => decide_eq_true (ne_of_mem_of_not_mem hc hw)]
        simp
      have hdrop : (zeroEnded (w :: ws)).drop (w.length + 1) = zeroEnded ws := by
        rw [zeroEnded, List.flatMap_cons]
        exact List.drop_left' (by simp)
      rw [List.length_cons, readBack, htake, hdrop, ih hws]

section
variable {p : Bytes} {fuel : Nat} {ws : List Bytes}

/-- What a pass of the loop over the words does. -/
theorem copyWords_succ (hend : endsExcmd p = false) (hcr : isBreak (p.headD 0) = false) :
    copyWords (fuel + 1) p =
      (copyWords fuel (skipwhite (copyWord p).2)).map ((copyWord p).1 :: ·) := by
  rw [copyWords, if_neg (ne_true_of_eq_false hend), if_neg (ne_true_of_eq_false hcr)]

theorem copyWords_of_ends (hend : endsExcmd p = true) : copyWords fuel p = some [] := by
  cases fuel <;> rw [copyWords, if_pos hend]

/-- The words that are copied from here on. -/
inductive Copied : Bytes → List Bytes → Prop where
  | ended {p : Bytes} (hend : endsExcmd p = true) : Copied p []
  | word {p : Bytes} {ws : List Bytes} (hend : endsExcmd p = false)
      (hcr : isBreak (p.headD 0) = false) (hrest : Copied (skipwhite (copyWord p).2) ws) :
      Copied p ((copyWord p).1 :: ws)

theorem copied_of_copyWords (h : copyWords fuel p = some ws) : Copied p ws := by
  induction fuel generalizing p ws with
  | zero =>
      rw [copyWords] at h
      split at h
      · next hend =>
        cases h
        exact .ended hend
      · cases h
  | succ fuel ih =>
      cases hend : endsExcmd p with
      | true =>
          rw [copyWords_of_ends hend] at h
          cases h
          exact .ended hend
      | false =>
          cases hcr : isBreak (p.headD 0) with
          | true =>
              rw [copyWords, if_neg (ne_true_of_eq_false hend), if_pos hcr] at h
              cases h
          | false =>
              rw [copyWords_succ hend hcr] at h
              obtain ⟨ws, hws, rfl⟩ := Option.map_eq_some_iff.mp h
              exact .word hend hcr (ih hws)

/-- Where the words are copied, the loop ends with them in the buffer. -/
theorem Copied.reaches (h : Copied p ws) (out : Bytes) (cnt : Nat) :
    ∃ s, Reaches Copy.step ⟨p, out, cnt⟩ s ∧ endsExcmd s.rest = true ∧
      s.out = out ++ zeroEnded ws ∧ s.cnt = cnt + ws.length := by
  induction h generalizing out cnt with
  | ended hend => exact ⟨_, .refl _ _, hend, by simp [zeroEnded], rfl⟩
  | @word p ws hend hcr _ ih =>
      have hstep : Copy.step ⟨p, out, cnt⟩ =
          ⟨skipwhite (copyWord p).2, out ++ (copyWord p).1 ++ [0], cnt + 1⟩ := by
        rw [Copy.step, if_neg (by simp [hend])]
      obtain ⟨s, hs, hrest, hout, hcnt⟩ := ih (out ++ (copyWord p).1 ++ [0]) (cnt + 1)
      refine ⟨s, .head (hstep ▸ hs), hrest, ?_, ?_⟩
      · rw [hout, zeroEnded, zeroEnded, List.flatMap_cons]
        simp only [List.append_assoc]
      · rw [hcnt, List.length_cons]
        omega

/-- The words from here on are not copied. -/
def Stuck (p : Bytes) : Prop := ∃ fuel, p.length ≤ fuel ∧ copyWords fuel p = none

theorem Stuck.not_ends (h : Stuck p) : endsExcmd p = false := by
  obtain ⟨fuel, -, hnone⟩ := h
  cases hend : endsExcmd p with
  | false => rfl
  | true =>
      rw [copyWords_of_ends hend] at hnone
      cases hnone

/-- A pass does not help: at a carriage return the loop stays, otherwise one is still to come. -/
theorem Stuck.next (h : Stuck p) : Stuck (skipwhite (copyWord p).2) := by
  have hend := h.not_ends
  obtain ⟨fuel, hlen, hnone⟩ := h
  cases p with
  | nil => cases hend
  | cons c p =>
      rw [List.length_cons] at hlen
      cases hcr : isBreak c with
      | true =>
          have hwhite : isWhite c = false := by
            simp only [isBreak, isWhite] at *
            grind
          rw [copyWord_blank (by simp [isBlank, hcr]), skipwhite,
            List.dropWhile_cons_of_neg (by simp [hwhite])]
          exact ⟨fuel, hlen, hnone⟩
      | false =>
          obtain ⟨fuel, rfl⟩ : ∃ f, fuel = f + 1 := ⟨fuel - 1, by omega⟩
          rw [copyWords_succ hend hcr, Option.map_eq_none_iff] at hnone
          refine ⟨fuel, Nat.le_trans ?_ (Nat.le_of_succ_le_succ hlen), hnone⟩
          cases hwhite : isWhite c with
          | true =>
              rw [copyWord_blank (by simp [isBlank, hwhite]), skipwhite,
                List.dropWhile_cons_of_pos hwhite]
              exact (List.dropWhile_suffix _).length_le
          | false =>
              have hblank : isBlank c = false := by simp [isBlank, hwhite, hcr]
              exact Nat.le_trans (List.dropWhile_suffix _).length_le (copyWord_length_lt hblank p)

/-- Where the words are not copied, the loop does not end. -/
theorem Stuck.never_ends (h : Stuck p) {out : Bytes} {cnt : Nat} {s : Copy}
    (hs : Reaches Copy.step ⟨p, out, cnt⟩ s) : endsExcmd s.rest = false := by
  refine (hs.invariant (I := fun s => Stuck s.rest) (fun s hs => ?_) h).not_ends
  rw [Copy.step, if_neg (ne_true_of_eq_false hs.not_ends)]
  exact hs.next

/-- The copied word and what is left are not longer than the text. -/
theorem length_copyWord_add (p : Bytes) :
    (copyWord p).1.length + (copyWord p).2.length ≤ p.length := by
  induction p using copyWord_induction with
  | nil => exact Nat.le_refl _
  | blank c p hb => simp [copyWord_blank hb]
  | escape d p ih =>
      rw [copyWord_escape]
      simp only [List.length_cons]
      omega
  | cons c p hb hc ih =>
      rw [copyWord_cons hb hc]
      simp only [List.length_cons]
      omega

/-- Behind a word a blank follows, which has no place in the buffer. -/
theorem head_copyWord (p : Bytes) : ∀ c ∈ (copyWord p).2.head?, isBlank c = true := by
  induction p using copyWord_induction with
  | nil => rintro c ⟨⟩
  | blank c p hb =>
      rw [copyWord_blank hb]
      rintro _ ⟨⟩
      exact hb
  | escape d p ih => exact ih
  | cons c p hb hc ih =>
      rw [copyWord_cons hb hc]
      exact ih

theorem Copied.eq_nil_of_break {c : UInt8} (h : Copied (c :: p) ws) (hc : isBreak c = true) :
    ws = [] := by
  cases h with
  | ended _ => rfl
  | word _ hcr _ =>
      rw [List.headD_cons, hc] at hcr
      cases hcr

/-- What is copied behind a word has room without the blank that follows the word. -/
theorem length_zeroEnded_rest {rest : Bytes} (hrest : ∀ c ∈ rest.head?, isBlank c = true)
    (h : Copied (skipwhite rest) ws)
    (hle : (zeroEnded ws).length ≤ (skipwhite rest).length + 1) :
    (zeroEnded ws).length ≤ rest.length := by
  cases rest with
  | nil =>
      cases h with
      | ended _ => exact Nat.le_refl 0
      | word hend _ _ => cases hend
  | cons c rest =>
      cases hwhite : isWhite c with
      | true =>
          rw [skipwhite, List.dropWhile_cons_of_pos hwhite] at hle
          have hskip : (rest.dropWhile isWhite).length ≤ rest.length :=
            (List.dropWhile_suffix _).length_le
          rw [List.length_cons]
          omega
      | false =>
          have hbreak : isBreak c = true := by
            have hblank := hrest c rfl
            rwa [isBlank, hwhite, Bool.false_or] at hblank
          rw [skipwhite, List.dropWhile_cons_of_neg (ne_true_of_eq_false hwhite)] at h
          rw [h.eq_nil_of_break hbreak]
          exact Nat.zero_le _

theorem copyWord_subset (p : Bytes) : (copyWord p).1 ⊆ p := by
  induction p using copyWord_induction with
  | nil => exact List.Subset.refl _
  | blank c p hb => simp [copyWord_blank hb]
  | escape d p ih =>
      rw [copyWord_escape]
      exact List.subset_cons_of_subset _ (List.cons_subset_cons d ih)
  | cons c p hb hc ih =>
      rw [copyWord_cons hb hc]
      exact List.cons_subset_cons c ih

theorem Copied.zero_notMem (h : Copied p ws) (h0 : 0 ∉ p) : ∀ w ∈ ws, 0 ∉ w := by
  induction h with
  | ended _ => simp
  | @word p _ _ _ _ ih =>
      have hrest : 0 ∉ skipwhite (copyWord p).2 :=
        notMem_skipwhite fun hm => h0 ((copyWord_suffix _).subset hm)
      exact List.forall_mem_cons.mpr ⟨fun hm => h0 (copyWord_subset p hm), ih hrest⟩

/-- The words with their zero bytes fit into a buffer of one byte more than the text. -/
theorem Copied.length_zeroEnded_le (h : Copied p ws) : (zeroEnded ws).length ≤ p.length + 1 := by
  induction h with
  | ended _ => exact Nat.zero_le _
  | @word p _ _ _ hws ih =>
      have hrest := length_zeroEnded_rest (head_copyWord p) hws ih
      have hadd := length_copyWord_add p
      rw [zeroEnded, List.flatMap_cons, List.length_append, List.length_append,
        List.length_singleton, ← zeroEnded]
      omega

end

/-! ## The contract -/

section
variable {l : Loader} {p rest : Bytes}

theorem listedWords_of_some (h : getGroupName p = some rest) :
    listedWords p = wordsOf (listLetters true (letters rest)) := by
  obtain ⟨hend, -, rfl⟩ := getGroupName_eq_some_iff.mp h
  rw [listedWords, if_neg (ne_true_of_eq_false hend)]

theorem listedWords_of_none (h : getGroupName p = none) : listedWords p = [] := by
  unfold listedWords
  split
  · rfl
  · next hend =>
    rw [(getGroupName_eq_none_iff.mp h).resolve_left hend]
    rfl

theorem notMem_arguments (h0 : 0 ∉ p) (h : getGroupName p = some rest) : 0 ∉ rest := by
  rw [(getGroupName_eq_some_iff.mp h).2.2]
  exact notMem_skipwhite fun hmem => h0 ((List.dropWhile_sublist _).subset hmem)

/-- The contract holds for the lines that have no carriage return in their list. -/
theorem keywordContract_iff (h : l.Wf) (h0 : 0 ∉ p) : KeywordContract l p ↔
    ∀ rest ∈ getGroupName p, Letter.cr ∉ listLetters true (letters rest) := by
  cases hrest : getGroupName p with
  | none =>
      refine iff_of_true ⟨fun rest hmem => ?_, 0, l.groups, ?_, ?_⟩ (by simp)
      · rw [hrest] at hmem
        cases hmem
      · rw [synCmdKeyword, hrest, listedWords_of_none hrest]
        rfl
      · simp [hrest]
  | some rest =>
      have hzero := notMem_arguments h0 hrest
      have hcopy := copyWords_eq hzero (skipwhite_of_getGroupName hrest) (Nat.le_refl _)
      constructor
      · rintro ⟨hcopies, -⟩ _ ⟨⟩ hcr
        obtain ⟨s, hs, hend, -⟩ := hcopies rest hrest
        rw [if_pos hcr] at hcopy
        have hstuck : Stuck rest := ⟨_, Nat.le_refl _, hcopy⟩
        exact absurd (hend.symm.trans (hstuck.never_ends hs)) (by decide)
      · intro hcr
        rw [if_neg (hcr rest rfl), ← listedWords_of_some hrest] at hcopy
        constructor
        · intro rest' hrest'
          obtain rfl : rest = rest' := Option.some.inj (hrest.symm.trans hrest')
          have hcopied := copied_of_copyWords hcopy
          obtain ⟨s, hs, hend, hout, hcnt⟩ := hcopied.reaches [] 0
          refine ⟨s, hs, hend, ?_, ?_⟩
          · rw [hout, List.nil_append]
            exact hcopied.length_zeroEnded_le
          · rw [hout, hcnt, List.nil_append, Nat.zero_add]
            exact readBack_zeroEnded (hcopied.zero_notMem hzero)
        · obtain ⟨id, groups, hcheck, -⟩ := exists_checked h.groups (untilWhite p)
          refine ⟨id, groups, ?_, fun _ => hcheck⟩
          rw [synCmdKeyword, hrest]
          simp only [hcheck, hcopy, Option.map_some]

/-- A list with a quoted hash and a comment. -/
theorem keywordContract_quoted : KeywordContract initialLoader (bytes "Keyword if \\#else # x\n") := by
  refine (keywordContract_iff wf_initialLoader (by decide +kernel)).mpr ?_
  rintro _ ⟨⟩
  decide +kernel

/-- The line ends with a carriage return and a line feed: the copy does not end. -/
theorem crlf_not_keywordContract :
    ¬ KeywordContract initialLoader (bytes "Keyword if\r\n") := by
  rintro ⟨hcopies, -⟩
  obtain ⟨s, hs, hend, -⟩ := hcopies (bytes "if\r\n") (by decide +kernel)
  have hstuck : Stuck (bytes "if\r\n") := ⟨4, by decide +kernel, by decide +kernel⟩
  exact absurd (hend.symm.trans (hstuck.never_ends hs)) (by decide)

end

end HapAndroid.Highlight
