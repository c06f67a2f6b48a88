import HapAndroid.Highlight.Scan

/-!
# What `scan_syntax` reads

The scanner jumps between its loops.  Here is what it reads, said without them: a text is a list of
tokens, and at each place the first rule that applies gives the next one.  A blank comes first,
then a keyword, then the items in the order of the file, then a word or a single character.  The
token of an item with a start is the whole region, up to its end (`Body`).

The tokens lie side by side (`Lexes.tiles`), and there is one way to read a text (`Lexes.unique`).
-/

namespace HapAndroid.Highlight

/-! ## Places and tokens -/

/-- A place in the text: its position, the offset that is reported for it, and the word that `\z`
has stored on the way to it. -/
structure Place where
  pos : Nat
  cur : Nat
  mem : Bytes
deriving DecidableEq

namespace Place

@[simps] def bytes (p : Place) (n : Nat) : Place := { p with pos := p.pos + n, cur := p.cur + n }

@[simps] def char (p : Place) (t : FileText) : Place :=
  { p with pos := p.pos + utfcPtr2len t p.pos, cur := p.cur + 1 }

@[simps] def store (p : Place) (mem : Bytes) : Place := { p with mem }

end Place

/-- The kinds of tokens, with the groups of those that are recorded. -/
inductive TokenKind where
  | blank
  | word
  | char
  | keyword (group : Nat)
  | item (group : Nat)
  /-- A region with its end, and how its record is corrected. -/
  | region (group : Nat) (hg : Option Bytes)
  /-- A region that goes on to the end of the text or of the tag. -/
  | openRegion (group : Nat)
deriving DecidableEq

/-- A token: the bytes that it takes, and the offsets that they are counted as. -/
structure Token where
  kind : TokenKind
  size : Nat
  width : Nat
deriving DecidableEq

/-- The record of a token that starts at an offset. -/
def Token.record (cur : Nat) (k : Token) : Option Item :=
  match k.kind with
  | .blank | .word | .char => none
  | .keyword g | .item g | .openRegion g => some ⟨g, cur, (cur + k.width : Nat)⟩
  | .region g hg => (Scan.hgAdjust hg cur (cur + k.width : Nat)).map fun o => ⟨g, o.1, o.2⟩

/-- The records of tokens, one behind the other. -/
def records : Nat → List Token → List Item
  | _, [] => []
  | cur, k :: ks => (k.record cur).toList ++ records (cur + k.width) ks

/-! ## The rules -/

/-- What the items find at a place. -/
inductive Found where
  | item (pat : SynPat) (n : Nat)
  | start (pat : SynPat) (n : Nat)
  | nothing

/-- The first item that applies, with the word that is stored then. -/
def search (e : ScanEnv) (pos : Nat) : Bytes → List SynPat → Option (Found × Bytes)
  | mem, [] => some (.nothing, mem)
  | mem, pat :: pats =>
      if Scan.skipsItem pat then search e pos mem pats
      else
        match e.tryMatch pos mem pat.match with
        | none => none
        | some (some n, m) => some (.item pat n, m)
        | some (none, m) =>
            match e.tryMatch pos m pat.start with
            | none => none
            | some (some n, m) => some (.start pat n, m)
            | some (none, m) => search e pos m pats

/-- A region from behind its start on, or from behind its first end: whether it is closed, and the
place behind it. -/
inductive Body (e : ScanEnv) (pat : SynPat) : Bool → Place → Bool → Place → Prop
  | text {second : Bool} {p : Place} : e.text.byte p.pos = 0 → Body e pat second p false p
  | skip {second closed : Bool} {p q : Place} {n : Nat} {m : Bytes} : e.text.byte p.pos ≠ 0 →
      e.tryMatch p.pos p.mem pat.skip = some (some n, m) →
      Body e pat second ((p.store m).bytes n) closed q → Body e pat second p closed q
  | firstEnd {closed : Bool} {p q : Place} {n : Nat} {m' m : Bytes} : e.text.byte p.pos ≠ 0 →
      e.tryMatch p.pos p.mem pat.skip = some (none, m') →
      e.tryMatch p.pos m' pat.end = some (some n, m) →
      Body e pat false ((p.store m).bytes n) closed q → Body e pat true p closed q
  | close {p : Place} {n : Nat} {m' m : Bytes} : e.text.byte p.pos ≠ 0 →
      e.tryMatch p.pos p.mem pat.skip = some (none, m') →
      e.tryMatch p.pos m' pat.end = some (some n, m) →
      Body e pat false p true ((p.store m).bytes n)
  | tag {second : Bool} {p : Place} {m' m : Bytes} : e.text.byte p.pos ≠ 0 →
      e.tryMatch p.pos p.mem pat.skip = some (none, m') → pat.end ≠ none →
      e.tryMatch p.pos m' pat.end = some (none, m) →
      e.tagEnd.any (e.text.startsWith p.pos) = true → Body e pat second p false (p.store m)
  | char {second closed : Bool} {p q : Place} {m' m : Bytes} : e.text.byte p.pos ≠ 0 →
      e.tryMatch p.pos p.mem pat.skip = some (none, m') → pat.end ≠ none →
      e.tryMatch p.pos m' pat.end = some (none, m) →
      e.tagEnd.any (e.text.startsWith p.pos) = false →
      Body e pat second ((p.store m).char e.text) closed q → Body e pat second p closed q

/-- What the scanner sees first at a place. -/
inductive Sight where
  | textEnd
  | blank
  | keyword (n g : Nat)
  /-- No blank and no keyword, and this is what the items find. -/
  | found (f : Found) (m : Bytes)

def ScanEnv.sees (e : ScanEnv) (p : Place) : Option Sight :=
  if e.text.byte p.pos = 0 then some .textEnd
  else if isBlank (e.text.byte p.pos) then some .blank
  else
    match e.keywordAt p.pos with
    | some (n, g) => some (.keyword n g)
    | none => (search e p.pos p.mem e.buf.patterns).map fun r => .found r.1 r.2

/-- A word is skipped as a whole only if there are items. -/
def SkipsWord (e : ScanEnv) (p : Place) : Prop :=
  e.buf.patterns ≠ [] ∧ isKeyword (e.text.byte p.pos) = true

instance (e : ScanEnv) (p : Place) : Decidable (SkipsWord e p) := inferInstanceAs (Decidable (_ ∧ _))

/-- A token at a place, and the place behind it. -/
inductive ReadsToken (e : ScanEnv) (p : Place) : Token → Place → Prop
  | blank : e.sees p = some .blank → ReadsToken e p ⟨.blank, 1, 1⟩ (p.bytes 1)
  | keyword {n g : Nat} : e.sees p = some (.keyword n g) → g ≠ 0 →
      ReadsToken e p ⟨.keyword g, n, n⟩ (p.bytes n)
  | item {pat : SynPat} {n : Nat} {m : Bytes} : e.sees p = some (.found (.item pat n) m) →
      ReadsToken e p ⟨.item pat.fromId, n, n⟩ ((p.store m).bytes n)
  | region {pat : SynPat} {n size width : Nat} {m : Bytes} {q : Place} :
      e.sees p = some (.found (.start pat n) m) →
      Body e pat pat.end2.isSome ((p.store m).bytes n) true q →
      q.pos = p.pos + size → q.cur = p.cur + width →
      Scan.hgAdjust pat.hg p.cur q.cur ≠ none →
      ReadsToken e p ⟨.region pat.fromId pat.hg, size, width⟩ q
  | word {m : Bytes} : e.sees p = some (.found .nothing m) → SkipsWord e p →
      ReadsToken e p ⟨.word, e.text.run isKeyword p.pos, e.text.run isKeyword p.pos⟩
        ((p.store m).bytes (e.text.run isKeyword p.pos))
  | char {m : Bytes} : e.sees p = some (.found .nothing m) → ¬ SkipsWord e p →
      e.endText p.pos = false →
      ReadsToken e p ⟨.char, utfcPtr2len e.text p.pos, 1⟩ ((p.store m).char e.text)

/-- The tokens from a place on, to the end of the text or of the tag. -/
inductive Lexes (e : ScanEnv) : Place → List Token → Place → Prop
  | textEnd {p : Place} : e.sees p = some .textEnd → Lexes e p [] p
  | tagEnd {p : Place} {m : Bytes} : e.sees p = some (.found .nothing m) → ¬ SkipsWord e p →
      e.endText p.pos = true → Lexes e p [] (p.store m)
  | openRegion {p q : Place} {pat : SynPat} {n size width : Nat} {m : Bytes} :
      e.sees p = some (.found (.start pat n) m) →
      Body e pat pat.end2.isSome ((p.store m).bytes n) false q →
      q.pos = p.pos + size → q.cur = p.cur + width →
      Lexes e p [⟨.openRegion pat.fromId, size, width⟩] q
  | cons {p q r : Place} {k : Token} {ks : List Token} : ReadsToken e p k q → Lexes e q ks r →
      Lexes e p (k :: ks) r

/-- A whole call of `scan_syntax`. -/
def Scans (e : ScanEnv) (p : Place) (ks : List Token) (q : Place) : Prop :=
  if e.endText p.pos then ks = [] ∧ q = p else Lexes e (p.store []) ks q

/-! ## Tokens lie side by side -/

section
variable {e : ScanEnv} {pat : SynPat} {p q : Place} {second closed : Bool}

theorem Body.le (h : Body e pat second p closed q) : p.pos ≤ q.pos ∧ p.cur ≤ q.cur := by
  induction h with
  | text _ => exact ⟨Nat.le_refl _, Nat.le_refl _⟩
  | skip _ _ _ ih => exact ⟨Nat.le_of_add_right_le ih.1, Nat.le_of_add_right_le ih.2⟩
  | firstEnd _ _ _ _ ih => exact ⟨Nat.le_of_add_right_le ih.1, Nat.le_of_add_right_le ih.2⟩
  | close _ _ _ => exact ⟨Nat.le_add_right _ _, Nat.le_add_right _ _⟩
  | tag _ _ _ _ _ => exact ⟨Nat.le_refl _, Nat.le_refl _⟩
  | char _ _ _ _ _ _ ih => exact ⟨Nat.le_of_add_right_le ih.1, Nat.le_of_add_right_le ih.2⟩

/-- The size and the width of a region. -/
theorem Body.exists_size {n : Nat} {m : Bytes} (h : Body e pat second ((p.store m).bytes n) closed q) :
    ∃ size width, q.pos = p.pos + size ∧ q.cur = p.cur + width := by
  obtain ⟨hpos, hcur⟩ := h.le
  obtain ⟨size, hsize⟩ := Nat.exists_eq_add_of_le (Nat.le_of_add_right_le hpos)
  obtain ⟨width, hwidth⟩ := Nat.exists_eq_add_of_le (Nat.le_of_add_right_le hcur)
  exact ⟨size, width, hsize, hwidth⟩

theorem ReadsToken.pos_eq {k : Token} (h : ReadsToken e p k q) : q.pos = p.pos + k.size := by
  cases h with
  | region _ _ hpos _ _ => exact hpos
  | _ => rfl

theorem ReadsToken.cur_eq {k : Token} (h : ReadsToken e p k q) : q.cur = p.cur + k.width := by
  cases h with
  | region _ _ _ hcur _ => exact hcur
  | _ => rfl

/-- The texts of tokens from a position on. -/
def texts (t : FileText) : Nat → List Token → List Bytes
  | _, [] => []
  | pos, k :: ks => (t.rest pos).take k.size :: texts t (pos + k.size) ks

/-- Nothing is left out between two tokens, and nothing is read twice. -/
theorem Lexes.tiles {ks : List Token} (h : Lexes e p ks q) :
    ∃ n, q.pos = p.pos + n ∧ (texts e.text p.pos ks).flatten = (e.text.rest p.pos).take n := by
  induction h with
  | textEnd _ => exact ⟨0, rfl, rfl⟩
  | tagEnd _ _ _ => exact ⟨0, rfl, rfl⟩
  | @openRegion p q pat n size width m _ _ hpos _ =>
      exact ⟨size, hpos, by rw [texts, texts, List.flatten_cons, List.flatten_nil, List.append_nil]⟩
  | @cons p q r k ks hk _ ih =>
      obtain ⟨n, hpos, htexts⟩ := ih
      refine ⟨k.size + n, by rw [hpos, hk.pos_eq, Nat.add_assoc], ?_⟩
      rw [hk.pos_eq, FileText.rest, ← List.drop_drop] at htexts
      rw [texts, List.flatten_cons, htexts, FileText.rest, ← List.take_add]

/-! ## One reading -/

theorem Body.unique {closed' : Bool} {q' : Place} (h : Body e pat second p closed q)
    (h' : Body e pat second p closed' q') : closed = closed' ∧ q = q' := by
  induction h with
  | text h0 =>
      cases h' with
      | text _ => exact ⟨rfl, rfl⟩
      | _ => contradiction
  | skip h0 hm _ ih =>
      cases h' with
      | skip _ hm' hbody' =>
          rw [hm] at hm'
          cases hm'
          exact ih hbody'
      | _ => simp_all
  | firstEnd h0 hs hm _ ih =>
      cases h' with
      | firstEnd _ hs' hm' hbody' =>
          rw [hs] at hs'
          cases hs'
          rw [hm] at hm'
          cases hm'
          exact ih hbody'
      | _ => simp_all
  | close h0 hs hm =>
      cases h' with
      | close _ hs' hm' =>
          rw [hs] at hs'
          cases hs'
          rw [hm] at hm'
          cases hm'
          exact ⟨rfl, rfl⟩
      | _ => simp_all
  | tag h0 hs hne hm htag =>
      cases h' with
      | tag _ hs' _ hm' _ =>
          rw [hs] at hs'
          cases hs'
          rw [hm] at hm'
          cases hm'
          exact ⟨rfl, rfl⟩
      | _ => simp_all
  | char h0 hs hne hm htag _ ih =>
      cases h' with
      | char _ hs' _ hm' _ hbody' =>
          rw [hs] at hs'
          cases hs'
          rw [hm] at hm'
          cases hm'
          exact ih hbody'
      | _ => simp_all

theorem ReadsToken.unique {k k' : Token} {q' : Place} (h : ReadsToken e p k q)
    (h' : ReadsToken e p k' q') : k = k' ∧ q = q' := by
  cases h with
  | blank hs =>
      cases h' with
      | blank _ => exact ⟨rfl, rfl⟩
      | keyword hs' | item hs' | region hs' | word hs' | char hs' => cases hs.symm.trans hs'
  | keyword hs _ =>
      cases h' with
      | keyword hs' _ =>
          cases hs.symm.trans hs'
          exact ⟨rfl, rfl⟩
      | blank hs' | item hs' | region hs' | word hs' | char hs' => cases hs.symm.trans hs'
  | item hs =>
      cases h' with
      | item hs' =>
          cases hs.symm.trans hs'
          exact ⟨rfl, rfl⟩
      | blank hs' | keyword hs' | region hs' | word hs' | char hs' => cases hs.symm.trans hs'
  | region hs hbody hpos hcur _ =>
      cases h' with
      | region hs' hbody' hpos' hcur' _ =>
          cases hs.symm.trans hs'
          obtain ⟨-, rfl⟩ := hbody.unique hbody'
          obtain rfl := Nat.add_left_cancel (hpos.symm.trans hpos')
          obtain rfl := Nat.add_left_cancel (hcur.symm.trans hcur')
          exact ⟨rfl, rfl⟩
      | blank hs' | keyword hs' | item hs' | word hs' | char hs' => cases hs.symm.trans hs'
  | word hs hskips =>
      cases h' with
      | word hs' _ =>
          cases hs.symm.trans hs'
          exact ⟨rfl, rfl⟩
      | char _ hskips' => exact absurd hskips hskips'
      | blank hs' | keyword hs' | item hs' | region hs' => cases hs.symm.trans hs'
  | char hs hskips hend =>
      cases h' with
      | char hs' _ _ =>
          cases hs.symm.trans hs'
          exact ⟨rfl, rfl⟩
      | word _ hskips' => exact absurd hskips' hskips
      | blank hs' | keyword hs' | item hs' | region hs' => cases hs.symm.trans hs'

/-- A token is read where the tokens do not end. -/
theorem ReadsToken.sees {k : Token} (h : ReadsToken e p k q) : e.sees p ≠ some .textEnd := by
  cases h with
  | blank hs | keyword hs | item hs | region hs | word hs | char hs => simp [hs]

theorem ReadsToken.not_tagEnd {k : Token} {m : Bytes} (h : ReadsToken e p k q)
    (hs : e.sees p = some (.found .nothing m)) (hskips : ¬ SkipsWord e p) :
    e.endText p.pos = false := by
  cases h with
  | word _ hskips' => exact absurd hskips' hskips
  | char _ _ hend => exact hend
  | blank hs' | keyword hs' | item hs' | region hs' => cases hs.symm.trans hs'

theorem ReadsToken.closed_eq_true {k : Token} {n : Nat} {m : Bytes} {pat : SynPat} {q' : Place}
    (h : ReadsToken e p k q) (hs : e.sees p = some (.found (.start pat n) m))
    (hbody : Body e pat pat.end2.isSome ((p.store m).bytes n) closed q') : closed = true := by
  cases h with
  | region hs' hbody' =>
      cases hs.symm.trans hs'
      exact (hbody.unique hbody').1
  | blank hs' | keyword hs' | item hs' | word hs' | char hs' => cases hs.symm.trans hs'

/-- A text is read in one way. -/
theorem Lexes.unique {ks ks' : List Token} {q' : Place} (h : Lexes e p ks q)
    (h' : Lexes e p ks' q') : ks = ks' ∧ q = q' := by
  induction h generalizing ks' with
  | textEnd hs =>
      cases h' with
      | textEnd _ => exact ⟨rfl, rfl⟩
      | tagEnd hs' | openRegion hs' => cases hs.symm.trans hs'
      | cons hk _ => exact absurd hs hk.sees
  | tagEnd hs hskips hend =>
      cases h' with
      | tagEnd hs' _ _ =>
          cases hs.symm.trans hs'
          exact ⟨rfl, rfl⟩
      | textEnd hs' | openRegion hs' => cases hs.symm.trans hs'
      | cons hk _ => cases hend.symm.trans (hk.not_tagEnd hs hskips)
  | openRegion hs hbody hpos hcur =>
      cases h' with
      | openRegion hs' hbody' hpos' hcur' =>
          cases hs.symm.trans hs'
          obtain ⟨-, rfl⟩ := hbody.unique hbody'
          obtain rfl := Nat.add_left_cancel (hpos.symm.trans hpos')
          obtain rfl := Nat.add_left_cancel (hcur.symm.trans hcur')
          exact ⟨rfl, rfl⟩
      | textEnd hs' | tagEnd hs' => cases hs.symm.trans hs'
      | cons hk _ => cases hk.closed_eq_true hs hbody
  | cons hk _ ih =>
      cases h' with
      | textEnd hs => exact absurd hs hk.sees
      | tagEnd hs hskips hend => cases hend.symm.trans (hk.not_tagEnd hs hskips)
      | openRegion hs hbody => cases hk.closed_eq_true hs hbody
      | cons hk' hks' =>
          obtain ⟨rfl, rfl⟩ := hk.unique hk'
          obtain ⟨rfl, rfl⟩ := ih hks'
          exact ⟨rfl, rfl⟩

theorem Scans.tiles {ks : List Token} (h : Scans e p ks q) :
    ∃ n, q.pos = p.pos + n ∧ (texts e.text p.pos ks).flatten = (e.text.rest p.pos).take n := by
  unfold Scans at h
  split at h
  · obtain ⟨rfl, rfl⟩ := h
    exact ⟨0, rfl, rfl⟩
  · exact h.tiles

theorem Scans.unique {ks ks' : List Token} {q' : Place} (h : Scans e p ks q)
    (h' : Scans e p ks' q') : ks = ks' := by
  unfold Scans at h h'
  split at h
  · next hend =>
    rw [if_pos hend] at h'
    exact h.1.trans h'.1.symm
  · next hend =>
    rw [if_neg hend] at h'
    exact (h.unique h').1

end

end HapAndroid.Highlight
