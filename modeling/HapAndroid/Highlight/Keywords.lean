import HapAndroid.Highlight.Load
import HapAndroid.Highlight.Rehash
import HapAndroid.Lib.Run

/-!
# The tables of the keywords

`add_keyword` and `check_keyword_id` on the hash tables.  The loader and the scanner of the other
modules keep the keywords in lists, the newest first, and take the first that fits.  Here the
tables are shown to represent those lists (`Represents`), through every declaration and every
growth, and so the answer is that of the last declaration of a word.

A table keeps its shape also when `malloc` fails (`Wf.addKeyword`), but then a word may be missing.
-/

namespace HapAndroid.Highlight

open Probing

theorem KeywordTable.find_cons (name : Bytes) (group : Nat)
    (kt : KeywordTable) (word : Bytes) :
    KeywordTable.find ((name, group) :: kt) word =
      if name = word then some group else kt.find word := by
  rw [KeywordTable.find, List.find?_cons]
  split <;> simp_all [KeywordTable.find]

/-! ## One table -/

namespace HashTab

/-- What `add_keyword` does with a table. -/
def addKeyword (room : Bool) (ht : HashTab) (name : Bytes) (group : Nat) : Option HashTab :=
  (ht.hashLookup name (hashHash name)).bind fun i =>
    match ht.array[i]? with
    | some (.item hi) =>
        some { ht with array := ht.array.set i (.item { hi with key := name, group := group }) }
    | _ => ht.hashAddItem room i ⟨hashHash name, name, group⟩

def groupAt (ht : HashTab) (i : Nat) : Option Nat :=
  match ht.array[i]? with
  | some (.item hi) => some hi.group
  | _ => none

/-- What `check_keyword_id` does with a table: the group of a word.  An empty table is not
searched. -/
def groupOf (ht : HashTab) (word : Bytes) : Option (Option Nat) :=
  if ht.used = 0 then some none
  else (ht.hashLookup word (hashHash word)).map ht.groupAt

variable {ht ht' : HashTab} {room : Bool} {name : Bytes} {group : Nat}

/-- The item of a keyword. -/
def keywordItem (name : Bytes) (group : Nat) : HashItem := ⟨hashHash name, name, group⟩

theorem Sound.exists_place (h : ht.Sound) (key : Bytes) :
    ∃ i, ht.hashLookup key (hashHash key) = some i ∧ ht.Place key i :=
  h.toLaid.lookup_spot h.null_mem key

theorem Place.free {i : Nat} {key : Bytes} (h : ht.Place key i)
    (hitem : ∀ hi, ht.array[i]? ≠ some (.item hi)) :
    ht.array[i]? = some .null ∨ ht.array[i]? = some .removed := by
  rcases h.content with ⟨hi, hslot, -⟩ | ⟨hfree, -⟩
  · exact absurd hslot (hitem hi)
  · exact hfree

/-- The item at the place of a key has the key, and so its hash number. -/
theorem Sound.item_at_place (h : ht.Sound) {i : Nat} {key : Bytes} (hplace : ht.Place key i)
    {hi : HashItem} (hslot : ht.array[i]? = some (.item hi)) :
    hi = keywordItem key hi.group := by
  have hmem := List.mem_of_getElem? hslot
  have hkey : hi.key = key :=
    (h.spread.key_eq_iff hplace (fun _ hmem => h.hits_iff hmem) hslot).mpr rfl
  have hhash : hi.hash = hashHash key := hkey ▸ h.hashes hi hmem
  rw [keywordItem, ← hhash, ← hkey]

theorem Wf.hashAddItem (h : ht.Wf) {i : Nat} (hplace : ht.Place name i)
    (hfree : ht.array[i]? = some .null ∨ ht.array[i]? = some .removed)
    (hadd : ht.hashAddItem room i (keywordItem name group) = some ht') :
    ht'.Wf ∧ ht'.used ≤ ht.used + 1 ∧
      (ht.error = false → ht.HoldsAlso (keywordItem name group) ht'.array ∧
        (room = true → ht'.error = false)) := by
  rw [HashTab.hashAddItem] at hadd
  split at hadd
  · next herror =>
    split at hadd
    · cases hadd
    · next hr =>
      cases h.toSound.resizedTo hr with
      | kept hlt =>
          obtain ⟨hwf, hused, -⟩ := h.toSound.putItem hlt hplace hfree rfl hadd
          exact ⟨hwf, hused.le, fun hno => by rw [herror] at hno; cases hno⟩
    · cases hadd
    · next hr =>
      cases hadd
      cases h.toSound.resizedTo hr with
      | failed hroom =>
          refine ⟨⟨⟨h.toLaid, h.used_eq, h.filled_eq, h.filled_le, h.small_mask, h.le_mask⟩,
            fun hno => by cases hno⟩, Nat.le_succ _, fun hno => by rw [herror] at hno; cases hno⟩
  · next herror =>
    have herror := Bool.eq_false_iff.mpr herror
    obtain ⟨hwf, hused, hitems, hkept⟩ :=
      h.toSound.putItem (h.room_left herror) hplace hfree rfl hadd
    exact ⟨hwf, hused.le, fun _ => ⟨hitems, hkept herror⟩⟩

/-- Adding a keyword keeps the table well formed, whatever `malloc` does; and a table that had room
holds the keyword then. -/
theorem Wf.addKeyword (h : ht.Wf) (hadd : ht.addKeyword room name group = some ht') :
    ht'.Wf ∧ ht'.used ≤ ht.used + 1 ∧
      (ht.error = false → ht.HoldsAlso (keywordItem name group) ht'.array ∧
        (room = true → ht'.error = false)) := by
  obtain ⟨i, hlookup, hplace⟩ := h.toSound.exists_place name
  rw [HashTab.addKeyword, hlookup, Option.bind_some] at hadd
  split at hadd
  · next hi hslot =>
    cases hadd
    -- The old item has the same key, so the new one stands where the key is searched for.
    have hitem : { hi with key := name, group := group } = keywordItem name group := by
      rw [h.toSound.item_at_place hplace hslot]
      rfl
    rw [hitem]
    have hcount : ∀ p : Slot HashItem → Bool, p (.item hi) = p (.item (keywordItem name group)) →
        ht.array.countP p = (ht.array.set i (.item (keywordItem name group))).countP p :=
      fun p hp => by
        have := Slot.countP_set_add hslot (.item (keywordItem name group)) p
        rw [hp] at this
        exact (Nat.add_right_cancel this).symm
    refine ⟨⟨⟨h.toSound.laid_set hplace rfl, ?_, ?_, h.filled_le, h.small_mask, h.le_mask⟩,
      h.room_left⟩, Nat.le_succ _, fun herror => ⟨h.toSound.holdsAlso_set hplace, fun _ => herror⟩⟩
    · exact h.used_eq.trans (hcount _ rfl)
    · exact h.filled_eq.trans (hcount _ rfl)
  · next hslot => exact h.hashAddItem hplace (hplace.free hslot) hadd

/-- A keyword is added if there are not more than the memory could hold. -/
theorem Wf.exists_addKeyword (h : ht.Wf) (herror : ht.error = false) (hused : ht.used < 2 ^ 27)
    (room : Bool) (name : Bytes) (group : Nat) : ∃ ht', ht.addKeyword room name group = some ht' := by
  obtain ⟨i, hlookup, hplace⟩ := h.toSound.exists_place name
  rw [HashTab.addKeyword, hlookup, Option.bind_some]
  split
  · exact ⟨_, rfl⟩
  · next hslot =>
    have hsound : (ht.put i (keywordItem name group)).Sound :=
      h.toSound.put (h.room_left herror) hplace (hplace.free hslot) rfl
    obtain ⟨r, hr⟩ := hsound.exists_resized room hused
    rw [HashTab.hashAddItem, if_neg (by rw [herror]; decide), HashTab.putItem]
    exact ⟨_, congrArg (Option.map _) hr⟩

/-- Keywords are added one after another, each with what `malloc` does then. -/
def addAll (ht : HashTab) (es : List (Bool × Bytes × Nat)) : Option HashTab :=
  Run.run (fun ht e => ht.addKeyword e.1 e.2.1 e.2.2) ht es

theorem wf_addAll {es : List (Bool × Bytes × Nat)} (h : hashInit.addAll es = some ht) : ht.Wf := by
  have hstep : ∀ (ht : HashTab) (e : Bool × Bytes × Nat) (ht' : HashTab), ht.Wf →
      ht.addKeyword e.1 e.2.1 e.2.2 = some ht' → ht'.Wf := fun _ _ _ hwf hadd =>
    (hwf.addKeyword hadd).1
  exact Run.run_invariant hstep es wf_hashInit h

-- The fifteenth word makes the table grow.
example : (hashInit.addAll ((List.range 15).map fun n => (true, [UInt8.ofNat (n + 97)], n))).map
    (fun ht => (ht.mask, ht.used, ht.small)) = some (63, 15, false) := by decide +kernel

/-! ## Representing a list -/

/-- The table has the keywords of the list. -/
def Represents (ht : HashTab) (kt : KeywordTable) : Prop :=
  ∀ word group, Slot.item (keywordItem word group) ∈ ht.array ↔ kt.find word = some group

theorem represents_hashInit : hashInit.Represents [] := by
  intro word group
  simp [hashInit, List.mem_replicate, KeywordTable.find]

theorem Represents.cons {kt : KeywordTable} (h : ht.Represents kt)
    (hitems : ht.HoldsAlso (keywordItem name group) ht'.array) :
    ht'.Represents ((name, group) :: kt) := by
  intro word g
  rw [hitems, h word g, KeywordTable.find_cons]
  rcases eq_or_ne name word with rfl | hne
  · rw [if_pos rfl]
    simp [keywordItem, eq_comm]
  · rw [if_neg hne]
    simp [keywordItem, hne.symm]

/-- A search in the table answers as the list does. -/
theorem Sound.groupOf_eq (h : ht.Sound) {kt : KeywordTable} (hrep : ht.Represents kt)
    (word : Bytes) : ht.groupOf word = some (kt.find word) := by
  rw [HashTab.groupOf]
  split
  · next hzero =>
    -- No item at all.
    cases hfind : kt.find word with
    | none => rfl
    | some g =>
        have hpos : 0 < ht.used := by
          rw [h.used_eq]
          exact List.countP_pos_iff.mpr ⟨_, (hrep word g).mpr hfind, rfl⟩
        omega
  · obtain ⟨i, hlookup, hplace⟩ := h.exists_place word
    rw [hlookup, Option.map_some, groupAt]
    congr 1
    split
    · next hi hslot =>
      have hmem := List.mem_of_getElem? hslot
      rw [h.item_at_place hplace hslot] at hmem
      exact ((hrep word hi.group).mp hmem).symm
    · next hslot =>
      cases hfind : kt.find word with
      | none => rfl
      | some g =>
          -- The key stands somewhere, so it stands at its place.
          obtain ⟨j, hj⟩ := List.mem_iff_getElem?.mp ((hrep word g).mpr hfind)
          have hij := (h.spread.key_eq_iff hplace (fun _ hmem => h.hits_iff hmem) hj).mp rfl
          exact absurd (hij ▸ hj) (hslot _)

end HashTab

/-! ## Both tables -/

/-- What the declarations of keywords change. -/
structure KeywTabs where
  synCase : Bool
  keywtab : HashTab
  keywtabIc : HashTab

/-- A declaration: the rest of a `syn case`, or the group and the words of a `syn keyword`. -/
inductive Decl where
  | case (p : Bytes)
  | keyword (group : Nat) (words : List Bytes)

namespace KeywTabs

/-- The tables of `syntax_init`. -/
def init : KeywTabs := ⟨true, hashInit, hashInit⟩

def synCmdCase (s : KeywTabs) (p : Bytes) : KeywTabs :=
  if (bytes "match").isPrefixOf p then { s with synCase := false }
  else if (bytes "ignore").isPrefixOf p then { s with synCase := true }
  else s

/-- `add_keyword`, with memory for the tables. -/
def addKeyword (group : Nat) (s : KeywTabs) (name : Bytes) : Option KeywTabs :=
  if s.synCase then
    (s.keywtabIc.addKeyword true (name.map toLower) group).map fun ht => { s with keywtabIc := ht }
  else (s.keywtab.addKeyword true name group).map fun ht => { s with keywtab := ht }

def declare (s : KeywTabs) : Decl → Option KeywTabs
  | .case p => some (s.synCmdCase p)
  | .keyword group words => Run.run (addKeyword group) s words

def declareAll (s : KeywTabs) (ds : List Decl) : Option KeywTabs := Run.run declare s ds

/-- `check_keyword_id`: the length of the word and its group, if it has one. -/
def checkKeywordId (s : KeywTabs) (t : FileText) (pos : Nat) : Option (Option (Nat × Nat)) :=
  let n := t.run isKeyword pos
  let word := (t.rest pos).take n
  if n ≤ maxKeywLen then
    match s.keywtab.groupOf word with
    | none => none
    | some (some g) => some (some (n, g))
    | some none => (s.keywtabIc.groupOf (word.map toLower)).map (Option.map fun g => (n, g))
  else some none

end KeywTabs

/-- A declaration for the loader, as `synCmdCase` and `synCmdKeyword` carry it out. -/
def Loader.declare (l : Loader) : Decl → Loader
  | .case p => synCmdCase l p
  | .keyword group words => words.foldl (Highlight.addKeyword group) l

/-- The tables stand for those of the loader. -/
structure KeywTabs.Represents (s : KeywTabs) (l : Loader) : Prop where
  synCase : s.synCase = l.synCase
  wf : s.keywtab.Wf
  wfIc : s.keywtabIc.Wf
  error : s.keywtab.error = false
  errorIc : s.keywtabIc.error = false
  keywtab : s.keywtab.Represents l.keywtab
  keywtabIc : s.keywtabIc.Represents l.keywtabIc

namespace KeywTabs

variable {s s' : KeywTabs} {l : Loader}

theorem Represents.synCmdCase (h : s.Represents l) (p : Bytes) :
    (s.synCmdCase p).Represents (Highlight.synCmdCase l p) := by
  rw [KeywTabs.synCmdCase, Highlight.synCmdCase]
  split
  · exact { h with synCase := rfl }
  · split
    · exact { h with synCase := rfl }
    · exact h

theorem Represents.addKeyword (h : s.Represents l) {group : Nat} {name : Bytes}
    (hadd : s.addKeyword group name = some s') :
    s'.Represents (Highlight.addKeyword group l name) := by
  rw [KeywTabs.addKeyword, h.synCase] at hadd
  rw [Highlight.addKeyword]
  split at hadd
  · next hcase =>
    obtain ⟨ht, hht, rfl⟩ := Option.map_eq_some_iff.mp hadd
    obtain ⟨hwf, -, hitems⟩ := h.wfIc.addKeyword hht
    obtain ⟨hitems, herror⟩ := hitems h.errorIc
    rw [if_pos hcase]
    exact { h with
      synCase := rfl
      wfIc := hwf
      errorIc := herror rfl
      keywtabIc := h.keywtabIc.cons hitems }
  · next hcase =>
    obtain ⟨ht, hht, rfl⟩ := Option.map_eq_some_iff.mp hadd
    obtain ⟨hwf, -, hitems⟩ := h.wf.addKeyword hht
    obtain ⟨hitems, herror⟩ := hitems h.error
    rw [if_neg hcase]
    exact { h with
      synCase := rfl
      wf := hwf
      error := herror rfl
      keywtab := h.keywtab.cons hitems }

theorem Represents.declare (h : s.Represents l) {d : Decl} (hd : s.declare d = some s') :
    s'.Represents (l.declare d) := by
  cases d with
  | case p =>
      cases hd
      exact h.synCmdCase p
  | keyword group words =>
      have hstep : ∀ s name s' l, True → KeywTabs.Represents s l →
          KeywTabs.addKeyword group s name = some s' →
          KeywTabs.Represents s' (Highlight.addKeyword group l name) :=
        fun _ _ _ _ _ hR hadd => hR.addKeyword hadd
      exact Run.run_simulates (Q := fun _ => True) hstep words (fun _ _ => trivial) h hd

/-- Through any declarations, the tables stand for the lists. -/
theorem Represents.declareAll (h : s.Represents l) {ds : List Decl}
    (hrun : s.declareAll ds = some s') : s'.Represents (ds.foldl Loader.declare l) := by
  have hstep : ∀ s d s' l, True → KeywTabs.Represents s l → KeywTabs.declare s d = some s' →
      KeywTabs.Represents s' (l.declare d) := fun _ _ _ _ _ hR hd => hR.declare hd
  exact Run.run_simulates (Q := fun _ => True) hstep ds (fun _ _ => trivial) h hrun

/-- The search ends and answers as the search in the lists does. -/
theorem Represents.checkKeywordId_eq (h : s.Represents l) (t : FileText) (pos : Nat) :
    s.checkKeywordId t pos = some (l.buf.checkKeywordId t pos) := by
  rw [KeywTabs.checkKeywordId, Buf.checkKeywordId, h.wf.toSound.groupOf_eq h.keywtab, h.wfIc.toSound.groupOf_eq h.keywtabIc]
  split
  · rw [Loader.buf]
    dsimp only
    cases l.keywtab.find ((t.rest pos).take (t.run isKeyword pos)) <;> rfl
  · rfl

/-! ### Enough memory -/

/-- There is memory for `n` words more. -/
def Fits (s : KeywTabs) (n : Nat) : Prop :=
  s.keywtab.used + n ≤ 2 ^ 27 ∧ s.keywtabIc.used + n ≤ 2 ^ 27

theorem Represents.exists_addKeyword (h : s.Represents l) {n : Nat} (hfits : s.Fits (n + 1))
    (group : Nat) (name : Bytes) : ∃ s', s.addKeyword group name = some s' ∧ s'.Fits n := by
  obtain ⟨hfits, hfitsIc⟩ := hfits
  rw [KeywTabs.addKeyword]
  split
  · obtain ⟨ht, hadd⟩ := h.wfIc.exists_addKeyword h.errorIc (by omega) true (name.map toLower) group
    have hused := (h.wfIc.addKeyword hadd).2.1
    rw [hadd]
    exact ⟨_, rfl, by dsimp only; omega, by dsimp only; omega⟩
  · obtain ⟨ht, hadd⟩ := h.wf.exists_addKeyword h.error (by omega) true name group
    have hused := (h.wf.addKeyword hadd).2.1
    rw [hadd]
    exact ⟨_, rfl, by dsimp only; omega, by dsimp only; omega⟩

theorem Represents.exists_words (h : s.Represents l) {n group : Nat} {words : List Bytes}
    (hfits : s.Fits (words.length + n)) :
    ∃ s', Run.run (KeywTabs.addKeyword group) s words = some s' ∧ s'.Fits n := by
  induction words generalizing s l with
  | nil => exact ⟨s, rfl, by rwa [List.length_nil, Nat.zero_add] at hfits⟩
  | cons name words ih =>
      rw [List.length_cons, Nat.add_right_comm] at hfits
      obtain ⟨s₁, hadd, hfits⟩ := h.exists_addKeyword hfits group name
      obtain ⟨s', hrun, hfits⟩ := ih (h.addKeyword hadd) hfits
      exact ⟨s', Run.run_cons_eq_some.mpr ⟨s₁, hadd, hrun⟩, hfits⟩

end KeywTabs

/-! ## The last declaration -/

/-- A word that was declared. -/
structure Declared where
  ignoreCase : Bool
  word : Bytes
  group : Nat

/-- The flag after a `syn case`. -/
def caseFlag (ignoreCase : Bool) (p : Bytes) : Bool :=
  if (bytes "match").isPrefixOf p then false
  else if (bytes "ignore").isPrefixOf p then true
  else ignoreCase

/-- The words that are declared, in order. -/
def declared : Bool → List Decl → List Declared
  | _, [] => []
  | ignoreCase, .case p :: ds => declared (caseFlag ignoreCase p) ds
  | ignoreCase, .keyword group words :: ds =>
      words.map (⟨ignoreCase, ·, group⟩) ++ declared ignoreCase ds

/-- The group of the last declaration with a property. -/
def lastGroup (p : Declared → Bool) (ds : List Declared) : Option Nat :=
  (ds.reverse.find? p).map Declared.group

/-- The last declaration of a word that is not to ignore case, else the last one that is. -/
def keywordGroup (ds : List Declared) (word : Bytes) : Option Nat :=
  (lastGroup (fun d => !d.ignoreCase && d.word = word) ds).or
    (lastGroup (fun d => d.ignoreCase && d.word.map toLower = word.map toLower) ds)

/-- The declarations with a property as a table, the newest first. -/
def tableOf (p : Declared → Bool) (key : Declared → Bytes) (ds : List Declared) : KeywordTable :=
  (ds.reverse.filter p).map fun d => (key d, d.group)

theorem find_tableOf (p : Declared → Bool) (key : Declared → Bytes) (ds : List Declared)
    (word : Bytes) :
    (tableOf p key ds).find word = lastGroup (fun d => p d && key d = word) ds := by
  rw [KeywordTable.find, tableOf, List.find?_map, List.find?_filter, Option.map_map, lastGroup]
  simp [Function.comp_def]

/-- The words that are matched as they are. -/
def matchTable : List Declared → KeywordTable := tableOf (fun d => !d.ignoreCase) Declared.word

/-- The words for which case is ignored. -/
def ignoreTable : List Declared → KeywordTable :=
  tableOf Declared.ignoreCase fun d => d.word.map toLower

/-- The loader has the declared words in front of those that it had. -/
structure Loader.Gains (l l' : Loader) (ds : List Declared) : Prop where
  keywtab : l'.keywtab = matchTable ds ++ l.keywtab
  keywtabIc : l'.keywtabIc = ignoreTable ds ++ l.keywtabIc

theorem Loader.Gains.trans {l l' l'' : Loader} {ds ds' : List Declared} (h : l.Gains l' ds)
    (h' : l'.Gains l'' ds') : l.Gains l'' (ds ++ ds') where
  keywtab := by simp [h'.keywtab, h.keywtab, matchTable, tableOf]
  keywtabIc := by simp [h'.keywtabIc, h.keywtabIc, ignoreTable, tableOf]

theorem Loader.gains_addKeyword (l : Loader) (group : Nat) (name : Bytes) :
    l.Gains (addKeyword group l name) [⟨l.synCase, name, group⟩] := by
  rw [addKeyword]
  cases l.synCase <;> exact ⟨rfl, rfl⟩

theorem Loader.gains_words (l : Loader) (group : Nat) (words : List Bytes) :
    (words.foldl (addKeyword group) l).synCase = l.synCase ∧
      l.Gains (words.foldl (addKeyword group) l) (words.map (⟨l.synCase, ·, group⟩)) := by
  induction words generalizing l with
  | nil => exact ⟨rfl, rfl, rfl⟩
  | cons name words ih =>
      have hcase : (addKeyword group l name).synCase = l.synCase := by
        rw [addKeyword]
        split <;> rfl
      obtain ⟨hflag, hgains⟩ := ih (addKeyword group l name)
      rw [hcase] at hflag hgains
      exact ⟨hflag, (l.gains_addKeyword group name).trans hgains⟩

theorem synCmdCase_synCase (l : Loader) (p : Bytes) :
    (synCmdCase l p).synCase = caseFlag l.synCase p := by
  rw [synCmdCase, caseFlag]
  split
  · rfl
  · split <;> rfl

theorem Loader.gains_declared (l : Loader) (ds : List Decl) :
    l.Gains (ds.foldl Loader.declare l) (declared l.synCase ds) := by
  induction ds generalizing l with
  | nil => exact ⟨rfl, rfl⟩
  | cons d ds ih =>
      rw [List.foldl_cons]
      cases d with
      | case p =>
          have hsame : l.Gains (synCmdCase l p) [] := by
            rw [synCmdCase]
            split
            · exact ⟨rfl, rfl⟩
            · split <;> exact ⟨rfl, rfl⟩
          have hrest := ih (synCmdCase l p)
          rw [synCmdCase_synCase] at hrest
          exact hsame.trans hrest
      | keyword group words =>
          obtain ⟨hflag, hgains⟩ := l.gains_words group words
          have hrest := ih (l.declare (.keyword group words))
          rw [Loader.declare, hflag] at hrest
          exact hgains.trans hrest

/-- The loader answers with the last declaration. -/
theorem Loader.checkKeywordId_last {l : Loader} (hcase : l.synCase = true)
    (hkeywtab : l.keywtab = []) (hkeywtabIc : l.keywtabIc = []) (ds : List Decl) {t : FileText}
    {pos : Nat} (hlen : t.run isKeyword pos ≤ maxKeywLen) :
    (ds.foldl Loader.declare l).buf.checkKeywordId t pos =
      (keywordGroup (declared true ds) ((t.rest pos).take (t.run isKeyword pos))).map
        fun g => (t.run isKeyword pos, g) := by
  have hgains := l.gains_declared ds
  rw [hcase] at hgains
  rw [Buf.checkKeywordId, if_pos hlen, Loader.buf, hgains.keywtab, hgains.keywtabIc, hkeywtab,
    hkeywtabIc, List.append_nil, List.append_nil, matchTable, ignoreTable, find_tableOf,
    find_tableOf, keywordGroup]

/-! ## The tables after any declarations -/

/-- A loader at the start. -/
def Loader.atStart : Loader := ⟨true, [], [], .fresh, .fresh⟩

theorem KeywTabs.represents_init : KeywTabs.init.Represents Loader.atStart where
  synCase := rfl
  wf := HashTab.wf_hashInit
  wfIc := HashTab.wf_hashInit
  error := rfl
  errorIc := rfl
  keywtab := HashTab.represents_hashInit
  keywtabIc := HashTab.represents_hashInit

/-- The memory is enough for any declarations of so many words. -/
theorem KeywTabs.Represents.exists_declareAll {s : KeywTabs} {l : Loader} (h : s.Represents l)
    {ds : List Decl} (hfits : s.Fits (declared l.synCase ds).length) :
    ∃ s', s.declareAll ds = some s' := by
  induction ds generalizing s l with
  | nil => exact ⟨s, rfl⟩
  | cons d ds ih =>
      cases d with
      | case p =>
          have hused : (s.synCmdCase p).Fits (declared (caseFlag l.synCase p) ds).length := by
            rw [KeywTabs.synCmdCase]
            split
            · exact hfits
            · split <;> exact hfits
          obtain ⟨s', hrun⟩ := ih (h.synCmdCase p) (by rwa [synCmdCase_synCase])
          exact ⟨s', Run.run_cons_eq_some.mpr ⟨_, rfl, hrun⟩⟩
      | keyword group words =>
          rw [declared, List.length_append, List.length_map] at hfits
          obtain ⟨s₁, hwords, hfits⟩ := h.exists_words hfits
          have hrep : s₁.Represents (l.declare (.keyword group words)) := h.declare hwords
          obtain ⟨s', hrun⟩ := ih hrep (by rwa [Loader.declare, (l.gains_words group words).1])
          exact ⟨s', Run.run_cons_eq_some.mpr ⟨s₁, hwords, hrun⟩⟩

/-- After any declarations, a search for a word ends and returns the group of its last declaration
that does not ignore case, else of the last one that does.  The tables exist at least for the
declarations of `2 ^ 27` words. -/
theorem KeywTabs.checkKeywordId_declared (ds : List Decl) :
    ((declared true ds).length ≤ 2 ^ 27 → (KeywTabs.init.declareAll ds).isSome = true) ∧
      ∀ s, KeywTabs.init.declareAll ds = some s → ∀ (t : FileText) (pos : Nat),
        t.run isKeyword pos ≤ maxKeywLen →
          s.checkKeywordId t pos =
            some ((keywordGroup (declared true ds) ((t.rest pos).take (t.run isKeyword pos))).map
              fun g => (t.run isKeyword pos, g)) := by
  refine ⟨fun hlen => ?_, fun s hrun t pos hlen => ?_⟩
  · have hfits : KeywTabs.init.Fits (declared Loader.atStart.synCase ds).length :=
      ⟨(Nat.zero_add _).trans_le hlen, (Nat.zero_add _).trans_le hlen⟩
    obtain ⟨s, hs⟩ := represents_init.exists_declareAll hfits
    exact Option.isSome_iff_exists.mpr ⟨s, hs⟩
  · rw [(represents_init.declareAll hrun).checkKeywordId_eq,
      Loader.checkKeywordId_last rfl rfl rfl ds hlen]

/-- `if` as it is, then `IF` and `do` in any case. -/
def ifDecls : List Decl :=
  [.case (bytes "match"), .keyword 5 [bytes "if"], .case (bytes "ignore"),
    .keyword 7 [bytes "IF", bytes "do"]]

theorem KeywTabs.checkKeywordId_ifDecls : ∃ s, KeywTabs.init.declareAll ifDecls = some s ∧
    s.checkKeywordId ⟨bytes "if", by decide, 0⟩ 0 = some (some (2, 5)) ∧
    s.checkKeywordId ⟨bytes "If", by decide, 0⟩ 0 = some (some (2, 7)) := by
  obtain ⟨hsome, hlast⟩ := KeywTabs.checkKeywordId_declared ifDecls
  obtain ⟨s, hs⟩ := Option.isSome_iff_exists.mp (hsome (by decide))
  exact ⟨s, hs, (hlast s hs _ 0 (by decide)).trans (by decide),
    (hlast s hs _ 0 (by decide)).trans (by decide)⟩

end HapAndroid.Highlight
