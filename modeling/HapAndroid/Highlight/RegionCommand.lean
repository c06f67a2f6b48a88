import Mathlib.Data.List.DropRight
import HapAndroid.Highlight.Commands

/-!
# `syn_cmd_region`

`Reads` is the grammar of the arguments behind the group name: known keys with quoted values.
`Settings` are such arguments up to the end of the command or to the first unknown key; the loop
over the keys accepts exactly these, and an attribute of the pattern is the last value that is
given for its key (`SynPat.get_setAll`).

`synCmdRegion_all_or_nothing` puts this together with the lookup of the group, which is made only
when the pattern is stored.
-/

namespace HapAndroid.Highlight

/-! ## A quoted value -/

/-- A value between two delimiters, and what follows; with nothing behind it the value must not be
empty. -/
structure Quoted (d : UInt8) (v rest p : Bytes) : Prop where
  eq : p = d :: (v ++ d :: rest)
  notMem : d ∉ v
  three : v ≠ [] ∨ rest ≠ []

section
variable {d : UInt8} {p v rest : Bytes}

theorem Quoted.takeWhile (h : Quoted d v rest p) :
    (v ++ d :: rest).takeWhile (· ≠ d) = v := by
  rw [List.takeWhile_append_of_pos fun c hc => decide_eq_true (ne_of_mem_of_not_mem hc h.notMem)]
  simp

theorem Quoted.dropWhile (h : Quoted d v rest p) :
    (v ++ d :: rest).dropWhile (· ≠ d) = d :: rest := by
  rw [List.dropWhile_append_of_pos fun c hc => decide_eq_true (ne_of_mem_of_not_mem hc h.notMem)]
  simp

/-- A text that has no quoted value at its start gives none. -/
theorem getSynPattern_eq_some_iff {q : Bytes} : getSynPattern p = some (v, q) ↔
    ∃ d rest, Quoted d v rest p ∧ (endsExcmd rest = true ∨ isWhite (rest.headD 0) = true) ∧
      q = skipwhite rest := by
  constructor
  · intro h
    unfold getSynPattern at h
    split at h
    · next d b c p =>
      split at h
      · cases h
      · next d' rest hdrop =>
        split at h
        · next hend =>
          cases h
          obtain rfl : d' = d := by simpa using of_dropWhile_eq_cons hdrop
          have hsplit := List.takeWhile_append_dropWhile (p := (· ≠ d')) (l := b :: c :: p)
          rw [hdrop] at hsplit
          refine ⟨d', rest, ⟨by rw [hsplit], fun hmem => ?_, ?_⟩, hend, rfl⟩
          · simpa using List.mem_takeWhile_imp hmem
          · by_contra hshort
            obtain ⟨hv, hrest⟩ := not_or.mp hshort
            rw [not_not.mp hv, not_not.mp hrest] at hsplit
            cases hsplit
        · cases h
    · cases h
  · rintro ⟨d, rest, hq, hend, rfl⟩
    obtain ⟨b, c, tail, htail⟩ : ∃ b c tail, v ++ d :: rest = b :: c :: tail := by
      rcases v with _ | ⟨b, v⟩
      · rcases rest with _ | ⟨c, rest⟩
        · exact absurd hq.three (by simp)
        · exact ⟨d, c, rest, rfl⟩
      · rcases v with _ | ⟨c, v⟩
        · exact ⟨b, d, rest, rfl⟩
        · exact ⟨b, c, v ++ d :: rest, rfl⟩
    rw [hq.eq, htail]
    unfold getSynPattern
    dsimp only
    rw [← htail, hq.dropWhile, hq.takeWhile]
    exact if_pos hend

end

/-! ## The arguments -/

/-- The bytes of a key. -/
def isKeyByte (c : UInt8) : Bool := !isBlank c && c ≠ 0x3D

/-- A text starts with a key, and `rest` follows. -/
structure KeyName (name rest p : Bytes) : Prop where
  eq : p = name ++ rest
  name : ∀ c ∈ name, isKeyByte c = true
  stop : ∀ c ∈ rest.head?, isKeyByte c = false
  notEnd : endsExcmd p = false

/-- A text starts with a known key and an equals sign, and its value is to stand at `w`. -/
def KeyAt (p : Bytes) (key : Key) (w : Bytes) : Prop :=
  ∃ name white white', KeyName name (white ++ 0x3D :: (white' ++ w)) p ∧
    Key.ofBytes (upper name) = some key ∧ (∀ c ∈ white, isWhite c = true) ∧
    (∀ c ∈ white', isWhite c = true) ∧ ∀ c ∈ w.head?, isWhite c = false

/-- The keys and values that a text starts with, and what follows them. -/
inductive Reads : Bytes → List (Key × Bytes) → Bytes → Prop where
  | nil (p : Bytes) : Reads p [] p
  | cons {p w v rest q : Bytes} {d : UInt8} {key : Key} {kvs : List (Key × Bytes)}
      (hkey : KeyAt p key w) (hv : Quoted d v rest w)
      (hrest : endsExcmd rest = true ∨ isWhite (rest.headD 0) = true)
      (h : Reads (skipwhite rest) kvs q) : Reads p ((key, v) :: kvs) q

/-- The end of the command, or an unknown key. -/
def ArgumentsEnd (p : Bytes) : Prop :=
  endsExcmd p = true ∨ ∃ name rest, KeyName name rest p ∧ Key.ofBytes (upper name) = none

/-- The values that the arguments give, in their order, up to the end of the command or to the
first unknown key. -/
def Settings (p : Bytes) (kvs : List (Key × Bytes)) : Prop := ∃ q, Reads p kvs q ∧ ArgumentsEnd q

/-- A known key without an equals sign, or with something else than a value. -/
def KeyFails (p : Bytes) : Prop :=
  (∃ name rest key, KeyName name rest p ∧ Key.ofBytes (upper name) = some key ∧
    (skipwhite rest).headD 0 ≠ 0x3D) ∨
  ∃ key w, KeyAt p key w ∧ getSynPattern w = none

/-- The last value for a key. -/
def lastValue (kvs : List (Key × Bytes)) (key : Key) : Option Bytes :=
  (kvs.reverse.find? (·.1 = key)).map (·.2)

/-- The attribute of a key. -/
def SynPat.get (pat : SynPat) : Key → Option Bytes
  | .start => pat.start
  | .skip => pat.skip
  | .end => pat.end
  | .end2 => pat.end2
  | .tag => pat.tag
  | .hg => pat.hg
  | .match => pat.match

/-- Set the attributes in order. -/
def SynPat.setAll (pat : SynPat) (kvs : List (Key × Bytes)) : SynPat :=
  kvs.foldl (fun pat kv => pat.set kv.1 kv.2) pat

theorem SynPat.get_set (pat : SynPat) (key key' : Key) (v : Bytes) :
    (pat.set key v).get key' = if key = key' then some v else pat.get key' := by
  cases key <;> cases key' <;> rfl

/-- The attributes are the last values of their keys. -/
theorem SynPat.get_setAll (kvs : List (Key × Bytes)) (key : Key) :
    (SynPat.setAll CItem.zero kvs).get key = lastValue kvs key := by
  induction kvs using List.reverseRecOn with
  | nil => cases key <;> rfl
  | append_singleton kvs kv ih =>
      have hlast : SynPat.setAll CItem.zero (kvs ++ [kv]) =
          (SynPat.setAll CItem.zero kvs).set kv.1 kv.2 := List.foldl_concat ..
      rw [hlast, SynPat.get_set, ih, lastValue, lastValue, List.reverse_concat, List.find?_cons]
      by_cases h : kv.1 = key
      · simp [h]
      · simp [h]

theorem isSome_lastValue_append (kvs : List (Key × Bytes)) {kvs' : List (Key × Bytes)} {key : Key}
    (h : (lastValue kvs' key).isSome = true) : (lastValue (kvs ++ kvs') key).isSome = true := by
  rw [lastValue, Option.isSome_map] at h ⊢
  rw [List.reverse_append, List.find?_append, Option.isSome_or, h, Bool.true_or]

theorem SynPat.setAll_cons (pat : SynPat) (kv : Key × Bytes) (kvs : List (Key × Bytes)) :
    pat.setAll (kv :: kvs) = (pat.set kv.1 kv.2).setAll kvs := rfl

section
variable {p : Bytes}

theorem all_takeWhile {f : UInt8 → Bool} : ∀ c ∈ p.takeWhile f, f c = true :=
  fun _ => List.mem_takeWhile_imp

variable {fuel : Nat} {q w name rest : Bytes} {key : Key} {kvs : List (Key × Bytes)}

/-! ### Keys -/

theorem takeWhile_append_skipwhite (p : Bytes) : p.takeWhile isWhite ++ skipwhite p = p :=
  List.takeWhile_append_dropWhile

theorem skipwhite_append {white : Bytes} (hwhite : ∀ c ∈ white, isWhite c = true)
    (hq : ∀ c ∈ q.head?, isWhite c = false) : skipwhite (white ++ q) = q := by
  rw [skipwhite, List.dropWhile_append_of_pos hwhite]
  cases q with
  | nil => rfl
  | cons c q => simp [hq c rfl]

theorem KeyName.takeWhile (h : KeyName name rest p) : p.takeWhile isKeyByte = name := by
  rw [h.eq, List.takeWhile_append_of_pos h.name]
  cases rest with
  | nil => simp
  | cons c rest => simp [h.stop c rfl]

theorem KeyName.dropWhile (h : KeyName name rest p) : p.dropWhile isKeyByte = rest := by
  rw [h.eq, List.dropWhile_append_of_pos h.name]
  cases rest with
  | nil => rfl
  | cons c rest => simp [h.stop c rfl]

/-- Where the command does not end, a key stands, if only an empty one. -/
theorem keyName (h : endsExcmd p = false) :
    KeyName (p.takeWhile isKeyByte) (p.dropWhile isKeyByte) p :=
  ⟨List.takeWhile_append_dropWhile.symm, all_takeWhile, head_dropWhile, h⟩

theorem eq_cons_of_headD {c : UInt8} (hc : c ≠ 0) (h : p.headD 0 = c) : p = c :: p.tail := by
  cases p with
  | nil => exact absurd h.symm hc
  | cons b p =>
      obtain rfl : b = c := h
      rfl

/-- An equals sign behind a known key. -/
theorem keyAt (h : KeyName name rest p) (hkey : Key.ofBytes (upper name) = some key)
    (heq : (skipwhite rest).headD 0 = 0x3D) : KeyAt p key (skipwhite (skipwhite rest).tail) := by
  refine ⟨name, rest.takeWhile isWhite, (skipwhite rest).tail.takeWhile isWhite, ?_, hkey,
    all_takeWhile, all_takeWhile, head_dropWhile⟩
  rw [takeWhile_append_skipwhite, ← eq_cons_of_headD (by decide) heq, takeWhile_append_skipwhite]
  exact h

theorem KeyAt.length_lt (h : KeyAt p key w) : w.length < p.length := by
  obtain ⟨name, white, white', hname, -⟩ := h
  rw [hname.eq]
  simp only [List.length_append, List.length_cons]
  omega

/-- What follows a value is shorter than the text before its key. -/
theorem KeyAt.length_rest {d : UInt8} {v rest : Bytes} (h : KeyAt p key w)
    (hv : Quoted d v rest w) : (skipwhite rest).length < p.length := by
  have hlt := h.length_lt
  have hle : (skipwhite rest).length ≤ rest.length := (List.dropWhile_suffix _).length_le
  rw [hv.eq] at hlt
  simp only [List.length_append, List.length_cons] at hlt
  omega

theorem KeyAt.suffix (h : KeyAt p key w) : w <:+ p := by
  obtain ⟨name, white, white', hname, -⟩ := h
  exact ⟨name ++ white ++ 0x3D :: white', by simp [hname.eq]⟩

theorem Reads.suffix (h : Reads p kvs q) : q <:+ p := by
  induction h with
  | nil p => exact List.suffix_refl p
  | @cons p w v rest q d key kvs hkey hv _ _ ih =>
      have hrest : rest <:+ w := ⟨d :: (v ++ [d]), by simp [hv.eq]⟩
      exact ih.trans ((List.dropWhile_suffix _).trans (hrest.trans hkey.suffix))

theorem Reads.append {r : Bytes} {kvs' : List (Key × Bytes)} (h : Reads p kvs q)
    (h' : Reads q kvs' r) : Reads p (kvs ++ kvs') r := by
  induction h with
  | nil p => exact h'
  | cons hkey hv hrest _ ih => exact .cons hkey hv hrest (ih h')

/-! ### The loop over the keys -/

variable (pat : SynPat) (count : Nat)

/-- A pass at a known key. -/
theorem readKeys_key (h : KeyName name rest p) (hkey : Key.ofBytes (upper name) = some key)
    (hwhite : skipwhite p = p) : readKeys (fuel + 1) p pat count =
      if (skipwhite rest).headD 0 = 0x3D then
        (getSynPattern (skipwhite (skipwhite rest).tail)).bind fun r =>
          readKeys fuel r.2 (pat.set key r.1) (count + 1)
      else none := by
  rw [readKeys, if_neg (ne_true_of_eq_false h.notEnd), hwhite]
  simp only [show (fun c => !isBlank c && decide (c ≠ 0x3D)) = isKeyByte from rfl, h.takeWhile,
    h.dropWhile, hkey]
  congr 1
  cases getSynPattern (skipwhite (skipwhite rest).tail) <;> rfl

theorem readKeys_keyAt (h : KeyAt p key w) (hwhite : skipwhite p = p) :
    readKeys (fuel + 1) p pat count =
      (getSynPattern w).bind fun r => readKeys fuel r.2 (pat.set key r.1) (count + 1) := by
  obtain ⟨name, white, white', hname, hkey, hw, hw', hhead⟩ := h
  have hskip : skipwhite (white ++ 0x3D :: (white' ++ w)) = 0x3D :: (white' ++ w) :=
    skipwhite_append hw (by rintro c ⟨⟩; rfl)
  rw [readKeys_key pat count hname hkey hwhite, hskip, List.headD_cons, if_pos rfl, List.tail_cons,
    skipwhite_append hw' hhead]

/-- The loop ends with what it has read. -/
theorem readKeys_of_end (h : ArgumentsEnd p) (hwhite : skipwhite p = p) :
    readKeys fuel p pat count = some (pat, count) := by
  cases fuel with
  | zero => rfl
  | succ fuel =>
      rcases h with hend | ⟨name, rest, hname, hkey⟩
      · rw [readKeys, if_pos hend]
      · rw [readKeys, if_neg (ne_true_of_eq_false hname.notEnd), hwhite]
        simp only [show (fun c => !isBlank c && decide (c ≠ 0x3D)) = isKeyByte from rfl,
          hname.takeWhile, hkey]

/-- The command is dropped. -/
theorem readKeys_of_fails (h : KeyFails p) (hwhite : skipwhite p = p) (hfuel : p.length ≤ fuel) :
    readKeys fuel p pat count = none := by
  cases fuel with
  | zero =>
      obtain rfl : p = [] := List.length_eq_zero_iff.mp (Nat.le_zero.mp hfuel)
      rcases h with ⟨_, _, _, hname, -⟩ | ⟨_, _, ⟨_, _, _, hname, -⟩, -⟩
      all_goals exact absurd hname.notEnd (by decide)
  | succ fuel =>
      rcases h with ⟨name, rest, key, hname, hkey, heq⟩ | ⟨key, w, hat, hget⟩
      · rw [readKeys_key pat count hname hkey hwhite, if_neg heq]
      · rw [readKeys_keyAt pat count hat hwhite, hget, Option.bind_none]

/-- The loop reads the settings one after the other. -/
theorem Reads.readKeys (h : Reads p kvs q) (hwhite : skipwhite p = p) (hfuel : p.length ≤ fuel) :
    ∃ fuel', q.length ≤ fuel' ∧ skipwhite q = q ∧ Highlight.readKeys fuel p pat count =
      Highlight.readKeys fuel' q (pat.setAll kvs) (count + kvs.length) := by
  induction h generalizing fuel pat count with
  | nil p => exact ⟨fuel, hfuel, hwhite, rfl⟩
  | @cons p w v rest q d key kvs hkey hv hrest h ih =>
      have hlt := hkey.length_rest hv
      cases fuel with
      | zero => omega
      | succ fuel =>
          have hfuel' : (skipwhite rest).length ≤ fuel := by omega
          obtain ⟨fuel', hfuel', hq, hread⟩ := ih (pat.set key v) (count + 1)
            (skipwhite_skipwhite rest) hfuel'
          refine ⟨fuel', hfuel', hq, ?_⟩
          rw [readKeys_keyAt pat count hkey hwhite, getSynPattern_eq_some_iff.mpr ⟨d, rest, hv, hrest, rfl⟩,
            Option.bind_some, hread, SynPat.setAll_cons, List.length_cons]
          congr 1
          omega

/-- Every text is read up to an end of the arguments or to a key that fails. -/
theorem exists_reads (hwhite : skipwhite p = p) :
    ∃ kvs q, Reads p kvs q ∧ (ArgumentsEnd q ∨ KeyFails q) := by
  generalize hn : p.length = n
  induction n using Nat.strongRecOn generalizing p with
  | _ n ih =>
      cases hend : endsExcmd p with
      | true => exact ⟨[], p, .nil p, .inl (.inl hend)⟩
      | false =>
          have hname := keyName hend
          cases hkey : Key.ofBytes (upper (p.takeWhile isKeyByte)) with
          | none => exact ⟨[], p, .nil p, .inl (.inr ⟨_, _, hname, hkey⟩)⟩
          | some key =>
              by_cases heq : (skipwhite (p.dropWhile isKeyByte)).headD 0 = 0x3D
              · have hat := keyAt hname hkey heq
                cases hget : getSynPattern (skipwhite (skipwhite (p.dropWhile isKeyByte)).tail) with
                | none => exact ⟨[], p, .nil p, .inr (.inr ⟨key, _, hat, hget⟩)⟩
                | some r =>
                    obtain ⟨d, rest, hv, hrest, -⟩ := getSynPattern_eq_some_iff.mp hget
                    obtain ⟨kvs, q, hreads, hq⟩ := ih _ (hn ▸ hat.length_rest hv)
                      (skipwhite_skipwhite rest) rfl
                    exact ⟨(key, r.1) :: kvs, q, .cons hat hv hrest hreads, hq⟩
              · exact ⟨[], p, .nil p, .inr (.inl ⟨_, _, key, hname, hkey, heq⟩)⟩

/-- The loop accepts settings. -/
theorem readKeys_of_settings (h : Settings p kvs) (hwhite : skipwhite p = p)
    (hfuel : p.length ≤ fuel) :
    readKeys fuel p pat count = some (pat.setAll kvs, count + kvs.length) := by
  obtain ⟨q, hreads, hend⟩ := h
  obtain ⟨fuel', -, hq, hread⟩ := hreads.readKeys pat count hwhite hfuel
  rw [hread, readKeys_of_end _ _ hend hq]

/-- It accepts nothing else. -/
theorem readKeys_of_not_settings (h : ∀ kvs, ¬ Settings p kvs) (hwhite : skipwhite p = p)
    (hfuel : p.length ≤ fuel) : readKeys fuel p pat count = none := by
  obtain ⟨kvs, q, hreads, hend | hfails⟩ := exists_reads hwhite
  · exact absurd ⟨q, hreads, hend⟩ (h kvs)
  · obtain ⟨fuel', hfuel', hq, hread⟩ := hreads.readKeys pat count hwhite hfuel
    rw [hread, readKeys_of_fails _ _ hfails hq hfuel']

end

/-! ## The command -/

section
variable {l : Loader} {p rest : Bytes} {kvs : List (Key × Bytes)}

/-- A region whose arguments are settings. -/
theorem synCmdRegion_of_settings (hrest : getGroupName p = some rest) (h : Settings rest kvs) :
    synCmdRegion l p =
      if (lastValue kvs .start).isSome ∧ (lastValue kvs .end).isSome then
        storePattern l (untilWhite p) (SynPat.setAll CItem.zero kvs) kvs.length
      else some l.sized := by
  have hwhite := skipwhite_of_getGroupName hrest
  have hread := readKeys_of_settings CItem.zero 0 h hwhite (Nat.le_refl _)
  rw [Nat.zero_add] at hread
  rw [synCmdRegion, hrest]
  simp only [hread, ← SynPat.get_setAll]
  rfl

/-- Any other region is dropped. -/
theorem synCmdRegion_of_not_settings (h : ∀ rest ∈ getGroupName p, ∀ kvs, ¬Settings rest kvs) :
    synCmdRegion l p = some l.sized := by
  cases hrest : getGroupName p with
  | none => rw [synCmdRegion, hrest]
  | some rest =>
      have hread := readKeys_of_not_settings CItem.zero 0 (h rest hrest)
        (skipwhite_of_getGroupName hrest) (Nat.le_refl _)
      simp only [synCmdRegion, hrest, hread]

/-- An id is the place of an entry with this name, which was in the table or is its last one now. -/
structure GroupEntry (tab : GroupTable) (name : Bytes) (id : Nat) (tab' : GroupTable) : Prop where
  pos : 0 < id
  entry : ∃ g, tab'.items[id - 1]? = some g ∧
    (g.nameU = upper (name.take 199) ∨ g.nameU = upper name)
  table : if synName2id tab name = 0 then tab'.items = tab.items ++ [⟨upper name, 0, 0⟩]
    else tab' = tab

/-- One pattern more, with the last values of the settings, and nothing else but its group. -/
structure Appends (l : Loader) (p : Bytes) (l' : Loader) : Prop where
  pattern : ∃ kvs pat, Settings (skipwhite (skiptowhite p)) kvs ∧
    l'.patterns.items = l.patterns.items ++ [pat] ∧
    pat.start.isSome = true ∧ pat.end.isSome = true ∧
    (∀ key, pat.get key = lastValue kvs key) ∧
    GroupEntry l.groups (untilWhite p) pat.fromId l'.groups
  keywords : l'.keywtab = l.keywtab ∧ l'.keywtabIc = l.keywtabIc

structure Unchanged (l l' : Loader) : Prop where
  patterns : l'.patterns.items = l.patterns.items
  groups : l'.groups = l.groups
  keywords : l'.keywtab = l.keywtab ∧ l'.keywtabIc = l.keywtabIc

theorem unchanged_sized (l : Loader) : Unchanged l l.sized := ⟨rfl, rfl, rfl, rfl⟩

/-- The entry that is found has the name. -/
theorem exists_entry {tab : GroupTable} {name : Bytes} (h : synName2id tab name ≠ 0) :
    ∃ g, tab.items[synName2id tab name - 1]? = some g ∧ g.nameU = upper (name.take 199) := by
  have hlt : (tab.items.reverse.findIdx fun g => g.nameU = upper (name.take 199)) <
      tab.items.reverse.length := by
    rw [List.length_reverse]
    exact Nat.lt_of_sub_ne_zero h
  have hget := List.getElem?_eq_getElem hlt
  have hname := List.findIdx_getElem (w := hlt)
  rw [List.length_reverse] at hlt
  rw [List.getElem?_reverse hlt] at hget
  refine ⟨_, ?_, of_decide_eq_true hname⟩
  rw [← hget, synName2id]
  congr 1
  omega

theorem Checked.groupEntry {tab tab' : GroupTable} {name : Bytes} {id : Nat}
    (hsized : tab.Sized) (h : Checked tab name id tab') (hid : id ≠ 0) :
    GroupEntry tab name id tab' := by
  cases h with
  | found hfound =>
      obtain ⟨g, hg, hname⟩ := exists_entry hfound
      exact ⟨Nat.pos_of_ne_zero hid, ⟨g, hg, .inl hname⟩, by rw [if_neg hfound]⟩
  | invalid _ _ => exact absurd rfl hid
  | added hnew _ _ hitems =>
      refine ⟨Nat.pos_of_ne_zero hid, ⟨⟨upper name, 0, 0⟩, ?_, .inr rfl⟩, by rw [if_pos hnew, hitems]⟩
      rw [hitems, ← GArray.length_items hsized, Nat.add_sub_cancel, List.getElem?_concat_length]

theorem Checked.eq_of_zero {tab tab' : GroupTable} {name : Bytes} (h : Checked tab name 0 tab') :
    tab' = tab := by
  generalize hid : 0 = id at h
  cases h with
  | found hfound => exact absurd hid.symm hfound
  | invalid _ _ => rfl
  | added _ _ _ _ => cases hid

/-- A key with a value is one of the settings. -/
theorem length_pos_of_lastValue {key : Key} (h : (lastValue kvs key).isSome = true) :
    0 < kvs.length := by
  cases kvs with
  | nil => cases h
  | cons kv kvs => exact Nat.succ_pos _

/-- A region is dropped, or its settings have a start and an end and are stored. -/
theorem synCmdRegion_cases (h : l.Wf) (p : Bytes) : synCmdRegion l p = some l.sized ∨
    ∃ kvs id l', Settings (skipwhite (skiptowhite p)) kvs ∧ (lastValue kvs .start).isSome = true ∧
      (lastValue kvs .end).isSome = true ∧ synCmdRegion l p = some l' ∧
      Loader.Stored l (untilWhite p) (SynPat.setAll CItem.zero kvs) id l' := by
  by_cases hset : ∃ rest ∈ getGroupName p, ∃ kvs, Settings rest kvs
  · obtain ⟨rest, hrest, kvs, hkvs⟩ := hset
    rw [synCmdRegion_of_settings hrest hkvs]
    split
    · next hboth =>
      obtain ⟨id, l', hstore, hstored⟩ := Loader.exists_stored h (untilWhite p)
        (SynPat.setAll CItem.zero kvs) (length_pos_of_lastValue hboth.1)
      rw [(getGroupName_eq_some_iff.mp hrest).2.2] at hkvs
      exact .inr ⟨kvs, id, l', hkvs, hboth.1, hboth.2, hstore, hstored⟩
    · exact .inl rfl
  · refine .inl (synCmdRegion_of_not_settings fun rest hrest kvs hkvs => ?_)
    exact hset ⟨rest, hrest, kvs, hkvs⟩

/-- A region command appends one pattern, whose start and end are there and whose group has an
entry, or it leaves the tables as they are. -/
theorem synCmdRegion_all_or_nothing (h : l.Wf) (p : Bytes) :
    ∃ l', synCmdRegion l p = some l' ∧ (Appends l p l' ∨ Unchanged l l') := by
  rcases synCmdRegion_cases h p with hdrop | ⟨kvs, id, l', hkvs, hstart, hend, hcmd, hstored⟩
  · exact ⟨_, hdrop, .inr (unchanged_sized l)⟩
  · have hpat := hstored.patterns
    refine ⟨l', hcmd, ?_⟩
    by_cases hid : id = 0
    · -- The name is not valid: the array has grown, but nothing is stored.
      subst hid
      rw [if_pos rfl, List.append_nil] at hpat
      exact .inr ⟨hpat, hstored.checked.eq_of_zero, hstored.keywords.1, hstored.keywords.2.1⟩
    · rw [if_neg hid] at hpat
      have hget := SynPat.get_setAll kvs
      rw [← hget] at hstart hend
      refine .inl ⟨⟨kvs, _, hkvs, hpat, hstart, hend, fun key => ?_, ?_⟩, hstored.keywords.1,
        hstored.keywords.2.1⟩
      · rw [← hget key]
        cases key <;> rfl
      · exact hstored.checked.groupEntry h.groups hid

/-- A region of comments, in the state after `syntax_init`, is appended. -/
theorem synCmdRegion_comment : initialLoader.Wf ∧
    ∃ l', synCmdRegion initialLoader (bytes "Comment start=\"/*\" end=\"*/\"") = some l' ∧
      Appends initialLoader (bytes "Comment start=\"/*\" end=\"*/\"") l' := by
  obtain ⟨l', hcmd, happends | hsame⟩ := synCmdRegion_all_or_nothing wf_initialLoader
    (bytes "Comment start=\"/*\" end=\"*/\"")
  · exact ⟨wf_initialLoader, l', hcmd, happends⟩
  · have hone : (synCmdRegion initialLoader (bytes "Comment start=\"/*\" end=\"*/\"")).map
        (·.patterns.items.length) = some 1 := by
      decide +kernel
    rw [hcmd, Option.map_some, hsame.patterns] at hone
    exact absurd hone (by decide +kernel)

end

end HapAndroid.Highlight
