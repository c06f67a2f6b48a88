import HapAndroid.Highlight.Includes

/-!
# What a command does to the tables

A command is read without a look at the tables: its text alone says what it is going to do
(`Command.effect`), and then the tables are changed (`Tables.apply`).  `Tables` is a loader without
the room of its arrays.  Where the arrays have their sizes, performing a command is applying its
effect (`exec_effect`).
-/

namespace HapAndroid.Highlight

/-- The tables of a loader, without the room of its arrays. -/
structure Tables where
  synCase : Bool
  keywtab : KeywordTable
  keywtabIc : KeywordTable
  patterns : List SynPat
  groups : List HlGroup

def Loader.tables (l : Loader) : Tables :=
  ⟨l.synCase, l.keywtab, l.keywtabIc, l.patterns.items, l.groups.items⟩

/-- What a command is going to do, to the group of this name. -/
inductive Effect where
  | nothing
  | setCase (ignore : Bool)
  | addKeywords (group : Bytes) (ws : List Bytes)
  | addPattern (group : Bytes) (pat : SynPat)
  /-- A link to another group, or to `NONE`. -/
  | link (group : Bytes) (target : Option Bytes)

/-! ## The effect of a command -/

/-- The pattern that a region stores. -/
def regionPattern (rest : Bytes) : Option SynPat :=
  (readKeys rest.length rest CItem.zero 0).bind fun r =>
    if r.1.start.isSome ∧ r.1.end.isSome then some r.1 else none

/-- The pattern that a match stores. -/
def matchPattern (rest : Bytes) : Option SynPat :=
  (getSynPattern rest).map fun r => SynPat.set CItem.zero .match r.1

def Effect.ofPattern (group : Bytes) (pat : Option SynPat) : Effect :=
  pat.elim .nothing (.addPattern group)

/-- The effect of a command, if it comes back; an include has none of its own. -/
def Command.effect : Command → Option Effect
  | .noWord => none
  | .noType => none
  | .synCase arg =>
      if (bytes "match").isPrefixOf arg then some (.setCase false)
      else if (bytes "ignore").isPrefixOf arg then some (.setCase true)
      else some .nothing
  | .synKeyword arg =>
      (getGroupName arg).elim (some .nothing) fun rest =>
        (copyWords rest.length rest).map (.addKeywords (untilWhite arg))
  | .synRegion arg => some (.ofPattern (untilWhite arg) ((getGroupName arg).bind regionPattern))
  | .synMatch arg =>
      (getGroupName arg).map fun rest => .ofPattern (untilWhite arg) (matchPattern rest)
  | .hiLink arg =>
      if endsExcmd arg ∨ endsExcmd (skipwhite (skiptowhite arg)) then some .nothing
      else some (.link (untilWhite arg)
        (if (bytes "NONE").isPrefixOf (skipwhite (skiptowhite arg)) then none
          else some (untilWhite (skipwhite (skiptowhite arg)))))
  | .synInclude _ => none
  | .skip => some .nothing

/-! ## The tables after it -/

/-- The id of a name: the place of its last entry. -/
def nameId (gs : List HlGroup) (name : Bytes) : Nat :=
  gs.length - gs.reverse.findIdx fun g => g.nameU = upper (name.take 199)

/-- The id of a name, and the groups, to which a new name is added. -/
def checkGroup (gs : List HlGroup) (name : Bytes) : Nat × List HlGroup :=
  if nameId gs name = 0 then
    if validName name then (gs.length + 1, gs ++ [⟨upper name, 0, 0⟩]) else (0, gs)
  else (nameId gs name, gs)

/-- Set the link of an entry, if both ids are there. -/
def linkGroups (gs : List HlGroup) (fromId toId : Nat) : List HlGroup :=
  if 0 < fromId ∧ 0 < toId then gs.modify (fromId - 1) ({ · with fromId, toId }) else gs

namespace Tables

def addKeyword (id : Nat) (t : Tables) (w : Bytes) : Tables :=
  if t.synCase then { t with keywtabIc := (w.map toLower, id) :: t.keywtabIc }
  else { t with keywtab := (w, id) :: t.keywtab }

def addPattern (id : Nat) (t : Tables) (pat : SynPat) : Tables :=
  if id = 0 then t else { t with patterns := t.patterns ++ [{ pat with fromId := id }] }

def link (id : Nat) (t : Tables) (target : Option Bytes) : Tables :=
  { t with groups := linkGroups t.groups id (target.elim 0 (nameId t.groups)) }

/-- The tables with the group of a name. -/
def withGroup (t : Tables) (name : Bytes) : Tables :=
  { t with groups := (checkGroup t.groups name).2 }

def apply (t : Tables) : Effect → Tables
  | .nothing => t
  | .setCase ignore => { t with synCase := ignore }
  | .addKeywords group ws => ws.foldl (addKeyword (checkGroup t.groups group).1) (t.withGroup group)
  | .addPattern group pat => addPattern (checkGroup t.groups group).1 (t.withGroup group) pat
  | .link group target => link (checkGroup t.groups group).1 (t.withGroup group) target

/-- Perform a command on the tables. -/
def exec (t : Tables) (c : Command) : Option Tables := c.effect.map t.apply

end Tables

/-! ## Performing a command -/

section
variable {l l' : Loader} {p rest name : Bytes} {kvs : List (Key × Bytes)}

theorem regionPattern_of_settings (hwhite : skipwhite rest = rest) (h : Settings rest kvs) :
    regionPattern rest =
      if (lastValue kvs .start).isSome ∧ (lastValue kvs .end).isSome then
        some (SynPat.setAll CItem.zero kvs)
      else none := by
  rw [regionPattern, readKeys_of_settings CItem.zero 0 h hwhite (Nat.le_refl _), Option.bind_some,
    ← SynPat.get_setAll, ← SynPat.get_setAll]
  rfl

theorem regionPattern_of_not_settings (hwhite : skipwhite rest = rest)
    (h : ∀ kvs, ¬ Settings rest kvs) : regionPattern rest = none := by
  rw [regionPattern, readKeys_of_not_settings CItem.zero 0 h hwhite (Nat.le_refl _),
    Option.bind_none]

/-- A table with its sizes is checked as its entries are. -/
theorem Checked.checkGroup_eq {tab tab' : GroupTable} {id : Nat} (h : Checked tab name id tab')
    (hsized : tab.Sized) : checkGroup tab.items name = (id, tab'.items) := by
  have hnameId : nameId tab.items name = synName2id tab name := rfl
  cases h with
  | found hid => exact if_neg hid
  | invalid hid hname => rw [checkGroup, hnameId, if_pos hid, if_neg (by simp [hname])]
  | added hid hname _ hitems =>
      rw [checkGroup, hnameId, if_pos hid, if_pos hname, hitems, GArray.length_items hsized]

namespace Loader

theorem tables_foldl (id : Nat) (ws : List Bytes) (l : Loader) :
    (ws.foldl (addKeyword id) l).tables = ws.foldl (Tables.addKeyword id) l.tables := by
  induction ws generalizing l with
  | nil => rfl
  | cons w ws ih =>
      rw [List.foldl_cons, List.foldl_cons, ih]
      refine congrArg (fun t => ws.foldl _ t) ?_
      rw [addKeyword, Tables.addKeyword, show l.tables.synCase = l.synCase from rfl]
      split <;> rfl

theorem Stored.tables_eq {pat : SynPat} {id : Nat} (hstored : Stored l name pat id l')
    (h : l.Wf) : l'.tables = l.tables.apply (.addPattern name pat) := by
  have hcheck : checkGroup l.tables.groups name = (id, l'.tables.groups) :=
    hstored.checked.checkGroup_eq h.groups
  have hpat := hstored.patterns
  obtain ⟨hk, hkIc, hcase⟩ := hstored.keywords
  rw [Tables.apply, Tables.withGroup, hcheck]
  simp only [Tables.addPattern, tables, hk, hkIc, hcase]
  split
  · next hid => rw [hpat, if_pos hid, List.append_nil]
  · next hid => rw [hpat, if_neg hid]

theorem tables_synCmdRegion (h : l.Wf) (p : Bytes) : (synCmdRegion l p).map tables =
    (Command.synRegion p).effect.map l.tables.apply := by
  rw [Command.effect, Option.map_some]
  cases hrest : getGroupName p with
  | none =>
      rw [synCmdRegion, hrest]
      rfl
  | some rest =>
      have hwhite := skipwhite_of_getGroupName hrest
      rw [Option.bind_some]
      by_cases hset : ∃ kvs, Settings rest kvs
      · obtain ⟨kvs, hkvs⟩ := hset
        rw [synCmdRegion_of_settings hrest hkvs, regionPattern_of_settings hwhite hkvs]
        split
        · next hboth =>
          obtain ⟨id, l', hstore, hstored⟩ := exists_stored h (untilWhite p)
            (SynPat.setAll CItem.zero kvs) (length_pos_of_lastValue hboth.1)
          rw [hstore]
          exact congrArg some (hstored.tables_eq h)
        · rfl
      · have hnot := not_exists.mp hset
        rw [regionPattern_of_not_settings hwhite hnot, synCmdRegion_of_not_settings]
        · rfl
        · intro rest' hrest'
          obtain rfl : rest = rest' := Option.some.inj (hrest.symm.trans hrest')
          exact hnot

theorem tables_synCmdMatch (h : l.Wf) (p : Bytes) : (synCmdMatch l p).map tables =
    (Command.synMatch p).effect.map l.tables.apply := by
  rw [Command.effect]
  cases hrest : getGroupName p with
  | none =>
      rw [synCmdMatch, hrest]
      rfl
  | some rest =>
      rw [Option.map_some, Option.map_some, matchPattern]
      cases hget : getSynPattern rest with
      | none =>
          simp only [synCmdMatch, hrest, hget]
          rfl
      | some r =>
          obtain ⟨id, l', hstore, hstored⟩ := exists_stored h (untilWhite p)
            (SynPat.set CItem.zero .match r.1) Nat.one_pos
          simp only [synCmdMatch, hrest, hget, hstore]
          exact congrArg some (hstored.tables_eq h)

theorem tables_synCmdKeyword (h : l.Wf) (p : Bytes) : (synCmdKeyword l p).map tables =
    (Command.synKeyword p).effect.map l.tables.apply := by
  rw [Command.effect]
  cases hrest : getGroupName p with
  | none =>
      rw [synCmdKeyword, hrest]
      rfl
  | some rest =>
      obtain ⟨id, groups, hchecked, heq⟩ := synCmdKeyword_eq h hrest
      have hcheck : checkGroup l.tables.groups (untilWhite p) = (id, groups.items) :=
        hchecked.checkGroup_eq h.groups
      rw [heq, Option.elim_some, Option.map_map, Option.map_map]
      refine congrArg (fun f => Option.map f _) (funext fun ws => ?_)
      rw [Function.comp_apply, Function.comp_apply, tables_foldl, Tables.apply, Tables.withGroup,
        hcheck]
      rfl

theorem items_link (groups : GroupTable) (id toId : Nat) :
    (if 0 < id ∧ 0 < toId then linkGroup groups id toId else groups).items =
      linkGroups groups.items id toId := by
  unfold linkGroups
  split
  · exact items_linkGroup groups id toId
  · rfl

theorem link_effect (h : l.Wf) (p : Bytes) : ((highlightLink l p).map (·.1)).map tables =
    (Command.hiLink p).effect.map l.tables.apply := by
  rw [Command.effect]
  unfold highlightLink
  dsimp only
  split
  · rfl
  · obtain ⟨id, groups, hcheck, hchecked⟩ := exists_checked h.groups (untilWhite p)
    have hcheck' : checkGroup l.tables.groups (untilWhite p) = (id, groups.items) :=
      hchecked.checkGroup_eq h.groups
    simp only [hcheck, Option.map_some, Tables.apply, Tables.withGroup, hcheck', Tables.link]
    refine congrArg some ?_
    rw [tables, items_link]
    split <;> rfl

end Loader

/-- Performing a command is applying its effect. -/
theorem exec_effect (h : l.Wf) (conf : Bytes) (c : Command) :
    (exec (fun _ _ => none) conf l c).map Loader.tables = l.tables.exec c := by
  cases c with
  | noWord => rfl
  | noType => rfl
  | synCase arg =>
      unfold exec synCmdCase Tables.exec Command.effect
      dsimp only
      split_ifs <;> rfl
  | synKeyword arg => exact Loader.tables_synCmdKeyword h arg
  | synRegion arg => exact Loader.tables_synCmdRegion h arg
  | synMatch arg => exact Loader.tables_synCmdMatch h arg
  | hiLink arg => exact Loader.link_effect h arg
  | synInclude arg => rfl
  | skip => rfl

/-- So are the commands of a file. -/
theorem run_effect (h : l.Wf) (conf : Bytes) (cs : List Command) :
    (Run.run (exec (fun _ _ => none) conf) l cs).map Loader.tables =
      Run.run Tables.exec l.tables cs := by
  refine Run.run_abstract (fun s c t hs => ?_) (fun s c hs => exec_effect hs conf c) h cs
  exact wf_exec (fun _ _ _ _ hload => nomatch (show none = some _ from hload)) hs

end

/-! ## Groups by name -/

/-- The name has an id, or gets one. -/
def HasGroup (gs : List HlGroup) (name : Bytes) : Prop := nameId gs name ≠ 0 ∨ validName name = true

section
variable {gs gs' : List HlGroup} {t : Tables} {group name : Bytes}

theorem checkGroup_of_not_hasGroup {gs : List HlGroup} (h : ¬ HasGroup gs group) :
    checkGroup gs group = (0, gs) := by
  obtain ⟨hid, hname⟩ := not_or.mp h
  rw [checkGroup, if_pos (not_not.mp hid), if_neg hname]

theorem Tables.withGroup_eq_self (h : nameId t.groups group = 0 → validName group = false) :
    t.withGroup group = t := by
  have hgroups : (checkGroup t.groups group).2 = t.groups := by
    unfold checkGroup
    split
    · next hid => rw [if_neg (ne_true_of_eq_false (h hid))]
    · rfl
  rw [Tables.withGroup, hgroups]


/-- The names that are found. -/
theorem nameId_ne_zero_iff : nameId gs name ≠ 0 ↔ upper (name.take 199) ∈ names gs := by
  rw [nameId, Nat.sub_ne_zero_iff_lt, ← List.length_reverse, List.findIdx_lt_length]
  simp [names]

theorem checkGroup_fst_ne_zero (h : HasGroup gs name) : (checkGroup gs name).1 ≠ 0 := by
  unfold checkGroup
  split
  · next hid =>
    rw [if_pos (h.resolve_left (not_not.mpr hid))]
    exact Nat.succ_ne_zero _
  · next hid => exact hid

theorem subset_checkGroup (gs : List HlGroup) (name : Bytes) : gs ⊆ (checkGroup gs name).2 := by
  unfold checkGroup
  split_ifs
  · exact List.subset_append_left ..
  · exact List.Subset.refl _
  · exact List.Subset.refl _

theorem nameId_mono (h : gs ⊆ gs') (hid : nameId gs name ≠ 0) : nameId gs' name ≠ 0 :=
  nameId_ne_zero_iff.mpr (List.map_subset _ h (nameId_ne_zero_iff.mp hid))

/-- A name that has an id is known from then on, unless it is too long to be compared whole. -/
theorem nameId_checkGroup (h : HasGroup gs name) (hlen : name.length ≤ 199) :
    nameId (checkGroup gs name).2 name ≠ 0 := by
  unfold checkGroup
  split
  · next hid =>
    rw [if_pos (h.resolve_left (not_not.mpr hid))]
    refine nameId_ne_zero_iff.mpr ?_
    simp [names, List.take_of_length_le hlen]
  · next hid => exact hid

/-- Tables that know more groups know more with one more. -/
theorem nameId_checkGroup_mono (h : ∀ name, nameId gs name ≠ 0 → nameId gs' name ≠ 0)
    (group name : Bytes) (hid : nameId (checkGroup gs group).2 name ≠ 0) :
    nameId (checkGroup gs' group).2 name ≠ 0 := by
  by_cases hold : nameId gs name = 0
  · -- The name is the one that was added.
    unfold checkGroup at hid
    split at hid
    · split at hid
      · next hvalid =>
        have hmem := nameId_ne_zero_iff.mp hid
        rw [names, List.map_append, List.mem_append] at hmem
        have hname : upper (name.take 199) = upper group :=
          List.mem_singleton.mp (hmem.resolve_left fun h => nameId_ne_zero_iff.mpr h hold)
        have hlen : group.length ≤ 199 := by
          have hlen := congrArg List.length hname
          simp only [upper, List.length_map, List.length_take] at hlen
          omega
        have hgroup := nameId_ne_zero_iff.mp
          (nameId_checkGroup (show HasGroup gs' group from .inr hvalid) hlen)
        rw [List.take_of_length_le hlen, ← hname] at hgroup
        exact nameId_ne_zero_iff.mpr hgroup
      · exact absurd hold hid
    · exact absurd hold hid
  · exact nameId_mono (subset_checkGroup gs' group) (h name hold)

theorem nameId_linkGroups (gs : List HlGroup) (id toId : Nat) (name : Bytes) :
    nameId (linkGroups gs id toId) name ≠ 0 ↔ nameId gs name ≠ 0 := by
  rw [nameId_ne_zero_iff, nameId_ne_zero_iff]
  unfold linkGroups
  split
  · rw [names_modify]
  · exact Iff.rfl

end

end HapAndroid.Highlight
