import Mathlib.Logic.Relation
import HapAndroid.Highlight.Load

/-!
# Names and links of the groups

Every command changes the table of groups by looking a name up, which may add it, and
perhaps setting a link; a load is a sequence of such steps (`GroupStep`).  What they keep
is `Named`: the first six entries are the built-in groups, no other entry has one of their
names, and a link leads from its own entry to an entry of the table.  So an id is one of
the six exactly when it is the id of a built-in name.
-/

namespace HapAndroid.Highlight

/-! ## The steps of a load -/

/-- What a command does to the table. -/
inductive GroupStep (tab : GroupTable) : GroupTable → Prop where
  | check {name : Bytes} {id : Nat} {tab' : GroupTable}
      (h : synCheckGroup tab name true = some (id, tab')) : GroupStep tab tab'
  | link {name : Bytes} {id : Nat} {tab' : GroupTable} (target : Bytes)
      (h : synCheckGroup tab name true = some (id, tab')) (hid : 0 < id)
      (ht : 0 < synName2id tab' target) :
      GroupStep tab (linkGroup tab' id (synName2id tab' target))

abbrev GroupSteps := Relation.ReflTransGen GroupStep

namespace Loader

variable {l l' : Loader} {p : Bytes}

theorem synCmdCase_groups (l : Loader) (p : Bytes) : (synCmdCase l p).groups = l.groups := by
  unfold synCmdCase
  split
  · rfl
  · split <;> rfl

theorem foldl_addKeyword_groups (id : Nat) (ws : List Bytes) (l : Loader) :
    (ws.foldl (addKeyword id) l).groups = l.groups := by
  induction ws generalizing l with
  | nil => rfl
  | cons w ws ih =>
      rw [List.foldl_cons, ih]
      unfold addKeyword
      split <;> rfl

theorem steps_keyword (h : synCmdKeyword l p = some l') : GroupSteps l.groups l'.groups := by
  unfold synCmdKeyword at h
  split at h
  · cases h
    exact .refl
  · split at h
    · cases h
    · next hcheck =>
      obtain ⟨ws, -, rfl⟩ := Option.map_eq_some_iff.mp h
      rw [foldl_addKeyword_groups]
      exact .single (.check hcheck)

theorem steps_storePattern {name : Bytes} {pat : SynPat} {count : Nat}
    (h : storePattern l name pat count = some l') : GroupSteps l.groups l'.groups := by
  unfold storePattern at h
  split at h
  · cases h
  · next hcheck =>
    cases h
    exact .single (.check hcheck)
  · next hcheck =>
    obtain ⟨patterns, -, rfl⟩ := Option.map_eq_some_iff.mp h
    exact .single (.check hcheck)

theorem steps_region (h : synCmdRegion l p = some l') : GroupSteps l.groups l'.groups := by
  unfold synCmdRegion at h
  split at h
  · cases h
    exact .refl
  · split at h
    · split at h
      · exact steps_storePattern h
      · cases h
        exact .refl
    · cases h
      exact .refl

theorem steps_match (h : synCmdMatch l p = some l') : GroupSteps l.groups l'.groups := by
  unfold synCmdMatch at h
  split at h
  · cases h
  · split at h
    · cases h
      exact .refl
    · exact steps_storePattern h

theorem steps_link {rest : Bytes} (h : highlightLink l p = some (l', rest)) :
    GroupSteps l.groups l'.groups := by
  unfold highlightLink at h
  dsimp only at h
  split at h
  · cases h
    exact .refl
  · split at h
    · cases h
    · next hcheck =>
      cases h
      dsimp only
      split
      · -- The target is `NONE`, which is no id.
        rw [if_neg fun hids => absurd hids.2 (Nat.lt_irrefl 0)]
        exact .single (.check hcheck)
      · split
        · next hids => exact .single (.link _ hcheck hids.1 hids.2)
        · exact .single (.check hcheck)

theorem steps_syn {type : Bytes}
    (h : (if type = bytes "case" then some (synCmdCase l p)
      else if type = bytes "keyword" then synCmdKeyword l p
      else if type = bytes "region" then synCmdRegion l p
      else if type = bytes "match" then synCmdMatch l p
      else some l) = some l') : GroupSteps l.groups l'.groups := by
  split at h
  · cases h
    rw [synCmdCase_groups]
  · split at h
    · exact steps_keyword h
    · split at h
      · exact steps_region h
      · split at h
        · exact steps_match h
        · cases h
          exact .refl

theorem steps_loadLoop {load : Bytes → Loader → Option Loader}
    (hload : ∀ {f l l'}, load f l = some l' → GroupSteps l.groups l'.groups) {conf : Bytes}
    {fuel : Nat} (h : loadLoop load conf fuel p l = some l') : GroupSteps l.groups l'.groups := by
  induction fuel generalizing p l with
  | zero =>
      cases h
      exact .refl
  | succ fuel ih =>
      unfold loadLoop at h
      dsimp only at h
      split at h
      · cases h
        exact .refl
      · split at h
        · exact ih h
        · split at h
          · cases h
          · split at h
            · split at h
              · cases h
              · obtain ⟨l₁, hcmd, hrest⟩ := Option.bind_eq_some_iff.mp h
                exact (steps_syn hcmd).trans (ih hrest)
            · split at h
              · split at h
                · cases h
                · next hlink => exact (steps_link hlink).trans (ih h)
              · split at h
                · obtain ⟨l₁, hfile, hrest⟩ := Option.bind_eq_some_iff.mp h
                  exact (hload hfile).trans (ih hrest)
                · exact ih h

theorem steps_loadSyntaxConf {files : Files} {depth : Nat} {conf : Bytes}
    (h : loadSyntaxConf files depth conf l = some l') : GroupSteps l.groups l'.groups := by
  induction depth generalizing conf l l' with
  | zero => cases h
  | succ depth ih =>
      unfold loadSyntaxConf at h
      split at h
      · cases h
        exact .refl
      · exact steps_loadLoop ih h

end Loader

/-! ## The entries -/

/-- The names of the built-in groups, as they are compared. -/
def builtin : List Bytes := tagGroups.map upper

def names (es : List HlGroup) : List Bytes := es.map (·.nameU)

/-- The entries of a table that was set up and extended. -/
structure Named (es : List HlGroup) : Prop where
  builtin_eq : (names es).take 6 = builtin
  other : ∀ name ∈ (names es).drop 6, name ∉ builtin
  /-- An entry has no link, or one from itself to an entry. -/
  link : ∀ k e, es[k]? = some e →
    (e.fromId = 0 ∧ e.toId = 0) ∨ (e.fromId = k + 1 ∧ 0 < e.toId ∧ e.toId ≤ es.length)

section
variable {es : List HlGroup}

theorem Named.six_le (h : Named es) : 6 ≤ (names es).length := by
  have hlen := congrArg List.length h.builtin_eq
  rw [List.length_take] at hlen
  have h6 : builtin.length = 6 := rfl
  omega

/-- The built-in names are those of the first six entries. -/
theorem Named.mem_builtin_iff (h : Named es) {k : Nat} {name : Bytes}
    (hk : (names es)[k]? = some name) : name ∈ builtin ↔ k < 6 := by
  constructor
  · intro hmem
    by_contra hge
    refine h.other name ?_ hmem
    have hdrop : ((names es).drop 6)[k - 6]? = some name := by
      rw [List.getElem?_drop, show 6 + (k - 6) = k by omega, hk]
    exact List.mem_of_getElem? hdrop
  · intro hlt
    have htake : ((names es).take 6)[k]? = some name := by rw [List.getElem?_take_of_lt hlt, hk]
    rw [← h.builtin_eq]
    exact List.mem_of_getElem? htake

/-- A new entry has a new name and no link. -/
theorem Named.append (h : Named es) {name : Bytes} (hname : name ∉ builtin) :
    Named (es ++ [⟨name, 0, 0⟩]) := by
  have hnames : names (es ++ [⟨name, 0, 0⟩]) = names es ++ [name] := List.map_append
  refine ⟨?_, ?_, ?_⟩
  · rw [hnames, List.take_append_of_le_length h.six_le, h.builtin_eq]
  · rw [hnames, List.drop_append_of_le_length h.six_le]
    intro n hn
    rcases List.mem_append.mp hn with hn | hn
    · exact h.other n hn
    · rw [List.mem_singleton.mp hn]
      exact hname
  · intro k e he
    rw [List.length_append, List.length_singleton]
    rw [List.getElem?_append] at he
    split at he
    · rcases h.link k e he with hno | ⟨hfrom, hpos, hle⟩
      · exact .inl hno
      · exact .inr ⟨hfrom, hpos, Nat.le_succ_of_le hle⟩
    · rw [List.mem_singleton.mp (List.mem_of_getElem? he)]
      exact .inl ⟨rfl, rfl⟩

/-- A link changes no name. -/
theorem names_modify (es : List HlGroup) (k f t : Nat) :
    names (es.modify k ({ · with fromId := f, toId := t })) = names es := by
  refine List.ext_getElem? fun i => ?_
  rw [names, names, List.getElem?_map, List.getElem?_map, List.getElem?_modify]
  cases es[i]? with
  | none => rfl
  | some e =>
      simp only [Option.map_eq_map, Option.map_some]
      split <;> rfl

/-- A link from an entry to an entry. -/
theorem Named.modify (h : Named es) {f t : Nat} (hf : 0 < f) (ht : 0 < t) (hle : t ≤ es.length) :
    Named (es.modify (f - 1) ({ · with fromId := f, toId := t })) := by
  have hnames := names_modify es (f - 1) f t
  refine ⟨hnames ▸ h.builtin_eq, hnames ▸ h.other, ?_⟩
  intro k e he
  rw [List.length_modify]
  rw [List.getElem?_modify] at he
  obtain ⟨e', he', rfl⟩ := Option.map_eq_some_iff.mp he
  split
  · next hk => exact .inr ⟨by show f = k + 1; omega, ht, hle⟩
  · exact h.link k e' he'

end

/-! ## The table -/

structure TableOk (tab : GroupTable) : Prop where
  sized : tab.Sized
  named : Named tab.items

section
variable {tab tab' : GroupTable} {name : Bytes} {id : Nat}

theorem synName2id_le (tab : GroupTable) (name : Bytes) :
    synName2id tab name ≤ tab.items.length := Nat.sub_le ..

/-- Without an id no entry has the name. -/
theorem notMem_of_synName2id_eq_zero (h : synName2id tab name = 0) :
    upper (name.take 199) ∉ names tab.items := by
  have hle : tab.items.reverse.length ≤
      tab.items.reverse.findIdx fun g => g.nameU = upper (name.take 199) := by
    rw [List.length_reverse]
    exact Nat.sub_eq_zero_iff_le.mp h
  have hall := List.findIdx_eq_length.mp (Nat.le_antisymm List.findIdx_le_length hle)
  intro hmem
  obtain ⟨e, he, heq⟩ := List.mem_map.mp hmem
  exact of_decide_eq_false (hall e (List.mem_reverse.mpr he)) heq

/-- What `syn_check_group` does with a table that has its sizes: the name is found, or it is not
valid, or it becomes the last entry. -/
inductive Checked (tab : GroupTable) (name : Bytes) : Nat → GroupTable → Prop where
  | found (hid : synName2id tab name ≠ 0) : Checked tab name (synName2id tab name) tab
  | invalid (hid : synName2id tab name = 0) (hname : validName name = false) :
      Checked tab name 0 tab
  | added {tab' : GroupTable} (hid : synName2id tab name = 0) (hname : validName name = true)
      (hsized : tab'.Sized) (hitems : tab'.items = tab.items ++ [⟨upper name, 0, 0⟩]) :
      Checked tab name (tab.len + 1) tab'

theorem exists_checked (h : tab.Sized) (name : Bytes) :
    ∃ id tab', synCheckGroup tab name true = some (id, tab') ∧ Checked tab name id tab' := by
  by_cases hid : synName2id tab name = 0
  · rw [synCheckGroup, if_pos ⟨hid, rfl⟩]
    unfold synAddGroup
    split
    · next hname =>
      -- The sizes that are set are those the table has.
      have hsized : (if tab.data = none then { tab with itemsize := 16, growsize := 10 }
          else tab).Sized := by
        split
        · exact ⟨rfl, h.length_data, h.len_le⟩
        · exact h
      have hitems : (if tab.data = none then { tab with itemsize := 16, growsize := 10 }
          else tab).items = tab.items := by
        split <;> rfl
      have hlen : (if tab.data = none then { tab with itemsize := 16, growsize := 10 }
          else tab).len = tab.len := by
        split <;> rfl
      obtain ⟨tab', hput, hsized', hitems', hlen'⟩ :=
        GArray.put_grow_eq hsized Nat.one_pos ⟨upper name, 0, 0⟩
      refine ⟨tab'.len, tab', Option.map_eq_some_iff.mpr ⟨tab', hput, rfl⟩, ?_⟩
      rw [hlen', hlen]
      exact .added hid hname hsized' (by rw [hitems', hitems])
    · next hname => exact ⟨0, tab, rfl, .invalid hid (by simpa using hname)⟩
  · rw [synCheckGroup, if_neg fun h => hid h.1]
    exact ⟨_, tab, rfl, .found hid⟩

theorem checked_of_synCheckGroup (h : tab.Sized)
    (hcheck : synCheckGroup tab name true = some (id, tab')) : Checked tab name id tab' := by
  obtain ⟨id₁, tab₁, hcheck₁, hchecked⟩ := exists_checked h name
  rw [hcheck₁] at hcheck
  cases hcheck
  exact hchecked

/-- A name that is not found is none of the built-in ones, which are compared whole. -/
theorem TableOk.upper_notMem_builtin (h : TableOk tab) (hid : synName2id tab name = 0) :
    upper name ∉ builtin := by
  intro hmem
  have hlen : (upper name).length ≤ 199 :=
    (show ∀ n ∈ builtin, n.length ≤ 199 by decide +kernel) _ hmem
  rw [upper, List.length_map] at hlen
  have hnot := notMem_of_synName2id_eq_zero hid
  rw [List.take_of_length_le hlen] at hnot
  rw [← h.named.builtin_eq] at hmem
  exact hnot (List.mem_of_mem_take hmem)

theorem TableOk.synCheckGroup (h : TableOk tab)
    (hcheck : synCheckGroup tab name true = some (id, tab')) : TableOk tab' := by
  cases checked_of_synCheckGroup h.sized hcheck with
  | found _ => exact h
  | invalid _ _ => exact h
  | added hid _ hsized hitems =>
      exact ⟨hsized, hitems ▸ h.named.append (h.upper_notMem_builtin hid)⟩

theorem Checked.sized (h : Checked tab name id tab') (hsized : tab.Sized) : tab'.Sized := by
  cases h with
  | found _ => exact hsized
  | invalid _ _ => exact hsized
  | added _ _ hsized' _ => exact hsized'

theorem sized_linkGroup (h : tab.Sized) (f t : Nat) : (linkGroup tab f t).Sized := by
  refine ⟨h.itemsize, ?_, h.len_le⟩
  rw [← show (tab.data.getD []).length = (linkGroup tab f t).maxlen from h.length_data]
  unfold linkGroup
  cases tab.data with
  | none => rfl
  | some d => exact List.length_modify ..

theorem items_linkGroup (tab : GroupTable) (f t : Nat) : (linkGroup tab f t).items =
    tab.items.modify (f - 1) ({ · with fromId := f, toId := t }) := by
  unfold linkGroup GArray.items
  cases tab.data with
  | none => simp
  | some d => exact List.take_modify ..

theorem TableOk.linkGroup (h : TableOk tab) {f t : Nat} (hf : 0 < f) (ht : 0 < t)
    (hle : t ≤ tab.items.length) : TableOk (linkGroup tab f t) :=
  ⟨sized_linkGroup h.sized f t, items_linkGroup tab f t ▸ h.named.modify hf ht hle⟩

theorem TableOk.step (h : TableOk tab) (hstep : GroupStep tab tab') : TableOk tab' := by
  cases hstep with
  | check hcheck => exact h.synCheckGroup hcheck
  | link target hcheck hid ht =>
      exact (h.synCheckGroup hcheck).linkGroup hid ht (synName2id_le ..)

theorem TableOk.steps (h : TableOk tab) (hsteps : GroupSteps tab tab') : TableOk tab' := by
  induction hsteps with
  | refl => exact h
  | tail _ hstep ih => exact ih.step hstep

/-- The entries of `syntax_init`, each linked to itself. -/
def initialGroups : List HlGroup := (builtin.zipIdx 1).map fun e => ⟨e.1, e.2, e.2⟩

theorem named_initialGroups : Named initialGroups where
  builtin_eq := by decide +kernel
  other := by decide +kernel
  link := by
    intro k e he
    have hk : k < initialGroups.length := (List.getElem?_eq_some_iff.mp he).1
    rw [initialGroups, List.getElem?_map, List.getElem?_zipIdx, Option.map_map] at he
    obtain ⟨name, -, rfl⟩ := Option.map_eq_some_iff.mp he
    exact .inr ⟨Nat.add_comm .., by show 0 < 1 + k; omega, by show 1 + k ≤ _; omega⟩

theorem initGroups_fresh : initGroups .fresh =
    some ⟨6, 10, 16, 10, some (initialGroups ++ List.replicate 4 CItem.zero)⟩ := by
  decide +kernel

theorem tableOk_initGroups (h : initGroups .fresh = some tab) : TableOk tab := by
  rw [initGroups_fresh] at h
  cases h
  exact ⟨⟨rfl, rfl, by decide⟩, named_initialGroups⟩

/-- The table after a load. -/
theorem tableOk_loadConf {files : Files} {depth : Nat} {conf : Bytes} {m : GArray SynPat}
    {l : Loader} (h : loadConf files depth conf .fresh m = some l) : TableOk l.groups := by
  obtain ⟨l₀, hinit, hload⟩ := Option.bind_eq_some_iff.mp h
  obtain ⟨groups, hgroups, rfl⟩ := Option.map_eq_some_iff.mp hinit
  refine TableOk.steps ?_ (Loader.steps_loadSyntaxConf hload)
  rw [Loader.synCmdCase_groups]
  exact tableOk_initGroups hgroups

end

end HapAndroid.Highlight
