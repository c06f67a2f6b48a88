import HapAndroid.Lib.Interning
import HapAndroid.Lib.Run
import HapAndroid.Highlight.Independence
import HapAndroid.Highlight.Links

/-!
# The ids of the groups

`syn_check_group` on valid names that are compared whole, those of less than 200 bytes.  Then
the table is a list of upper case names without duplicates, and a call is a request to an
interning ledger of them (`Records`).  What holds of the numbers of a ledger holds of the ids
(`ids_stable`): they stay, the first six are those of the built-in groups, and two calls that
return an id return the same one exactly when their names agree up to case.

A call that does not add a name returns 0 as long as the name has no id, so the returned
values alone do not say whether two names agree (`lookup_returns_zero`).
-/

namespace HapAndroid.Highlight

open Interning

/-! ## Names up to case -/

/-- The names agree up to the case of their letters. -/
def SameName (a b : Bytes) : Prop := a.map toLower = b.map toLower

instance (a b : Bytes) : Decidable (SameName a b) := inferInstanceAs (Decidable (_ = _))

theorem toUpper_toLower (c : UInt8) : toUpper (toLower c) = toUpper c :=
  forall_byte (P := fun c => toUpper (toLower c) = toUpper c) (by decide +kernel) c

theorem toLower_toUpper (c : UInt8) : toLower (toUpper c) = toLower c :=
  forall_byte (P := fun c => toLower (toUpper c) = toLower c) (by decide +kernel) c

theorem sameName_iff {a b : Bytes} : SameName a b ↔ upper a = upper b := by
  have hupper : ∀ w : Bytes, upper w = (w.map toLower).map toUpper := by
    intro w
    simp [upper, toUpper_toLower]
  have hlower : ∀ w : Bytes, w.map toLower = (upper w).map toLower := by
    intro w
    simp [upper, toLower_toUpper]
  constructor
  · intro h
    rw [hupper a, hupper b, show a.map toLower = b.map toLower from h]
  · intro h
    rw [SameName, hlower a, hlower b, h]

/-! ## Calls -/

/-- A call of `syn_check_group` with a valid name of less than 200 bytes. -/
structure GroupCall where
  name : Bytes
  autoAdd : Bool
  valid : validName name = true
  short : name.length < 200
deriving DecidableEq

/-- The table and the calls so far, each with what it returned. -/
structure GroupSession where
  table : GroupTable
  answers : List (GroupCall × Nat)
deriving DecidableEq

def GroupSession.check (s : GroupSession) (c : GroupCall) : Option GroupSession :=
  (synCheckGroup s.table c.name c.autoAdd).map fun r => ⟨r.2, s.answers ++ [(c, r.1)]⟩

/-- `syntax_init` and then calls of `syn_check_group`. -/
def groupSession (g : Globals) (m : GArray SynPat) (cs : List GroupCall) : Option GroupSession :=
  (syntaxInit g.highlightGa m).bind fun l => Run.run GroupSession.check ⟨l.groups, []⟩ cs

/-- The id names the group: its entry has the name, and of the names that are compared whole
those lead to it that agree with the name up to case. -/
structure Denotes (tab : GroupTable) (id : Nat) (name : Bytes) : Prop where
  pos : 0 < id
  entry : ∃ e, tab.items[id - 1]? = some e ∧ e.nameU = upper name
  lookup : ∀ n : Bytes, n.length < 200 → (synName2id tab n = id ↔ SameName n name)

/-! ## The table as a list of keys -/

/-- The request that a call makes. -/
def GroupCall.request (c : GroupCall) : Request Bytes := ⟨upper c.name, c.autoAdd⟩

/-- The table has these names, no two of them the same. -/
structure Holds (tab : GroupTable) (keys : List Bytes) : Prop where
  sized : tab.Sized
  names_eq : names tab.items = keys
  nodup : keys.Nodup

section
variable {tab : GroupTable} {keys : List Bytes} {name : Bytes}

/-- The search from the end for the first 199 bytes of a name. -/
theorem Holds.synName2id_eq (h : Holds tab keys) (hlen : name.length < 200) :
    synName2id tab name = number keys (upper name) := by
  rw [← length_sub_findIdx_reverse h.nodup, ← h.names_eq, names, ← List.map_reverse,
    List.findIdx_map, List.length_map, synName2id, List.take_of_length_le (Nat.le_of_lt_succ hlen)]
  rfl

theorem Holds.denotes (h : Holds tab keys) (h0 : number keys (upper name) ≠ 0) :
    Denotes tab (number keys (upper name)) name := by
  refine ⟨Nat.pos_of_ne_zero h0, ?_, fun n hn => ?_⟩
  · have hget := getElem?_number h0
    rw [← h.names_eq, names, List.getElem?_map] at hget
    obtain ⟨e, he, heq⟩ := Option.map_eq_some_iff.mp hget
    exact ⟨e, h.names_eq ▸ he, heq⟩
  · rw [h.synName2id_eq hn, sameName_iff, eq_comm, number_inj h0, eq_comm]

/-- A call answers the request and does to the names what it asks for. -/
theorem Holds.check (h : Holds tab keys) (c : GroupCall) :
    ∃ tab', synCheckGroup tab c.name c.autoAdd =
        some (number (intern keys c.request) c.request.key, tab') ∧
      Holds tab' (intern keys c.request) := by
  have hid := h.synName2id_eq c.short
  cases hadd : c.autoAdd with
  | false =>
      have hkeys : intern keys c.request = keys :=
        if_neg fun hr => Bool.false_ne_true (hadd.symm.trans hr.1)
      rw [hkeys]
      refine ⟨tab, ?_, h⟩
      rw [synCheckGroup, if_neg fun hr => Bool.false_ne_true hr.2, hid]
      rfl
  | true =>
      obtain ⟨id, tab', hcheck, hchecked⟩ := exists_checked h.sized c.name
      refine ⟨tab', ?_⟩
      rw [hcheck]
      cases hchecked with
      | found hne =>
          have hmem : c.request.key ∈ keys := number_ne_zero_iff.mp (hid ▸ hne)
          have hkeys : intern keys c.request = keys := if_neg fun hr => hr.2 hmem
          rw [hkeys, hid]
          exact ⟨rfl, h⟩
      | invalid _ hname => exact absurd c.valid (by simp [hname])
      | added hzero _ hsized hitems =>
          have hnot : c.request.key ∉ keys := number_eq_zero_iff.mp (hid ▸ hzero)
          have hkeys : intern keys c.request = keys ++ [c.request.key] := if_pos ⟨hadd, hnot⟩
          have hnodup := nodup_intern h.nodup c.request
          have hlen : tab.len = keys.length := by
            rw [← h.names_eq, names, List.length_map, GArray.length_items h.sized]
          rw [hkeys] at hnodup ⊢
          refine ⟨?_, hsized, ?_, hnodup⟩
          · rw [number_getElem hnodup (List.getElem?_concat_length ..), hlen]
          · rw [hitems, names, List.map_append, ← h.names_eq]
            rfl

end

/-! ## Sessions -/

/-- The session has made the requests of the ledger and got its answers. -/
structure Records (s : GroupSession) (l : Ledger Bytes) : Prop where
  table : Holds s.table l.keys
  answers : l.answers = s.answers.map fun p => (p.1.request, p.2)

section
variable {s s' : GroupSession} {l : Ledger Bytes} {c : GroupCall} {cs : List GroupCall}

theorem Records.exists_check (h : Records s l) (c : GroupCall) :
    ∃ s', s.check c = some s' ∧ Records s' (l.ask c.request) := by
  obtain ⟨tab, hcheck, htab⟩ := h.table.check c
  refine ⟨⟨tab, s.answers ++ [(c, number (intern l.keys c.request) c.request.key)]⟩, ?_, htab, ?_⟩
  · rw [GroupSession.check, hcheck]
    rfl
  · rw [List.map_append, ← h.answers]
    rfl

theorem Records.check (h : Records s l) (hs : s.check c = some s') :
    Records s' (l.ask c.request) := by
  obtain ⟨t, ht, hrec⟩ := h.exists_check c
  rw [ht] at hs
  cases hs
  exact hrec

/-- A run of calls is a run of requests. -/
theorem Records.run (h : Records s l) (hrun : Run.run GroupSession.check s cs = some s') :
    Records s' ((cs.map GroupCall.request).foldl Ledger.ask l) := by
  have hstep : ∀ s c t l, True → Records s l → GroupSession.check s c = some t →
      Records t (l.ask c.request) := fun _ _ _ _ _ h hs => h.check hs
  rw [List.foldl_map]
  exact Run.run_simulates hstep cs (fun _ _ => trivial) h hrun

theorem Records.exists_run (h : Records s l) (cs : List GroupCall) :
    ∃ s', Run.run GroupSession.check s cs = some s' := by
  have hInv : ∀ c ∈ cs, ∀ s, (∃ l, Records s l) →
      ∃ t, GroupSession.check s c = some t ∧ ∃ l, Records t l := by
    intro c _ s hs
    obtain ⟨l, hl⟩ := hs
    obtain ⟨t, ht, hrec⟩ := hl.exists_check c
    exact ⟨t, ht, l.ask c.request, hrec⟩
  obtain ⟨s', hrun, -⟩ := Run.exists_run hInv ⟨l, h⟩
  exact ⟨s', hrun⟩

/-! ## What the ids promise -/

/-- The ids of a session. -/
structure StableIds (s : GroupSession) : Prop where
  /-- The ids from 1 to 6 are those of the built-in groups. -/
  tags : ∀ k name, tagGroups[k]? = some name → Denotes s.table (k + 1) name
  /-- A returned id is that of its name, whatever is called afterwards. -/
  stays : ∀ p ∈ s.answers, p.2 ≠ 0 → ∀ cs s', Run.run GroupSession.check s cs = some s' →
    Denotes s'.table p.2 p.1.name
  same_iff : ∀ p ∈ s.answers, ∀ q ∈ s.answers, p.2 ≠ 0 → q.2 ≠ 0 →
    (p.2 = q.2 ↔ SameName p.1.name q.1.name)
  /-- No id is returned for a name that is not added and was not before. -/
  zero_iff : ∀ (c : GroupCall) id tab, synCheckGroup s.table c.name c.autoAdd = some (id, tab) →
    (id = 0 ↔ c.autoAdd = false ∧ (∀ b ∈ tagGroups, ¬ SameName c.name b) ∧
      ∀ p ∈ s.answers, p.1.autoAdd = true → ¬ SameName c.name p.1.name)

theorem Records.mem_answers (h : Records s l) {p : GroupCall × Nat} (hp : p ∈ s.answers) :
    (p.1.request, p.2) ∈ l.answers := by
  rw [h.answers]
  exact List.mem_map.mpr ⟨p, hp, rfl⟩

/-- The names with an id are the built-in ones and those that were added. -/
theorem Records.mem_keys_iff (h : Records s l) (hl : l.Sound builtin) (name : Bytes) :
    upper name ∈ l.keys ↔ (∃ b ∈ tagGroups, SameName name b) ∨
      ∃ p ∈ s.answers, p.1.autoAdd = true ∧ SameName name p.1.name := by
  rw [hl.mem_keys]
  refine or_congr ?_ ?_
  · rw [builtin, List.mem_map]
    exact exists_congr fun b => and_congr_right fun _ => by rw [sameName_iff, eq_comm]
  · rw [h.answers]
    constructor
    · rintro ⟨q, hq, hadd, hkey⟩
      obtain ⟨p, hp, rfl⟩ := List.mem_map.mp hq
      exact ⟨p, hp, hadd, sameName_iff.mpr hkey.symm⟩
    · rintro ⟨p, hp, hadd, hsame⟩
      exact ⟨_, List.mem_map.mpr ⟨p, hp, rfl⟩, hadd, (sameName_iff.mp hsame).symm⟩

theorem Records.stableIds (h : Records s l) (hl : l.Sound builtin) : StableIds s where
  tags := by
    intro k name hk
    have hbuiltin : builtin[k]? = some (upper name) := by
      rw [builtin, List.getElem?_map, hk]
      rfl
    obtain ⟨hlt, heq⟩ := List.getElem?_eq_some_iff.mp hbuiltin
    have hkey := List.prefix_iff_getElem?.mp hl.began k hlt
    rw [heq] at hkey
    have hnumber := number_getElem hl.nodup hkey
    rw [← hnumber]
    exact h.table.denotes (by omega)
  stays := by
    intro p hp h0 cs s' hrun
    have hext := Ledger.extends_asks l (cs.map GroupCall.request)
    have hnumber := hl.answered_of_extends hext (h.mem_answers hp) h0
    rw [hnumber]
    exact (h.run hrun).table.denotes (hnumber ▸ h0)
  same_iff := by
    intro p hp q hq hp0 hq0
    rw [sameName_iff]
    exact hl.answer_eq_iff (h.mem_answers hp) (h.mem_answers hq) hp0 hq0
  zero_iff := by
    intro c id tab hcheck
    obtain ⟨tab', hcheck', -⟩ := h.table.check c
    rw [hcheck'] at hcheck
    cases hcheck
    rw [number_eq_zero_iff, mem_intern, show c.request.key ∈ l.keys ↔ _ from h.mem_keys_iff hl c.name]
    have hadd : ¬ (c.request.add = true ∧ c.request.key = c.request.key) ↔ c.autoAdd = false := by
      simp [GroupCall.request]
    rw [not_or, hadd, not_or, and_comm]
    simp only [not_exists, not_and]

/-- Every call is answered. -/
theorem answers_run (hrun : Run.run GroupSession.check s cs = some s') :
    s'.answers.map Prod.fst = s.answers.map Prod.fst ++ cs := by
  induction cs generalizing s with
  | nil =>
      cases hrun
      exact (List.append_nil _).symm
  | cons c cs ih =>
      obtain ⟨t, ht, hrest⟩ := Run.run_cons_eq_some.mp hrun
      obtain ⟨r, -, rfl⟩ := Option.map_eq_some_iff.mp ht
      rw [ih hrest]
      simp

end

/-! ## From `syntax_init` on -/

/-- `syntax_init` makes a table of the built-in names. -/
theorem holds_initGroups {tab : GroupTable} (h : initGroups .fresh = some tab) :
    Holds tab builtin := by
  have hok := tableOk_initGroups h
  rw [initGroups_fresh] at h
  cases h
  exact ⟨hok.sized, by decide +kernel, by decide +kernel⟩

/-- After any earlier calls of the highlighter, `syntax_init` and any calls of
`syn_check_group` with valid names of less than 200 bytes all return, and their ids are
stable. -/
theorem ids_stable {calls : List Call} {g : Globals} (hcalls : runCalls calls .fresh = some g)
    (m : GArray SynPat) (cs : List GroupCall) :
    ∃ s, groupSession g m cs = some s ∧ s.answers.map Prod.fst = cs ∧ StableIds s := by
  have hinit := initGroups_cleared (cleared_runCalls cleared_fresh hcalls).groups
  rw [initGroups_fresh] at hinit
  have hrec : Records ⟨_, []⟩ ⟨builtin, []⟩ := ⟨holds_initGroups initGroups_fresh, rfl⟩
  obtain ⟨s, hrun⟩ := hrec.exists_run cs
  have hsound := (Ledger.sound_start hrec.table.nodup).asks (cs.map GroupCall.request)
  refine ⟨s, ?_, answers_run hrun, (hrec.run hrun).stableIds hsound⟩
  rw [groupSession, syntaxInit, hinit, Option.map_some, Option.bind_some, Loader.synCmdCase_groups]
  exact hrun

theorem validName_foo : validName (bytes "Foo") = true := by decide +kernel

theorem length_foo : (bytes "Foo").length < 200 := by decide +kernel

def fooCall (autoAdd : Bool) : GroupCall := ⟨bytes "Foo", autoAdd, validName_foo, length_foo⟩

theorem validName_bar : validName (bytes "Bar") = true := by decide +kernel

theorem length_bar : (bytes "Bar").length < 200 := by decide +kernel

def barCall : GroupCall := ⟨bytes "Bar", false, validName_bar, length_bar⟩

/-- After a call that has reported a keyword. -/
theorem ids_stable_after_keyword : ∃ g s, runCalls [linkedCall] .fresh = some g ∧
    groupSession g .fresh [fooCall true, barCall] = some s ∧
    s.answers.map Prod.fst = [fooCall true, barCall] ∧ StableIds s := by
  have hcalls : runCalls [linkedCall] .fresh =
      some ⟨⟨0, 0, 16, 10, none⟩, ⟨0, 0, 16, 3, none⟩⟩ := by decide +kernel
  obtain ⟨s, hs⟩ := ids_stable hcalls .fresh [fooCall true, barCall]
  exact ⟨_, s, hcalls, hs⟩

/-- Two names that are looked up, one of which is added afterwards. -/
def lookups : GroupSession :=
  (groupSession .fresh .fresh [fooCall false, barCall, fooCall true]).getD ⟨.fresh, []⟩

/-- A name that is only looked up has no id: another such name gets the same answer, and the
name itself another answer when it is added. -/
theorem lookup_returns_zero :
    groupSession .fresh .fresh [fooCall false, barCall, fooCall true] = some lookups ∧
    lookups.answers = [(fooCall false, 0), (barCall, 0), (fooCall true, 7)] ∧
    ¬ ∀ p ∈ lookups.answers, ∀ q ∈ lookups.answers,
      (p.2 = q.2 ↔ SameName p.1.name q.1.name) := by
  have hanswers : lookups.answers = [(fooCall false, 0), (barCall, 0), (fooCall true, 7)] := by
    decide +kernel
  refine ⟨by decide +kernel, hanswers, fun h => ?_⟩
  rw [hanswers] at h
  have hsame := h (fooCall false, 0) (by simp) (fooCall true, 7) (by simp)
  exact absurd (hsame.mpr rfl) (by decide)

end HapAndroid.Highlight
