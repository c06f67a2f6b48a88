import HapAndroid.Mode.Writes

/-!
# Killed operations

The system can kill the application at any time.  What an operation has written by then stays, the
screen is lost, and the next thing that happens is a start, which can be killed as well.  `Process`
is the application with the flag that says whether it runs, and an event of its life is an
operation that comes to its end or one that is killed after some of its writes.

The slots always hold a list (`killed_refines_list`).  Most operations commit one slot, so a kill
leaves the list as it was or as it should be.  Deleting moves the entries behind the deleted one
down by one commit each, and a kill leaves the entry that was moved last twice in the list.
-/

namespace HapAndroid

/-- The list when `m` entries behind entry `k` have been moved down. -/
def movedDown (l : List Text) (k m : Nat) : List Text :=
  l.take k ++ (l.drop (k + 1)).take m ++ l.drop (k + m)

theorem mem_of_mem_movedDown {l : List Text} {k m : Nat} {n : Text} (h : n ∈ movedDown l k m) :
    n ∈ l := by
  rcases List.mem_append.mp h with h | h
  · rcases List.mem_append.mp h with h | h
    · exact List.mem_of_mem_take h
    · exact List.mem_of_mem_drop (List.mem_of_mem_take h)
  · exact List.mem_of_mem_drop h

theorem Lists.movedDown {sp : Prefs} {l : List Text} (h : Lists sp l) {k m : Nat}
    (hk : k < l.length) (hm : m ≤ l.length - k) :
    Lists (shiftDown sp k m) (movedDown l k m) := by
  intro j
  rw [slot_shiftDown, HapAndroid.movedDown, List.getD_eq_getElem?_getD, List.append_assoc,
    List.getElem?_append, List.length_take, Nat.min_eq_left (by omega)]
  by_cases hjk : j < k
  · rw [if_neg (by omega), if_pos hjk, List.getElem?_take_of_lt hjk, h j,
      List.getD_eq_getElem?_getD]
  · rw [if_neg hjk, List.getElem?_append, List.length_take, List.length_drop]
    by_cases hjm : j < k + m
    · rw [if_pos (by omega), h (j + 1), List.getD_eq_getElem?_getD]
      by_cases hend : j + 1 < l.length
      · rw [if_pos (by omega), List.getElem?_take_of_lt (by omega), List.getElem?_drop]
        congr 2
        omega
      · rw [if_neg (by omega), List.getElem?_drop, List.getElem?_eq_none (by omega),
          List.getElem?_eq_none (by omega)]
    · rw [if_neg (by omega), if_neg (by omega), h j, List.getD_eq_getElem?_getD, List.getElem?_drop]
      by_cases hend : m = l.length - k
      · rw [List.getElem?_eq_none (by omega), List.getElem?_eq_none (by omega)]
      · congr 2
        omega

/-! ## The list after a kill -/

/-- What an operation that is killed can leave of a list. -/
inductive Op.Leaves (l : List Text) : Op → List Text → Prop where
  | before (o : Op) : Leaves l o l
  | after (o : Op) : Leaves l o (o.apply l)
  | between (k m : Nat) : Leaves l (.delete k) (movedDown l k m)

namespace Op

/-- The entry that an operation takes away. -/
def target : Op → Option Nat
  | .rename k _ => some k
  | .delete k => some k
  | _ => none

theorem mem_of_mem_apply {l : List Text} {o : Op} {n : Text} (h : n ∈ o.apply l) :
    n ∈ l ∨ o.newName = some n ∨ l = [] ∧ o = .restart ∧ n = defaultMode := by
  cases o with
  | add name s1 s2 s3 =>
      rcases List.mem_append.mp h with h | h
      · exact .inl h
      · exact .inr (.inl (congrArg some (List.mem_singleton.mp h).symm))
  | importMode dir name connection get post =>
      rcases List.mem_append.mp h with h | h
      · exact .inl h
      · exact .inr (.inl (congrArg some (List.mem_singleton.mp h).symm))
  | rename k name =>
      rcases List.mem_or_eq_of_mem_set h with h | rfl
      · exact .inl h
      · exact .inr (.inl rfl)
  | delete k => exact .inl ((List.eraseIdx_sublist l k).mem h)
  | restart =>
      rw [apply] at h
      split at h
      · next hl => exact .inr (.inr ⟨hl, rfl, List.mem_singleton.mp h⟩)
      · exact .inl h

/-- Every name that a kill leaves was there, or is the new one, or the default. -/
theorem Leaves.mem {l l' : List Text} {o : Op} (h : o.Leaves l l') {n : Text} (hn : n ∈ l') :
    n ∈ l ∨ o.newName = some n ∨ l = [] ∧ o = .restart ∧ n = defaultMode := by
  cases h with
  | before => exact .inl hn
  | after => exact mem_of_mem_apply hn
  | between k m => exact .inl (mem_of_mem_movedDown hn)

end Op

/-- What a key that is no slot does to the list. -/
theorem Lists.putString {sp : Prefs} {l : List Text} (h : Lists sp l) {key : Text}
    (hkey : ∀ k, key ≠ modeKey k) (s : Text) : Lists (sp.putString key s) l := by
  intro k
  rw [slot_putString, if_neg (Ne.symm (hkey k)), h k]

theorem sp_cut (d : Device) (ws : List Write) (n : Nat) (torn : Option Nat) :
    ∃ k, (d.perform (Durable.cut Write.tear ws n torn)).sp =
      Durable.perform Write.putEntry d.sp ((ws.filterMap Write.entry).take k) := by
  obtain ⟨k, hk⟩ : ∃ k, (Durable.cut Write.tear ws n torn).filterMap Write.entry =
      (ws.filterMap Write.entry).take k :=
    Durable.filterMap_cut (fun _ _ _ h => Write.entry_of_tear h) ws n torn
  exact ⟨k, by rw [Device.sp_perform, hk]⟩

/-- A new slot behind the list, written for the first or the second time. -/
theorem Lists.create {sp : Prefs} {l : List Text} {name : Text}
    (h : Lists sp l ∨ Lists sp (l ++ [name])) : Lists (putSlot sp l.length name) (l ++ [name]) := by
  rcases h with h | h
  · exact h.append name
  · simpa using h.set (j := l.length) (by simp) name

theorem Lists.rename {sp : Prefs} {l : List Text} {k : Nat} {name : Text} (hk : k < l.length)
    (h : Lists sp l ∨ Lists sp (l.set k name)) : Lists (putSlot sp k name) (l.set k name) := by
  rcases h with h | h
  · exact h.set hk name
  · simpa using h.set (j := k) (by simpa using hk) name

/-- Commits that each leave one of two lists in the slots. -/
theorem Lists.either {sp : Prefs} {l l' : List Text} {cs : List (Text × Text)} (h : Lists sp l)
    (hcs : ∀ c ∈ cs, ∀ sp, Lists sp l ∨ Lists sp l' →
      Lists (Write.putEntry sp c) l ∨ Lists (Write.putEntry sp c) l') :
    Lists (Durable.perform Write.putEntry sp cs) l ∨
      Lists (Durable.perform Write.putEntry sp cs) l' :=
  Durable.perform_induction (I := fun sp => Lists sp l ∨ Lists sp l') hcs (.inl h)

namespace MainActivity

/-- Some of the commits of the delete dialog. -/
theorem lists_deleteCommits {sp : Prefs} {l : List Text} (h : Lists sp l) {k : Nat}
    (hk : k < l.length) (hname : GoodName l[k]) (q : Nat) :
    ∃ l', Op.Leaves l (.delete k) l' ∧
      Lists (Durable.perform Write.putEntry sp ((deleteCommits sp l.length k).take q)) l' := by
  cases q with
  | zero => exact ⟨l, .before _, h⟩
  | succ q =>
      rw [deleteCommits]
      split
      · -- The name is no slot, so emptying the key of that name leaves the list.
        have hslot : ∀ j, slot sp k ≠ modeKey j := by
          rw [h.slot_eq hk]
          exact hname.2.2
        refine ⟨movedDown l k (min q (l.length - k)), .between k _, ?_⟩
        rw [List.take_succ_cons, Durable.perform_cons, Write.putEntry, perform_take_shiftCommits]
        exact (h.putString hslot []).movedDown hk (Nat.min_le_right ..)
      · next hlast =>
        refine ⟨l.eraseIdx k, .after _, ?_⟩
        rw [List.take_of_length_le (by simp)]
        exact h.eraseIdx_last (not_not.mp hlast)

variable {env : Env}

theorem opWrite_of_entry {a : MainActivity} {o : Op} {c : Text × Text}
    (h : c ∈ (writes env a o).filterMap Write.entry) : OpWrite env a o (.commit c.1 c.2) := by
  obtain ⟨w, hw, hc⟩ := List.mem_filterMap.mp h
  cases w with
  | commit key value =>
      cases hc
      exact opWrite_of_mem hw
  | _ => cases hc

theorem entries_deleteWrites (fs : Files) (fileName : Text) :
    (FileTool.deleteWrites fs fileName).filterMap Write.entry = [] := by
  refine List.filterMap_eq_nil_iff.mpr fun w hw => ?_
  obtain ⟨p, -, rfl⟩ := removes_of_mem hw
  rfl

theorem entries_delete {a : MainActivity} {k : Nat} {title : Text} (hk : a.mData[k]? = some title) :
    (writes env a (.delete k)).filterMap Write.entry = deleteCommits a.dev.sp a.i k := by
  rw [writes, hk]
  simp only [List.filterMap_append, filterMap_commits, entries_deleteWrites, List.append_nil]

/-- Whether an operation is the start. -/
def isRestart : Op → Bool
  | .restart => true
  | _ => false

/-- A killed operation leaves a list in the slots. -/
theorem lists_killed {a : MainActivity} {l : List Text} {o : Op} (h : Lists a.dev.sp l)
    (hnames : ∀ n ∈ l, GoodName n) (hshows : isRestart o = false → Shows a l) (n : Nat)
    (torn : Option Nat) :
    ∃ l', o.Leaves l l' ∧
      Lists (a.dev.perform (Durable.cut Write.tear (writes env a o) n torn)).sp l' := by
  obtain ⟨q, hq⟩ := sp_cut a.dev (writes env a o) n torn
  rw [hq]
  -- All but the deletion commit one slot, besides keys that are no slots.
  have heither : (∀ c ∈ (writes env a o).filterMap Write.entry, ∀ sp,
      Lists sp l ∨ Lists sp (o.apply l) →
        Lists (Write.putEntry sp c) l ∨ Lists (Write.putEntry sp c) (o.apply l)) →
      ∃ l', o.Leaves l l' ∧ Lists (Durable.perform Write.putEntry a.dev.sp
        (((writes env a o).filterMap Write.entry).take q)) l' := by
    intro hcs
    rcases h.either fun c hc => hcs c (List.mem_of_mem_take hc) with h' | h'
    · exact ⟨l, .before o, h'⟩
    · exact ⟨_, .after o, h'⟩
  have hother : ∀ {key : Text}, (∀ k, key ≠ modeKey k) → ∀ (value : Text) (sp : Prefs)
      {l' : List Text}, Lists sp l ∨ Lists sp l' →
        Lists (sp.putString key value) l ∨ Lists (sp.putString key value) l' := by
    intro key hkey value sp l' hl
    exact hl.imp (·.putString hkey value) (·.putString hkey value)
  cases o with
  | add name s1 s2 s3 =>
      have hi := (hshows rfl).count
      refine heither ?_
      rintro ⟨key, value⟩ hc sp hl
      cases opWrite_of_entry hc with
      | create ho _ hcreate =>
          cases ho
          cases hcreate
          rw [hi]
          exact .inr (Lists.create hl)
  | importMode dir name connection get post =>
      have hi := (hshows rfl).count
      refine heither ?_
      rintro ⟨key, value⟩ hc sp hl
      cases opWrite_of_entry hc with
      | path hkey => exact hother hkey.1 value sp hl
      | create ho _ hcreate =>
          cases ho
          cases hcreate
          rw [hi]
          exact .inr (Lists.create hl)
  | rename k name =>
      refine heither ?_
      rintro ⟨key, value⟩ hc sp hl
      cases opWrite_of_entry hc with
      | create ho => cases ho
      | rename hk _ hw =>
          have hlt := (hshows rfl).length_of_title hk
          rcases hw with hw | hw
          · cases hw
          · cases hw
            exact .inr (Lists.rename hlt hl)
  | delete k =>
      cases hk : a.mData[k]? with
      | none =>
          have hnil : writes env a (.delete k) = [] := by simp only [writes, hk]
          rw [hnil, List.filterMap_nil, List.take_nil]
          exact ⟨l, .before _, h⟩
      | some title =>
          have hlt := (hshows rfl).length_of_title hk
          rw [entries_delete hk, (hshows rfl).count]
          exact lists_deleteCommits h hlt (hnames _ (List.getElem_mem hlt)) q
  | restart =>
      refine heither ?_
      rintro ⟨key, value⟩ hc sp hl
      cases opWrite_of_entry hc with
      | create ho => cases ho
      | install hkey => exact hother hkey.1 value sp hl
      | default hnone hcreate =>
          rw [h.readBack_eq fun n hn => (hnames n hn).1] at hnone
          subst hnone
          cases hcreate
          exact .inr (Lists.create hl)

theorem key_of_mem_shiftCommits {c : Text × Text} : ∀ {n a : Nat} {sp : Prefs},
    c ∈ shiftCommits sp a n → ∃ j, c.1 = modeKey j
  | 0, a, sp, h => by cases h
  | n + 1, a, sp, h => by
      rcases List.mem_cons.mp h with rfl | h
      · exact ⟨a, rfl⟩
      · exact key_of_mem_shiftCommits h

/-- No operation writes a text where a start reads a number or a flag. -/
theorem key_not_mem_typedKeys {a : MainActivity} {l : List Text} {o : Op} (h : Lists a.dev.sp l)
    (hnames : ∀ n ∈ l, GoodName n) {c : Text × Text}
    (hc : c ∈ (writes env a o).filterMap Write.entry) : c.1 ∉ typedKeys := by
  have hcreate : ∀ {fs i name key value}, Creates env.filePath fs i name (.commit key value) →
      key ∉ typedKeys := by
    intro fs i name key value hw
    cases hw
    exact modeKey_not_mem_typedKeys i
  obtain ⟨key, value⟩ := c
  cases opWrite_of_entry hc with
  | path hkey => exact hkey.2
  | create ho hfree hw => exact hcreate hw
  | rename hk hfs hw =>
      rcases hw with hw | hw
      · cases hw
      · rw [(Write.commit.inj hw).1]
        exact modeKey_not_mem_typedKeys _
  | @unlist k _ _ hk hmem =>
      rw [deleteCommits] at hmem
      split at hmem
      · rcases List.mem_cons.mp hmem with rfl | hmem
        · -- The name of the mode is used as a key.
          rw [h k]
          by_cases hlt : k < l.length
          · rw [List.getD_eq_getElem _ _ hlt]
            exact (hnames _ (List.getElem_mem hlt)).not_mem_typedKeys
          · rw [List.getD_eq_default _ _ (by omega)]
            decide
        · obtain ⟨j, hj⟩ := key_of_mem_shiftCommits hmem
          rw [hj]
          exact modeKey_not_mem_typedKeys j
      · rw [List.mem_singleton.mp hmem]
        exact modeKey_not_mem_typedKeys _
  | install hkey => exact hkey.2
  | default hnone hw => exact hcreate hw

/-- After a killed operation the next start does not throw. -/
theorem typed_killed {a : MainActivity} {l : List Text} {o : Op} (h : Lists a.dev.sp l)
    (hnames : ∀ n ∈ l, GoodName n) (htyped : Typed a.dev.sp) (n : Nat) (torn : Option Nat) :
    Typed (a.dev.perform (Durable.cut Write.tear (writes env a o) n torn)).sp := by
  obtain ⟨q, hq⟩ := sp_cut a.dev (writes env a o) n torn
  rw [hq]
  exact Durable.perform_induction (I := Typed)
    (fun c hc sp hsp =>
      hsp.putString (key_not_mem_typedKeys h hnames (List.mem_of_mem_take hc)) c.2) htyped

end MainActivity

/-! ## The life of the application -/

/-- The application, or what is left of it. -/
structure Process where
  /-- Whether it runs.  If not, only the device of `app` is there. -/
  alive : Bool
  app : MainActivity

/-- What happens to the application. -/
inductive Life where
  /-- An operation comes to its end. -/
  | op (o : Op)
  /-- The process is killed in an operation: after `n` writes, or in the next one. -/
  | kill (o : Op) (n : Nat) (torn : Option Nat)

namespace Life

/-- The operation. -/
def of : Life → Op
  | .op o => o
  | .kill o _ _ => o

/-- What an event does to the list of names. -/
def Leads (l : List Text) : Life → List Text → Prop
  | .op o, l' => l' = o.apply l
  | .kill o _ _, l' => o.Leaves l l'

end Life

namespace Process

open MainActivity (isRestart writes complete GoodName Shows)

/-- One event.  Without the application only a start is possible. -/
def step (env : Env) (s : Process) : Life → Option Process
  | .op o =>
      if s.alive || isRestart o then (complete env s.app o).map fun a => ⟨true, a⟩ else none
  | .kill o n torn =>
      if s.alive || isRestart o then
        some ⟨false, { s.app with
          dev := s.app.dev.perform (Durable.cut Write.tear (writes env s.app o) n torn) }⟩
      else none

/-- The slots hold a list of names, a start does not throw, and the screen shows the list if there
is one. -/
structure Holds (s : Process) (l : List Text) : Prop where
  slots : Lists s.app.dev.sp l
  names : ∀ n ∈ l, GoodName n
  typed : MainActivity.Typed s.app.dev.sp
  shown : s.alive = true → Shows s.app l

theorem Holds.readBack_eq {s : Process} {l : List Text} (h : s.Holds l) :
    readBack s.app.dev.sp = l :=
  h.slots.readBack_eq fun n hn => (h.names n hn).1

variable {env : Env}

/-- An event leaves the list that it leads to, and the screen shows it. -/
theorem Holds.of_step {s t : Process} {e : Life} {l : List Text}
    (hname : ∀ n, e.of.newName = some n → GoodName n) (h : s.Holds l)
    (hstep : s.step env e = some t) : ∃ l', e.Leads l l' ∧ t.Holds l' := by
  cases e with
  | op o =>
      rw [step] at hstep
      split at hstep
      · next hcan =>
        obtain ⟨a, ha, rfl⟩ := Option.map_eq_some_iff.mp hstep
        -- A start reads the device only.
        obtain ⟨b, hb, ha⟩ : ∃ b, Shows b l ∧ complete env b o = some a := by
          cases halive : s.alive with
          | true => exact ⟨s.app, h.shown halive, ha⟩
          | false =>
              rw [halive, Bool.false_or] at hcan
              cases o with
              | restart =>
                  refine ⟨{ s.app with i := l.length, mData := l },
                    ⟨h.slots, rfl, ?_, h.names, h.typed⟩, ha⟩
                  exact List.forall₂_same.mpr fun n _ => .inl rfl
              | _ => cases hcan
        have hshows := Shows.complete b o a l hname hb ha
        exact ⟨o.apply l, rfl, hshows.slots, hshows.names, hshows.typed, fun _ => hshows⟩
      · cases hstep
  | kill o n torn =>
      rw [step] at hstep
      split at hstep
      · next hcan =>
        cases hstep
        obtain ⟨l', hl', hlists⟩ := MainActivity.lists_killed h.slots h.names
          (fun ho : isRestart o = false => h.shown (by simpa [ho] using hcan)) n torn
        refine ⟨l', hl', hlists, fun m hm => ?_,
          MainActivity.typed_killed h.slots h.names h.typed n torn, fun halive => by cases halive⟩
        rcases hl'.mem hm with hm | hm | ⟨-, -, rfl⟩
        · exact h.names m hm
        · exact hname m hm
        · exact MainActivity.goodName_defaultMode
      · cases hstep

end Process

end HapAndroid
