import Mathlib.Data.List.ReduceOption
import HapAndroid.Highlight.Independence
import HapAndroid.Highlight.Links

/-!
# Colouring (`highlight.java`)

`render` goes through the array of `read_syntax` three cells at a time and maps the first
to a colour.  It knows the ids of the six built-in groups; any other one is its default
branch, which gives up.  `read_syntax` reports the id a group was linked to, and a
`HiLink` may lead to every group that exists.  Behind the triples Java gets cells that
were never written, three for every record of a group without a link.
-/

namespace HapAndroid.Highlight

/-! ## The loop of `render` -/

inductive Color where
  | tag | string | keyword | function | comment | attrName
deriving DecidableEq

/-- The `switch` over the group id. -/
def colorOf : Int → Option Color
  | 1 => some .tag
  | 3 => some .string
  | 4 => some .keyword
  | 5 => some .function
  | 2 => some .comment
  | 6 => some .attrName
  | _ => none

/-- The static list of span objects and the buffer.  An object is its place in the list,
where its colour stands. -/
structure Spans where
  mSpans : List Color
  /-- The range of an object in the buffer. -/
  range : Nat → Option (Int × Int)
  index : Nat

/-- Set the range of the next object.  An object that exists keeps its colour. -/
def Spans.place (s : Spans) (bufLen : Nat) (color : Color) (start stop : Int) : Spans :=
  if bufLen ≤ s.index then
    ⟨s.mSpans ++ [color], Function.update s.range s.mSpans.length (some (start, stop)), s.index + 1⟩
  else ⟨s.mSpans, Function.update s.range s.index (some (start, stop)), s.index + 1⟩

/-- The loop over the array, `false` in the default branch. -/
def renderLoop (startOffset : Int) (bufLen : Nat) : List Int → Spans → Bool × Spans
  | id :: start :: stop :: ret, s =>
      match colorOf id with
      | none => (false, s)
      | some color =>
          if stop < startOffset then renderLoop startOffset bufLen ret s
          else renderLoop startOffset bufLen ret (s.place bufLen color start stop)
  | _, s => (true, s)

/-- The first cell of each triple. -/
def groupIds : List Int → List Int
  | id :: _ :: _ :: ret => id :: groupIds ret
  | _ => []

theorem colorOf_isSome_iff (id : Int) : (colorOf id).isSome ↔ 1 ≤ id ∧ id ≤ 6 := by
  constructor
  · intro h
    unfold colorOf at h
    split at h
    all_goals first | decide | cases h
  · rintro ⟨h1, h6⟩
    obtain rfl | rfl | rfl | rfl | rfl | rfl :
        id = 1 ∨ id = 2 ∨ id = 3 ∨ id = 4 ∨ id = 5 ∨ id = 6 := by omega
    all_goals rfl

/-- The loop gives up exactly at an id without a colour. -/
theorem renderLoop_true_iff (startOffset : Int) (bufLen : Nat) (ret : List Int) (s : Spans) :
    (renderLoop startOffset bufLen ret s).1 = true ↔ ∀ id ∈ groupIds ret, 1 ≤ id ∧ id ≤ 6 := by
  fun_induction renderLoop startOffset bufLen ret s with
  | case1 id start stop ret s hnone =>
      have hid := mt (colorOf_isSome_iff id).mpr (by simp [hnone])
      simp [groupIds, hid]
  | case2 id start stop ret s color hcolor _ ih =>
      have hid := (colorOf_isSome_iff id).mp (by simp [hcolor])
      simp [groupIds, hid, ih]
  | case3 id start stop ret s color hcolor _ ih =>
      have hid := (colorOf_isSome_iff id).mp (by simp [hcolor])
      simp [groupIds, hid, ih]
  | case4 ret s hshort =>
      have hids : groupIds ret = [] := by
        unfold groupIds
        split
        · next id start stop ret => exact absurd rfl (hshort id start stop ret)
        · rfl
      simp [hids]

/-! ## The ids in the array -/

/-- The name of the group that a group is linked to. -/
def linkTarget (groups : GroupTable) : Nat → Option Bytes
  | 0 => none
  | k + 1 => groups.items[k]?.bind fun e =>
      if e.toId = 0 then none else (names groups.items)[e.toId - 1]?

section
variable {groups : GroupTable} {k : Nat}

/-- The link of a group stands in its own entry. -/
theorem linkOf_eq (h : Named groups.items) (id : Nat) :
    linkOf groups id = match id with
      | 0 => 0
      | k + 1 => ((groups.items[k]?).map (·.toId)).getD 0 := by
  unfold linkOf
  cases hfind : groups.items.reverse.find? fun g => g.fromId = id with
  | none =>
      cases id with
      | zero => rfl
      | succ k =>
          cases he : groups.items[k]? with
          | none => simp [he]
          | some e =>
              -- An entry with a link would have been found.
              have hne := List.find?_eq_none.mp hfind e
                (List.mem_reverse.mpr (List.mem_of_getElem? he))
              rcases h.link k e he with ⟨-, hto⟩ | ⟨hfrom, -⟩
              · simp [he, hto]
              · simp [hfrom] at hne
  | some e =>
      have hfrom : e.fromId = id := by simpa using List.find?_some hfind
      obtain ⟨j, hj⟩ := List.mem_iff_getElem?.mp (List.mem_reverse.mp (List.mem_of_find?_eq_some hfind))
      rcases h.link j e hj with ⟨hfrom', hto⟩ | ⟨hfrom', -⟩
      · obtain rfl : id = 0 := hfrom.symm.trans hfrom'
        simp [hto]
      · obtain rfl : id = j + 1 := hfrom.symm.trans hfrom'
        simp [hj]

/-- A group is linked to one of the six ids exactly when its link leads to a group with a built-in
name. -/
theorem linkOf_six_iff (h : Named groups.items) (id : Nat) :
    1 ≤ linkOf groups id ∧ linkOf groups id ≤ 6 ↔
      ∃ name ∈ linkTarget groups id, name ∈ builtin := by
  rw [linkOf_eq h]
  cases id with
  | zero => simp [linkTarget]
  | succ k =>
      cases he : groups.items[k]? with
      | none => simp [linkTarget, he]
      | some e =>
          rcases h.link k e he with ⟨-, hto⟩ | ⟨-, hpos, hle⟩
          · simp [linkTarget, he, hto]
          · have hlt : e.toId - 1 < (names groups.items).length := by
              rw [names, List.length_map]
              omega
            have hname := List.getElem?_eq_getElem hlt
            have hiff := h.mem_builtin_iff hname
            have htarget : linkTarget groups (k + 1) = some (names groups.items)[e.toId - 1] := by
              simp [linkTarget, he, Nat.ne_of_gt hpos, hname]
            rw [htarget]
            simp only [Option.mem_def, Option.some.injEq, exists_eq_left', hiff]
            rw [he, Option.map_some, Option.getD_some]
            omega

end

/-- The cells that were written. -/
def Ret.written (r : Ret) : List Int := r.cells.reduceOption

theorem groupIds_flatMap_triple (groups : GroupTable) (is : List Item) (rest : List Int) :
    groupIds (is.flatMap (triple groups) ++ rest) =
      (is.map fun i => (linkOf groups i.group : Int)) ++ groupIds rest := by
  induction is with
  | nil => rfl
  | cons i is ih =>
      rw [List.flatMap_cons, List.append_assoc, List.map_cons, List.cons_append, ← ih]
      rfl

/-- The first of some cells, by threes, is taken for an id. -/
theorem mem_groupIds_range (cell : Nat → Int) {k : Nat} (hk : 0 < k) :
    cell 0 ∈ groupIds ((List.range (3 * k)).map cell) := by
  obtain ⟨k, rfl⟩ := Nat.exists_eq_succ_of_ne_zero (Nat.ne_of_gt hk)
  rw [Nat.mul_succ, List.range_succ_eq_map, List.range_succ_eq_map, List.range_succ_eq_map]
  exact List.mem_cons_self ..

/-- What `read_syntax` puts in the array are the triples of the linked records. -/
theorem written_eq {c : Call} {g g' : Globals} {p : Parsed} {r : Ret} (hp : c.parse g = some p)
    (hr : readSyntax c g = some (some r, g')) :
    r.written = p.linked.flatMap (triple p.groups) := by
  rw [Ret.written, cells_eq hp hr, List.reduceOption_append, List.reduceOption_replicate_none,
    List.append_nil, List.reduceOption, List.filterMap_map]
  exact List.filterMap_some

/-- The groups of a parse have the names and the links of a load. -/
theorem named_of_parse {calls : List Call} {c : Call} {g : Globals} {p : Parsed}
    (hrun : runCalls calls .fresh = some g) (hp : c.parse g = some p) :
    Named p.groups.items := by
  rw [c.parse_cleared (cleared_runCalls cleared_fresh hrun) .fresh] at hp
  obtain ⟨l, hload, hrest⟩ := Option.bind_eq_some_iff.mp hp
  obtain ⟨out, -, hstate⟩ := Option.bind_eq_some_iff.mp hrest
  obtain ⟨state, -, rfl⟩ := Option.map_eq_some_iff.mp hstate
  exact (tableOk_loadConf hload).named

/-- In any process, every id in the array has a colour, and `render` goes through all cells that
Java gets, whatever those hold that were not written, exactly when every recorded match belongs to
a group that was linked to one of the six. -/
theorem ids_coloured_iff {calls : List Call} {c : Call} {g g' : Globals} {p : Parsed} {r : Ret}
    (hrun : runCalls calls .fresh = some g) (hp : c.parse g = some p)
    (hr : readSyntax c g = some (some r, g')) :
    ((∀ id ∈ groupIds r.written, 1 ≤ id ∧ id ≤ 6) ∧
        ∀ array startOffset bufLen s,
          (renderLoop startOffset bufLen (r.report array) s).1 = true) ↔
      ∀ i ∈ p.state.items, ∃ name ∈ linkTarget p.groups i.group, name ∈ builtin := by
  have hwritten : groupIds r.written = p.linked.map fun i => (linkOf p.groups i.group : Int) := by
    rw [written_eq hp hr, ← List.append_nil (p.linked.flatMap _), groupIds_flatMap_triple]
    exact List.append_nil _
  simp only [renderLoop_true_iff, report_eq hp hr, groupIds_flatMap_triple,
    ← linkOf_six_iff (named_of_parse hrun hp), List.forall_mem_append]
  constructor
  · rintro ⟨hids, h⟩ i hi
    obtain ⟨-, hrest⟩ := h (fun _ => 0) 0 0 ⟨[], fun _ => none, 0⟩
    rcases Nat.eq_zero_or_pos (linkOf p.groups i.group) with h0 | hpos
    · -- A record without a link leaves cells that may hold anything.
      have hlt : p.linked.length < p.state.items.length :=
        List.length_filter_lt_length_iff_exists.mpr ⟨i, hi, by simpa using h0⟩
      exact absurd (hrest 0 (mem_groupIds_range _ (Nat.sub_pos_of_lt hlt))).1 (by decide)
    · have hmem : i ∈ p.linked := List.mem_filter.mpr ⟨hi, by simpa using Nat.ne_of_gt hpos⟩
      have hsix := (hids _ (hwritten ▸ List.mem_map_of_mem hmem)).2
      omega
  · intro h
    have hlinked : p.linked = p.state.items := List.filter_eq_self.mpr fun i hi => by
      have hpos := (h i hi).1
      simpa using Nat.ne_of_gt hpos
    have hsix : ∀ id ∈ p.linked.map fun i => (linkOf p.groups i.group : Int), 1 ≤ id ∧ id ≤ 6 := by
      intro id hid
      obtain ⟨i, hi, rfl⟩ := List.mem_map.mp hid
      have hid := h i (hlinked ▸ hi)
      omega
    refine ⟨hwritten ▸ hsix, fun array _ _ _ => ⟨hsix, ?_⟩⟩
    rw [hlinked, Nat.sub_self]
    exact fun id hid => absurd hid List.not_mem_nil

theorem ids_coloured_keyword :
    (∀ id ∈ groupIds (Ret.written ⟨3, [some 4, some 0, some 2]⟩), 1 ≤ id ∧ id ≤ 6) ∧
      ∀ array startOffset bufLen s, (renderLoop startOffset bufLen
        (Ret.report ⟨3, [some 4, some 0, some 2]⟩ array) s).1 = true := by
  have hrun : runCalls [] .fresh = some .fresh := rfl
  have hp : linkedCall.parse .fresh = some linkedCall.parsed := by decide +kernel
  have hr : readSyntax linkedCall .fresh = some (some ⟨3, [some 4, some 0, some 2]⟩,
      ⟨⟨0, 0, 16, 10, none⟩, ⟨0, 0, 16, 3, none⟩⟩) := by decide +kernel
  exact (ids_coloured_iff hrun hp hr).mpr (by decide +kernel)

/-- A keyword whose group is linked to a group of the configuration. -/
def userLinkCall : Call := callWith (bytes "syn keyword b x\nsyn keyword a if\nHiLink a b\n")

/-- The array holds the id of the seventh group; and where the group has no link, three cells that
may hold anything. -/
theorem user_link_not_coloured :
    (∃ r g', readSyntax userLinkCall .fresh = some (some r, g') ∧
      7 ∈ groupIds r.written ∧
      ∀ array startOffset bufLen s, (renderLoop startOffset bufLen (r.report array) s).1 = false) ∧
    ∃ r g', readSyntax unlinkedCall .fresh = some (some r, g') ∧
      ∀ startOffset bufLen s,
        (renderLoop startOffset bufLen (r.report fun _ => 0) s).1 = false := by
  constructor
  · exact ⟨⟨3, [some 7, some 0, some 2]⟩, ⟨⟨0, 0, 16, 10, none⟩, ⟨0, 0, 16, 3, none⟩⟩,
      by decide +kernel, by decide +kernel, fun _ _ _ _ => rfl⟩
  · exact ⟨⟨3, [none, none, none]⟩, ⟨⟨0, 0, 16, 10, none⟩, ⟨0, 0, 16, 3, none⟩⟩,
      by decide +kernel, fun _ _ _ => rfl⟩

end HapAndroid.Highlight
