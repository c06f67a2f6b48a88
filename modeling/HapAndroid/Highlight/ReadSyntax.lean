import HapAndroid.Lib.Machine
import HapAndroid.Highlight.Load
import HapAndroid.Highlight.Parse

/-!
# `read_syntax`

A call loads a configuration, parses a text and copies the records to an array for Java.
The group table and the records are globals; they are cleared at the end of a call and
keep their sizes.  The array has room for every record, its length is fixed before the
records of unlinked groups are left out, and the cells behind the last triple are never
written (`none`).  `jni_parse` hands all of them to Java.

A call that does not come back is `none`, and so is one that needs more than the given
number of steps or depth of inclusions.  Memory that the program does not determine is
part of the call: the sizes that a new buffer happens to hold, the byte in front of
the text, and what the cells of the array hold before they are written.
-/

namespace HapAndroid.Highlight

instance : CItem Item := ⟨16, Nat.succ_pos _, ⟨0, 0, 0⟩⟩

/-- The globals: `highlight_ga` and `current_state`. -/
structure Globals where
  highlightGa : GroupTable
  currentState : GArray Item
deriving DecidableEq

/-- A process that has not called anything. -/
def Globals.fresh : Globals := ⟨.fresh, .fresh⟩

/-- A call: the files that can be read, the configuration and the text, how far it is
followed, and what the memory of a new buffer and that of the array hold. -/
structure Call where
  files : Files
  conf : Bytes
  text : FileText
  depth : Nat
  steps : Nat
  memory : GArray SynPat
  array : Nat → Int

/-- The records of `parse_file`, when it returns within some steps. -/
def parseFile (e : ParseEnv) (steps : Nat) : Option (List Item) :=
  if ((Parse.step e)^[steps] (Parse.init e)).pc = .done then
    some ((Parse.step e)^[steps] (Parse.init e)).scan.out
  else none

/-- `add_match_result`, on the array. -/
def addMatchResult (state : GArray Item) (i : Item) : Option (GArray Item) := (state.grow 1).put i

/-- The globals between `parse_file` and the end of a call. -/
structure Parsed where
  groups : GroupTable
  state : GArray Item
deriving DecidableEq

/-- `syntax_init`, `load_syntax_conf` and `parse_file`. -/
def Call.parse (c : Call) (g : Globals) : Option Parsed :=
  (loadConf c.files c.depth c.conf g.highlightGa c.memory).bind fun l =>
    (parseFile ⟨c.text, l.buf, l.groups.items⟩ c.steps).bind fun out =>
      (out.foldlM addMatchResult
        { g.currentState.clear with itemsize := 16, growsize := 3 }).map fun state =>
          ⟨l.groups, state⟩

/-! ## The array for Java -/

/-- The link of a group, from the entry with the highest place; 0 is none. -/
def linkOf (groups : GroupTable) (group : Nat) : Nat :=
  ((groups.items.reverse.find? fun g => g.fromId = group).map (·.toId)).getD 0

/-- `echo` reads the bytes of the record.  The byte in front of the text can be read, those
before it need not be there. -/
def EchoOk (t : FileText) (i : Item) : Prop :=
  -1 ≤ i.start ∧ i.start ≤ i.stop ∧ i.start ≤ t.length

instance (t : FileText) (i : Item) : Decidable (EchoOk t i) := inferInstanceAs (Decidable (_ ∧ _))

/-- The three cells of a record. -/
def triple (groups : GroupTable) (i : Item) : List Int := [linkOf groups i.group, i.start, i.stop]

/-- The loop over the records: the cells that are written. -/
def fillRet (groups : GroupTable) (t : FileText) : List Item → Option (List Int)
  | [] => some []
  | i :: is =>
      if linkOf groups i.group = 0 then fillRet groups t is
      else if EchoOk t i then (fillRet groups t is).map (triple groups i ++ ·)
      else none

/-- The returned array and `*retLen`. -/
structure Ret where
  len : Nat
  cells : List (Option Int)
deriving DecidableEq

/-- The end of a call.  Without records nothing is returned. -/
def Parsed.ret (p : Parsed) (t : FileText) : Option (Option Ret) :=
  if p.state.len < 1 then some none
  else
    (fillRet p.groups t p.state.items).map fun cs =>
      some ⟨p.state.len * 3, cs.map some ++ List.replicate (p.state.len * 3 - cs.length) none⟩

def readSyntax (c : Call) (g : Globals) : Option (Option Ret × Globals) :=
  if c.conf = [] then some (none, g)
  else
    (c.parse g).bind fun p =>
      (p.ret c.text).map fun r => (r, ⟨freeHighlight p.groups, p.state.clear⟩)

/-- All cells of the array, with what was in the memory of those that were not written. -/
def Ret.report (r : Ret) (array : Nat → Int) : List Int :=
  r.cells.mapIdx fun i cell => cell.getD (array i)

/-- `jni_parse`: what Java gets. -/
def jniParse (c : Call) (g : Globals) : Option (Option (List Int) × Globals) :=
  (readSyntax c g).map fun r => (r.1.map (·.report c.array), r.2)

/-! ## The records in the array -/

theorem addMatchResult_eq {state : GArray Item} (h : state.Sized) (i : Item) :
    ∃ state', addMatchResult state i = some state' ∧ state'.Sized ∧
      state'.items = state.items ++ [i] := by
  obtain ⟨state', hput, hsized, hitems, -⟩ := GArray.put_grow_eq h Nat.one_pos i
  exact ⟨state', hput, hsized, hitems⟩

/-- The array holds the records in order. -/
theorem foldlM_addMatchResult (out : List Item) {state : GArray Item} (h : state.Sized) :
    ∃ state', out.foldlM addMatchResult state = some state' ∧ state'.Sized ∧
      state'.items = state.items ++ out := by
  induction out generalizing state with
  | nil => exact ⟨state, rfl, h, (List.append_nil _).symm⟩
  | cons i out ih =>
      obtain ⟨state₁, hadd, hsized, hitems⟩ := addMatchResult_eq h i
      obtain ⟨state₂, hrest, hsized₂, hitems₂⟩ := ih hsized
      refine ⟨state₂, ?_, hsized₂, ?_⟩
      · rw [List.foldlM_cons, hadd]
        exact hrest
      · rw [hitems₂, hitems, List.append_assoc]
        rfl

theorem Call.parse_sized {c : Call} {g : Globals} {p : Parsed} (h : c.parse g = some p) :
    p.state.Sized := by
  obtain ⟨l, -, h⟩ := Option.bind_eq_some_iff.mp h
  obtain ⟨out, -, h⟩ := Option.bind_eq_some_iff.mp h
  obtain ⟨state, hstate, rfl⟩ := Option.map_eq_some_iff.mp h
  have hsized : ({ g.currentState.clear with itemsize := 16, growsize := 3 } : GArray Item).Sized :=
    ⟨rfl, rfl, Nat.le_refl 0⟩
  obtain ⟨state', hfold, hsized', -⟩ := foldlM_addMatchResult out hsized
  rw [hfold, Option.some.injEq] at hstate
  exact hstate ▸ hsized'

/-! ## What the array holds -/

/-- The records whose group has a link. -/
def Parsed.linked (p : Parsed) : List Item :=
  p.state.items.filter fun i => linkOf p.groups i.group ≠ 0

section
variable {groups : GroupTable} {t : FileText}

/-- The cells are the triples of the linked records. -/
theorem fillRet_eq {is : List Item} (h : ∀ i ∈ is, linkOf groups i.group ≠ 0 → EchoOk t i) :
    fillRet groups t is =
      some ((is.filter fun i => linkOf groups i.group ≠ 0).flatMap (triple groups)) := by
  induction is with
  | nil => rfl
  | cons i is ih =>
      have ih := ih fun j hj => h j (List.mem_cons_of_mem _ hj)
      rw [fillRet]
      split
      · next h0 => simpa [h0] using ih
      · next h0 =>
        rw [if_pos (h i (List.mem_cons_self ..) h0), ih]
        simp [h0]

/-- A record outside of the text is not survived. -/
theorem echoOk_of_fillRet {is : List Item} {cs : List Int} (h : fillRet groups t is = some cs) :
    ∀ i ∈ is, linkOf groups i.group ≠ 0 → EchoOk t i := by
  induction is generalizing cs with
  | nil => simp
  | cons i is ih =>
      rw [fillRet] at h
      intro j hj hlink
      rcases List.mem_cons.mp hj with rfl | hj
      · rw [if_neg hlink] at h
        split at h
        · assumption
        · cases h
      · split at h
        · exact ih h j hj hlink
        · split at h
          · obtain ⟨cs', hcs, -⟩ := Option.map_eq_some_iff.mp h
            exact ih hcs j hj hlink
          · cases h

theorem length_flatMap_triple (groups : GroupTable) (is : List Item) :
    (is.flatMap (triple groups)).length = 3 * is.length := by
  induction is with
  | nil => rfl
  | cons i is ih =>
      rw [List.flatMap_cons, List.length_append, ih, List.length_cons]
      simp only [triple, List.length_cons, List.length_nil]
      omega

end

/-- The call behind its records. -/
theorem readSyntax_eq {c : Call} {g : Globals} {p : Parsed} (hconf : c.conf ≠ [])
    (hp : c.parse g = some p) :
    readSyntax c g = (p.ret c.text).map fun r => (r, ⟨freeHighlight p.groups, p.state.clear⟩) := by
  rw [readSyntax, if_neg hconf, hp, Option.bind_some]

theorem Parsed.ret_eq {p : Parsed} {t : FileText} (hsized : p.state.Sized)
    (hne : p.state.items ≠ []) :
    p.ret t = (fillRet p.groups t p.state.items).map fun cs =>
      some ⟨p.state.items.length * 3,
        cs.map some ++ List.replicate (p.state.items.length * 3 - cs.length) none⟩ := by
  have hlen := GArray.length_items hsized
  have hpos : 0 < p.state.items.length := List.length_pos_of_ne_nil hne
  rw [Parsed.ret, if_neg (by omega), hlen]

/-- A call with an array has parsed its text. -/
theorem parse_of_readSyntax {c : Call} {g g' : Globals} {r : Ret}
    (hr : readSyntax c g = some (some r, g')) : c.conf ≠ [] ∧ ∃ p, c.parse g = some p := by
  rw [readSyntax] at hr
  split at hr
  · cases hr
  · next hconf =>
    obtain ⟨p, hp, -⟩ := Option.bind_eq_some_iff.mp hr
    exact ⟨hconf, p, hp⟩

/-- The array of a call: the triples of the linked records, and three cells that are not
written for every other record. -/
theorem cells_eq {c : Call} {g g' : Globals} {p : Parsed} {r : Ret} (hp : c.parse g = some p)
    (hr : readSyntax c g = some (some r, g')) :
    r.cells = (p.linked.flatMap (triple p.groups)).map some ++
      List.replicate (3 * (p.state.items.length - p.linked.length)) none := by
  rw [readSyntax_eq (parse_of_readSyntax hr).1 hp] at hr
  obtain ⟨r', hret, heq⟩ := Option.map_eq_some_iff.mp hr
  cases heq
  have hlen := GArray.length_items (Call.parse_sized hp)
  rw [Parsed.ret] at hret
  split at hret
  · cases hret
  · obtain ⟨cs, hfill, heq⟩ := Option.map_eq_some_iff.mp hret
    cases heq
    rw [fillRet_eq (echoOk_of_fillRet hfill), Option.some.injEq] at hfill
    have hcs : cs = p.linked.flatMap (triple p.groups) := hfill.symm
    have hroom : p.state.len * 3 - cs.length =
        3 * (p.state.items.length - p.linked.length) := by
      rw [hcs, length_flatMap_triple, ← hlen]
      omega
    rw [← hcs, hroom]

/-- What Java gets behind the triples of the linked records is what the memory has held. -/
theorem report_eq {c : Call} {g g' : Globals} {p : Parsed} {r : Ret} (hp : c.parse g = some p)
    (hr : readSyntax c g = some (some r, g')) (array : Nat → Int) :
    r.report array = p.linked.flatMap (triple p.groups) ++
      (List.range (3 * (p.state.items.length - p.linked.length))).map fun i =>
        array (i + 3 * p.linked.length) := by
  rw [Ret.report, cells_eq hp hr, List.mapIdx_append, List.length_map, length_flatMap_triple]
  congr 1
  · exact List.ext_getElem (by simp) (by simp)
  · exact List.ext_getElem (by simp) (by simp)

/-- When there is a record, the returned array consists of the triples of the linked
records, in order and completely written, exactly when every record has a linked group
and lies in the text. -/
theorem ret_linked_iff {c : Call} {g : Globals} {p : Parsed} (hconf : c.conf ≠ [])
    (hp : c.parse g = some p) (hne : p.state.items ≠ []) :
    (∃ r g', readSyntax c g = some (some r, g') ∧ r.len = 3 * p.linked.length ∧
        r.cells = (p.linked.flatMap (triple p.groups)).map some) ↔
      ∀ i ∈ p.state.items, linkOf p.groups i.group ≠ 0 ∧ EchoOk c.text i := by
  have hsized := Call.parse_sized hp
  rw [readSyntax_eq hconf hp, Parsed.ret_eq hsized hne]
  constructor
  · rintro ⟨r, g', hr, hlen, -⟩
    obtain ⟨r', hr', heq⟩ := Option.map_eq_some_iff.mp hr
    obtain ⟨cs, hcs, rfl⟩ := Option.map_eq_some_iff.mp hr'
    cases heq
    -- The length counts every record, so none is left out.
    have hall : p.linked.length = p.state.items.length := by
      have hlen : p.state.items.length * 3 = 3 * p.linked.length := hlen
      omega
    have hlink := List.length_filter_eq_length_iff.mp hall
    intro i hi
    have h0 : linkOf p.groups i.group ≠ 0 := by simpa using hlink i hi
    exact ⟨h0, echoOk_of_fillRet hcs i hi h0⟩
  · intro h
    have hlink : p.linked = p.state.items :=
      List.filter_eq_self.mpr fun i hi => by simpa using (h i hi).1
    have hfill : fillRet p.groups c.text p.state.items =
        some (p.linked.flatMap (triple p.groups)) := fillRet_eq fun i hi _ => (h i hi).2
    have hroom : p.state.items.length * 3 - (p.linked.flatMap (triple p.groups)).length = 0 := by
      rw [length_flatMap_triple, hlink]
      omega
    refine ⟨⟨p.state.items.length * 3, (p.linked.flatMap (triple p.groups)).map some⟩,
      ⟨freeHighlight p.groups, p.state.clear⟩, ?_, ?_, rfl⟩
    · rw [hfill, Option.map_some, Option.map_some, hroom, List.replicate_zero, List.append_nil]
    · rw [hlink]
      exact Nat.mul_comm _ _

/-- A first call on the text `if`, with one file. -/
def callWith (conf : Bytes) : Call where
  files := fun name => if name = bytes "c" then some conf else none
  conf := bytes "c"
  text := ⟨bytes "if", by decide +kernel, 0⟩
  depth := 1
  steps := 8
  memory := .fresh
  array _ := 0

def Call.parsed (c : Call) : Parsed := (c.parse .fresh).getD ⟨.fresh, .fresh⟩

/-- A keyword whose group is linked. -/
def linkedCall : Call := callWith (bytes "syn keyword php if\nHiLink php Keyword\n")

theorem ret_linked_keyword : ∃ r g', readSyntax linkedCall .fresh = some (some r, g') ∧
    r.len = 3 * linkedCall.parsed.linked.length ∧
      r.cells = (linkedCall.parsed.linked.flatMap (triple linkedCall.parsed.groups)).map some :=
  (ret_linked_iff (p := linkedCall.parsed) (by decide +kernel) (by decide +kernel)
    (by decide +kernel)).mpr (by decide +kernel)

/-- A keyword whose group has no link. -/
def unlinkedCall : Call := callWith (bytes "syn keyword php if\n")

/-- There is a record and none that is linked, and three cells that were never
written are returned. -/
theorem unlinked_ret : unlinkedCall.parse .fresh = some unlinkedCall.parsed ∧
    unlinkedCall.parsed.state.items ≠ [] ∧
      ¬ ∃ r g', readSyntax unlinkedCall .fresh = some (some r, g') ∧
        r.len = 3 * unlinkedCall.parsed.linked.length ∧
        r.cells = (unlinkedCall.parsed.linked.flatMap (triple unlinkedCall.parsed.groups)).map
          some := by
  refine ⟨by decide +kernel, by decide +kernel, ?_⟩
  rintro ⟨r, g', hr, hlen, -⟩
  have hret : (readSyntax unlinkedCall .fresh).map (·.1) = some (some ⟨3, [none, none, none]⟩) := by
    decide +kernel
  rw [hr, Option.map_some, Option.some.injEq, Option.some.injEq] at hret
  have hnone : unlinkedCall.parsed.linked.length = 0 := by decide +kernel
  rw [hret, hnone] at hlen
  cases hlen

end HapAndroid.Highlight
