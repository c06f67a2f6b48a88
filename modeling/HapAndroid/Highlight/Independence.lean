import HapAndroid.Highlight.Before
import HapAndroid.Highlight.ReadSyntax

/-!
# Successive parses are independent

Between two calls both globals are without memory, and only their sizes are left.  Those
of the group table are set again with its first entry, those of the records by
`parse_file`.  The array of patterns belongs to a new buffer, whose sizes may be anything
until the first command that adds a pattern: every command does the same after its sizes
are set and before (`Commutes`).

What is left to see of earlier calls is memory that the program does not write: the cells of
the array behind the triples, and the byte in front of the text.  `reports_independent_iff`
says when no cell is left out, for calls that do not read that byte.
-/

namespace HapAndroid.Highlight

/-! ## The sizes of the array of patterns -/

namespace Loader

variable {l : Loader} {p : Bytes}

@[simp] theorem sized_groups (l : Loader) : l.sized.groups = l.groups := rfl

/-- A command does not depend on the sizes, and setting them later gives the same. -/
def Commutes (f : Loader → Option Loader) : Prop := ∀ l, f l.sized = (f l).map Loader.sized

theorem synCmdCase_sized (l : Loader) (p : Bytes) :
    synCmdCase l.sized p = (synCmdCase l p).sized := by
  unfold synCmdCase
  split
  · rfl
  · split <;> rfl

theorem foldl_addKeyword_sized (id : Nat) (ws : List Bytes) (l : Loader) :
    ws.foldl (addKeyword id) l.sized = (ws.foldl (addKeyword id) l).sized := by
  induction ws generalizing l with
  | nil => rfl
  | cons w ws ih =>
      have hw : addKeyword id l.sized w = (addKeyword id l w).sized := by
        unfold addKeyword
        split
        · next h => rw [if_pos (show l.synCase = true from h)]; rfl
        · next h => rw [if_neg (show ¬ l.synCase = true from h)]; rfl
      rw [List.foldl_cons, List.foldl_cons, hw, ih]

theorem commutes_keyword (p : Bytes) : Commutes (synCmdKeyword · p) := by
  intro l
  simp only [synCmdKeyword, sized_groups]
  cases getGroupName p with
  | none => rfl
  | some rest =>
      dsimp only
      cases synCheckGroup l.groups (untilWhite p) true with
      | none => rfl
      | some r =>
          dsimp only
          rw [Option.map_map]
          congr 1
          funext ws
          exact foldl_addKeyword_sized r.1 ws { l with groups := r.2 }

theorem grow_sizes {g : GArray SynPat} (n : Nat) :
    (g.grow n).itemsize = g.itemsize ∧ (g.grow n).growsize = g.growsize := by
  unfold GArray.grow
  split <;> exact ⟨rfl, rfl⟩

theorem put_sizes {g g' : GArray SynPat} {a : SynPat} (h : g.put a = some g') :
    g'.itemsize = g.itemsize ∧ g'.growsize = g.growsize := by
  unfold GArray.put at h
  split at h
  · cases h
  · split at h
    · cases h
      exact ⟨rfl, rfl⟩
    · cases h

theorem sized_of_sizes (h : l.patterns.itemsize = 32 ∧ l.patterns.growsize = 10) :
    l.sized = l := by
  obtain ⟨a, b, c, ⟨len, maxlen, itemsize, growsize, data⟩, d⟩ := l
  obtain ⟨rfl, rfl⟩ := h
  rfl

/-- Storing a pattern sets the sizes first. -/
theorem storePattern_sized (l : Loader) (name : Bytes) (pat : SynPat) (count : Nat) :
    storePattern l.sized name pat count = storePattern l name pat count ∧
      (storePattern l name pat count).map Loader.sized = storePattern l name pat count := by
  refine ⟨rfl, ?_⟩
  have hgrow := grow_sizes (g := l.sized.patterns) count
  unfold storePattern
  split
  · rfl
  · rw [Option.map_some, sized_of_sizes]
    exact hgrow
  · rw [Option.map_map]
    cases hput : (l.sized.patterns.grow count).put _ with
    | none => rfl
    | some patterns =>
        have hsizes := put_sizes hput
        rw [Option.map_some, Option.map_some, Function.comp_apply, sized_of_sizes]
        exact ⟨hsizes.1.trans hgrow.1, hsizes.2.trans hgrow.2⟩

theorem commutes_region (p : Bytes) : Commutes (synCmdRegion · p) := by
  intro l
  unfold synCmdRegion
  split
  · rfl
  · split
    · split
      · exact (storePattern_sized ..).1.trans (storePattern_sized ..).2.symm
      · rfl
    · rfl

theorem commutes_match (p : Bytes) : Commutes (synCmdMatch · p) := by
  intro l
  unfold synCmdMatch
  split
  · rfl
  · split
    · rfl
    · exact (storePattern_sized ..).1.trans (storePattern_sized ..).2.symm

theorem highlightLink_sized (l : Loader) (p : Bytes) :
    highlightLink l.sized p = (highlightLink l p).map fun r => (r.1.sized, r.2) := by
  unfold highlightLink
  dsimp only
  split
  · rfl
  · rw [sized_groups]
    split <;> rfl

theorem Commutes.bind {f g : Loader → Option Loader} (hf : Commutes f) (hg : Commutes g) :
    Commutes fun l => (f l).bind g := by
  intro l
  show (f l.sized).bind g = ((f l).bind g).map Loader.sized
  rw [hf l]
  cases f l with
  | none => rfl
  | some l' => exact hg l'

/-- The command after `syn`. -/
theorem commutes_syn (type p : Bytes) : Commutes fun l =>
    if type = bytes "case" then some (synCmdCase l p)
    else if type = bytes "keyword" then synCmdKeyword l p
    else if type = bytes "region" then synCmdRegion l p
    else if type = bytes "match" then synCmdMatch l p
    else some l := by
  intro l
  dsimp only
  split
  · rw [synCmdCase_sized]
    rfl
  · split
    · exact commutes_keyword p l
    · split
      · exact commutes_region p l
      · split
        · exact commutes_match p l
        · rfl

theorem commutes_loadLoop {load : Bytes → Loader → Option Loader} (hload : ∀ f, Commutes (load f))
    (conf : Bytes) (fuel : Nat) (p : Bytes) : Commutes (loadLoop load conf fuel p) := by
  induction fuel generalizing p with
  | zero => exact fun l => rfl
  | succ fuel ih =>
      intro l
      unfold loadLoop
      dsimp only
      split
      · rfl
      · split
        · exact ih _ l
        · split
          · rfl
          · split
            · split
              · rfl
              · exact (commutes_syn _ _).bind (ih _) l
            · split
              · rw [highlightLink_sized]
                cases highlightLink l _ with
                | none => rfl
                | some r => exact ih _ r.1
              · split
                · exact (hload _).bind (ih _) l
                · exact ih _ l

theorem commutes_loadSyntaxConf (files : Files) (depth : Nat) (conf : Bytes) :
    Commutes (loadSyntaxConf files depth conf) := by
  induction depth generalizing conf with
  | zero => exact fun l => rfl
  | succ depth ih =>
      intro l
      unfold loadSyntaxConf
      split
      · rfl
      · exact commutes_loadLoop ih _ _ _ l

end Loader

/-- What a new buffer holds makes no difference. -/
theorem loadConf_memory (files : Files) (depth : Nat) (conf : Bytes) (groups : GroupTable)
    (m m' : GArray SynPat) : (loadConf files depth conf groups m).map Loader.sized =
      (loadConf files depth conf groups m').map Loader.sized := by
  unfold loadConf syntaxInit
  cases initGroups groups with
  | none => rfl
  | some groups =>
      -- With their sizes set the two buffers are the same.
      have hsame : (synCmdCase ⟨false, [], [], m.init, groups⟩ (bytes "ignore")).sized =
          (synCmdCase ⟨false, [], [], m'.init, groups⟩ (bytes "ignore")).sized := by
        rw [← Loader.synCmdCase_sized, ← Loader.synCmdCase_sized]
        rfl
      simp only [Option.map_some, Option.bind_some]
      rw [← Loader.commutes_loadSyntaxConf, ← Loader.commutes_loadSyntaxConf, hsame]

/-! ## The globals -/

/-- The globals between two calls: no memory, some sizes. -/
structure Globals.Cleared (g : Globals) : Prop where
  groups : g.highlightGa.init = g.highlightGa
  state : g.currentState.init = g.currentState

theorem cleared_fresh : Globals.fresh.Cleared := ⟨rfl, rfl⟩

/-- The first entry sets the sizes of the group table. -/
theorem initGroups_cleared {tab : GroupTable} (h : tab.init = tab) :
    initGroups tab = initGroups .fresh := by
  rw [← h]
  rfl

/-- The part of a call up to `parse_file` starts from nothing. -/
theorem Call.parse_cleared (c : Call) {g : Globals} (h : g.Cleared) (m : GArray SynPat) :
    c.parse g = { c with memory := m }.parse .fresh := by
  have hload : (loadConf c.files c.depth c.conf g.highlightGa c.memory).map Loader.sized =
      (loadConf c.files c.depth c.conf .fresh m).map Loader.sized := by
    rw [loadConf_memory _ _ _ _ c.memory m]
    simp only [loadConf, syntaxInit, initGroups_cleared h.groups]
  -- The rest reads of the loader what its sizes do not change.
  let rest (l : Loader) : Option Parsed :=
    (parseFile ⟨c.text, l.buf, l.groups.items⟩ c.steps).bind fun out =>
      (out.foldlM addMatchResult ⟨0, 0, 16, 3, none⟩).map fun state => ⟨l.groups, state⟩
  have hrest : ∀ o : Option Loader, o.bind rest = (o.map Loader.sized).bind rest := by
    rintro (_ | l) <;> rfl
  show (loadConf c.files c.depth c.conf g.highlightGa c.memory).bind rest =
    (loadConf c.files c.depth c.conf .fresh m).bind rest
  rw [hrest, hload, ← hrest]

/-- A call leaves the globals cleared. -/
theorem cleared_readSyntax {c : Call} {g g' : Globals} {r : Option Ret} (h : g.Cleared)
    (hr : readSyntax c g = some (r, g')) : g'.Cleared := by
  unfold readSyntax at hr
  split at hr
  · cases hr
    exact h
  · obtain ⟨p, -, hp⟩ := Option.bind_eq_some_iff.mp hr
    obtain ⟨r', -, heq⟩ := Option.map_eq_some_iff.mp hp
    cases heq
    exact ⟨rfl, rfl⟩

/-- Calls one after the other. -/
def runCalls (calls : List Call) (g : Globals) : Option Globals :=
  calls.foldlM (fun g c => (readSyntax c g).map (·.2)) g

theorem cleared_runCalls {calls : List Call} {g g' : Globals} (h : g.Cleared)
    (hrun : runCalls calls g = some g') : g'.Cleared := by
  induction calls generalizing g with
  | nil =>
      cases hrun
      exact h
  | cons c calls ih =>
      rw [runCalls, List.foldlM_cons] at hrun
      obtain ⟨g₁, hc, hrest⟩ := Option.bind_eq_some_iff.mp hrun
      obtain ⟨⟨r, g₂⟩, hread, rfl⟩ := Option.map_eq_some_iff.mp hc
      exact ih (cleared_readSyntax h hread) hrest

/-! ## What a call reports -/

/-- Memory that the program does not determine: what a new buffer holds, what the array holds
before it is written, and the byte in front of the text. -/
structure Memory where
  buffer : GArray SynPat
  array : Nat → Int
  before : UInt8

/-- The call when it finds this memory. -/
def Call.inMemory (c : Call) (m : Memory) : Call :=
  { c with text := c.text.behind m.before, memory := m.buffer, array := m.array }

/-- After any calls that came back, and whatever the memory holds, Java gets what it gets from
this call as the first one of a process. -/
def Independent (c : Call) : Prop :=
  ∀ calls g, runCalls calls .fresh = some g → ∀ m m' : Memory,
    (jniParse (c.inMemory m) g).map (·.1) = (jniParse (c.inMemory m') .fresh).map (·.1)

/-- No test of the call reads the byte in front of the text. -/
def Call.LooksInside (c : Call) : Prop :=
  ∀ l, loadConf c.files c.depth c.conf .fresh c.memory = some l →
    Parse.LooksInside ⟨c.text, l.buf, l.groups.items⟩

theorem parseFile_behind {e : ParseEnv} (h : Parse.LooksInside e) (b : UInt8) (steps : Nat) :
    parseFile (e.behind b) steps = parseFile e steps := by
  rw [parseFile, parseFile, Parse.iterate_behind b h]

theorem fillRet_behind (groups : GroupTable) (t : FileText) (b : UInt8) (is : List Item) :
    fillRet groups (t.behind b) is = fillRet groups t is := by
  induction is with
  | nil => rfl
  | cons i is ih =>
      rw [fillRet, fillRet, ih]
      rfl

section
variable {c : Call} {g : Globals} (h : c.LooksInside) (hg : g.Cleared) (m : Memory)
include h hg

/-- Neither the globals nor the memory is seen up to `parse_file`. -/
theorem Call.parse_inMemory : (c.inMemory m).parse g = c.parse .fresh := by
  rw [(c.inMemory m).parse_cleared hg c.memory]
  unfold parse
  refine Option.bind_congr fun l hl => ?_
  have hparse : parseFile ⟨c.text.behind m.before, l.buf, l.groups.items⟩ c.steps =
      parseFile ⟨c.text, l.buf, l.groups.items⟩ c.steps :=
    parseFile_behind (h l hl) m.before c.steps
  exact congrArg (Option.bind · _) hparse

theorem readSyntax_inMemory :
    (readSyntax (c.inMemory m) g).map (·.1) = (readSyntax c .fresh).map (·.1) := by
  unfold readSyntax
  rw [Call.parse_inMemory h hg]
  have hret : ∀ p : Parsed, p.ret (c.inMemory m).text = p.ret c.text := by
    intro p
    rw [Parsed.ret, Parsed.ret]
    exact congrArg (fun cs => if p.state.len < 1 then _ else Option.map _ cs)
      (fillRet_behind p.groups c.text m.before p.state.items)
  simp only [hret]
  show Option.map _ (if c.conf = [] then _ else _) = _
  split <;> rfl

/-- What Java gets is the array of the first call, with what the memory holds. -/
theorem jniParse_inMemory : (jniParse (c.inMemory m) g).map (·.1) =
    (readSyntax c .fresh).map fun r => r.1.map (·.report m.array) := by
  have hread := congrArg (Option.map fun r : Option Ret => r.map (·.report m.array))
    (readSyntax_inMemory h hg m)
  rw [Option.map_map, Option.map_map] at hread
  rw [jniParse, Option.map_map]
  exact hread

end

/-- The cells that Java gets do not depend on the memory exactly if all have been written. -/
theorem report_const_iff {c : Call} {g' : Globals} {p : Parsed} {r : Ret}
    (hp : c.parse .fresh = some p) (hr : readSyntax c .fresh = some (some r, g')) :
    (∀ a a', r.report a = r.report a') ↔ ∀ i ∈ p.state.items, linkOf p.groups i.group ≠ 0 := by
  have hiff : p.linked.length = p.state.items.length ↔
      ∀ i ∈ p.state.items, linkOf p.groups i.group ≠ 0 := by
    rw [Parsed.linked, List.length_filter_eq_length_iff]
    simp only [ne_eq, decide_not, Bool.not_eq_true', decide_eq_false_iff_not]
  rw [← hiff]
  constructor
  · intro h
    have hcells := h (fun _ => 0) (fun _ => 1)
    rw [report_eq hp hr, report_eq hp hr, List.append_cancel_left_eq] at hcells
    have hnone := List.map_inj_left.mp hcells
    have hle : p.linked.length ≤ p.state.items.length := List.length_filter_le _ _
    by_contra hne
    have hroom : 0 < 3 * (p.state.items.length - p.linked.length) := by omega
    exact absurd (hnone 0 (List.mem_range.mpr hroom)) (by decide)
  · intro h a a'
    rw [report_eq hp hr, report_eq hp hr, h, Nat.sub_self]
    rfl

/-- A call that comes back and in which no test reads the byte in front of the text reports the
same after any calls and with any memory exactly if every recorded match belongs to a group that
has a link. -/
theorem reports_independent_iff {c : Call} {r : Option Ret} {g' : Globals}
    (hback : readSyntax c .fresh = some (r, g')) (hinside : c.LooksInside) :
    Independent c ↔ ∀ p, c.conf ≠ [] → c.parse .fresh = some p →
      ∀ i ∈ p.state.items, linkOf p.groups i.group ≠ 0 := by
  -- Every report is the array of the first call in its memory.
  have hsame : Independent c ↔ ∀ a a', r.map (·.report a) = r.map (·.report a') := by
    constructor
    · intro h a a'
      have hreport := h [] .fresh rfl ⟨.fresh, a, 0⟩ ⟨.fresh, a', 0⟩
      rwa [jniParse_inMemory hinside cleared_fresh, jniParse_inMemory hinside cleared_fresh, hback,
        Option.map_some, Option.map_some, Option.some.injEq] at hreport
    · intro h calls g hrun m m'
      rw [jniParse_inMemory hinside (cleared_runCalls cleared_fresh hrun),
        jniParse_inMemory hinside cleared_fresh, hback, Option.map_some, Option.map_some, h]
  rw [hsame]
  cases r with
  | none =>
      refine iff_of_true (fun _ _ => rfl) fun p hconf hp i hi => ?_
      -- Without an array there is no record.
      rw [readSyntax_eq hconf hp, Parsed.ret_eq (Call.parse_sized hp) (List.ne_nil_of_mem hi)]
        at hback
      obtain ⟨r, hret, heq⟩ := Option.map_eq_some_iff.mp hback
      obtain ⟨cs, -, rfl⟩ := Option.map_eq_some_iff.mp hret
      cases heq
  | some r =>
      constructor
      · intro h p _ hp
        exact (report_const_iff hp hback).mp fun a a' => Option.some.inj (h a a')
      · intro h a a'
        obtain ⟨hconf, p, hp⟩ := parse_of_readSyntax hback
        rw [Option.map_some, Option.map_some,
          (report_const_iff hp hback).mpr (h p hconf hp) a a']

/-- A match of the text, without a look back. -/
def matchCall : Call := callWith (bytes "syn match String \"if\"\n")

def matchLoader : Loader :=
  (loadConf matchCall.files 1 matchCall.conf .fresh .fresh).getD ⟨false, [], [], .fresh, .fresh⟩

def matchEnv : ParseEnv := ⟨matchCall.text, matchLoader.buf, matchLoader.groups.items⟩

/-- After any calls and in any memory the same match is reported. -/
theorem reports_independent_match : Independent matchCall := by
  have hback : readSyntax matchCall .fresh = some (some ⟨3, [some 3, some 0, some 2]⟩,
      ⟨⟨0, 0, 16, 10, none⟩, ⟨0, 0, 16, 3, none⟩⟩) := by decide +kernel
  have hload : loadConf matchCall.files 1 matchCall.conf .fresh .fresh = some matchLoader := by
    decide +kernel
  have hrests : Machine.Rests (Parse.step matchEnv) (Parse.init matchEnv)
      ((Parse.step matchEnv)^[5] (Parse.init matchEnv)) 5 :=
    ⟨rfl, by decide +kernel, by decide +kernel⟩
  have hcalls : ∀ n ≤ 5,
      ∀ c ∈ Parse.calls matchEnv ((Parse.step matchEnv)^[n] (Parse.init matchEnv)),
        c.LooksInside matchEnv.text := by
    decide +kernel
  have hinside : Parse.LooksInside matchEnv := by
    intro s hs
    obtain ⟨n, hn, rfl⟩ := hrests.reaches_iff.mp hs
    exact hcalls n hn
  refine (reports_independent_iff hback fun l hl => ?_).mpr fun p _ hp => ?_
  · obtain rfl : matchLoader = l := Option.some.inj (hload.symm.trans hl)
    exact hinside
  · have hparsed : matchCall.parse .fresh = some matchCall.parsed := by decide +kernel
    obtain rfl : matchCall.parsed = p := Option.some.inj (hparsed.symm.trans hp)
    decide +kernel

/-- A match at the start of a line. -/
def caretCall : Call := callWith (bytes "syn match String \"^if\"\n")

/-- A group without a link, after a call that has reported a keyword: Java gets the cells that this
call had in the memory.  And a `^` at the first byte: the match is reported or not as the byte in
front of the text says. -/
theorem reports_memory :
    (∃ g, (jniParse linkedCall .fresh).map (·.1) = some (some [4, 0, 2]) ∧
      runCalls [linkedCall] .fresh = some g ∧
      (jniParse (unlinkedCall.inMemory ⟨.fresh, fun i => [4, 0, 2].getD i 0, 0⟩) g).map (·.1) =
        some (some [4, 0, 2]) ∧
      (jniParse (unlinkedCall.inMemory ⟨.fresh, fun _ => 0, 0⟩) .fresh).map (·.1) =
        some (some [0, 0, 0])) ∧
    ¬ Independent unlinkedCall ∧
    (jniParse (caretCall.inMemory ⟨.fresh, fun _ => 0, 0⟩) .fresh).map (·.1) =
      some (some [3, 0, 2]) ∧
    (jniParse (caretCall.inMemory ⟨.fresh, fun _ => 0, 0x31⟩) .fresh).map (·.1) = some none ∧
    ¬ Independent caretCall := by
  have hrun : runCalls [linkedCall] .fresh =
      some ⟨⟨0, 0, 16, 10, none⟩, ⟨0, 0, 16, 3, none⟩⟩ := by decide +kernel
  have hlater : (jniParse (unlinkedCall.inMemory ⟨.fresh, fun i => [4, 0, 2].getD i 0, 0⟩)
      ⟨⟨0, 0, 16, 10, none⟩, ⟨0, 0, 16, 3, none⟩⟩).map (·.1) = some (some [4, 0, 2]) := by
    decide +kernel
  have hfirst : (jniParse (unlinkedCall.inMemory ⟨.fresh, fun _ => 0, 0⟩) .fresh).map (·.1) =
      some (some [0, 0, 0]) := by
    decide +kernel
  have hline : (jniParse (caretCall.inMemory ⟨.fresh, fun _ => 0, 0⟩) .fresh).map (·.1) =
      some (some [3, 0, 2]) := by
    decide +kernel
  have hnone : (jniParse (caretCall.inMemory ⟨.fresh, fun _ => 0, 0x31⟩) .fresh).map (·.1) =
      some none := by
    decide +kernel
  refine ⟨⟨_, by decide +kernel, hrun, hlater, hfirst⟩, fun h => ?_, hline, hnone, fun h => ?_⟩
  · have hsame := h _ _ hrun ⟨.fresh, fun i => [4, 0, 2].getD i 0, 0⟩ ⟨.fresh, fun _ => 0, 0⟩
    rw [hlater, hfirst] at hsame
    exact absurd hsame (by decide)
  · have hsame := h [] .fresh rfl ⟨.fresh, fun _ => 0, 0⟩ ⟨.fresh, fun _ => 0, 0x31⟩
    rw [hline, hnone] at hsame
    exact absurd hsame (by decide)


end HapAndroid.Highlight
