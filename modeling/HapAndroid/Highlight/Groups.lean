import HapAndroid.Highlight.Bytes
import HapAndroid.Highlight.GArray

/-!
# The table of highlight groups

`highlight_ga` with the functions that search it, extend it and link its entries.  The
id of a group is its place in the table, counted from 1; 0 is no group.  `none` is a
run that writes outside of the table.
-/

namespace HapAndroid.Highlight

/-- A `hl_group`, without the name that is only printed. -/
structure HlGroup where
  /-- `sg_name_u`, the name in upper case. -/
  nameU : Bytes
  fromId : Nat
  toId : Nat
deriving DecidableEq

instance : CItem HlGroup := ⟨16, by decide, ⟨[], 0, 0⟩⟩

abbrev GroupTable := GArray HlGroup

def upper (name : Bytes) : Bytes := name.map toUpper

/-- `syn_name2id`: the place of the last entry of this name, of which 199 bytes are
compared. -/
def synName2id (tab : GroupTable) (name : Bytes) : Nat :=
  tab.items.length -
    tab.items.reverse.findIdx fun g => g.nameU = upper (name.take 199)

/-- The bytes of a group name. -/
def validName (name : Bytes) : Bool := name.all fun c => isKeyword c || c == 0x5F

/-- `syn_add_group`: the new id, 0 for an invalid name. -/
def synAddGroup (tab : GroupTable) (name : Bytes) : Option (Nat × GroupTable) :=
  if validName name then
    let tab := if tab.data = none then { tab with itemsize := 16, growsize := 10 } else tab
    ((tab.grow 1).put ⟨upper name, 0, 0⟩).map fun tab => (tab.len, tab)
  else some (0, tab)

/-- `syn_check_group`. -/
def synCheckGroup (tab : GroupTable) (name : Bytes) (autoAdd : Bool) : Option (Nat × GroupTable) :=
  if synName2id tab name = 0 ∧ autoAdd then synAddGroup tab name
  else some (synName2id tab name, tab)

/-- Set the link of an entry. -/
def linkGroup (tab : GroupTable) (fromId toId : Nat) : GroupTable :=
  { tab with data := tab.data.map fun d => d.modify (fromId - 1) ({ · with fromId, toId }) }

/-- `add_tag_group`, with the length the table is forced to before. -/
def addTagGroup (tab : GroupTable) (id : Nat) (name : Bytes) : Option GroupTable :=
  (synAddGroup { tab with len := id - 1 } name).map fun (id, tab) =>
    if 0 < id then linkGroup tab id id else tab

/-- The groups of `syntax_init`, in the order of their ids. -/
def tagGroups : List Bytes :=
  [bytes "Tag", bytes "Comment", bytes "String", bytes "Keyword", bytes "Function",
    bytes "AttrName"]

/-- The part of `syntax_init` that fills the table. -/
def initGroups (tab : GroupTable) : Option GroupTable :=
  (tagGroups.zipIdx 1).foldlM (fun tab e => addTagGroup tab e.2 e.1) tab

/-- `free_highlight`. -/
def freeHighlight (tab : GroupTable) : GroupTable := tab.clear

end HapAndroid.Highlight
