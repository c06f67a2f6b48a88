import HapAndroid.Platform.Files

/-!
# Shared preferences

The preference store of the application: a finite map from keys to typed
values.  The keys are kept in a list that covers the map, so a loop over
numbered keys that stops at the first absent one can be given a bound.

Reading a value under another type than it was stored with throws.  This can
happen: the dialog that deletes a mode stores a text under the name of the mode,
and the name may be the key of a number or a flag.  `getBoolean` and `getInt` are
`none` then.  `getString` needs no such case: numbers and flags are only stored
under keys that are read as numbers and flags.
-/

namespace HapAndroid

/-- A stored value. -/
inductive Value where
  | str (s : Text)
  | bool (b : Bool)
  | int (n : Int)
deriving DecidableEq

/-- A preference store. -/
structure Prefs where
  /-- The value under a key. -/
  get : Text → Option Value
  /-- A list that covers the keys. -/
  keys : List Text
  mem_keys : ∀ {k : Text}, get k ≠ none → k ∈ keys

namespace Prefs

/-- The empty store. -/
def empty : Prefs := ⟨fun _ => none, [], fun h => absurd rfl h⟩

/-- Store a value and commit. -/
def put (sp : Prefs) (k : Text) (v : Value) : Prefs where
  get q := if q = k then some v else sp.get q
  keys := k :: sp.keys
  mem_keys := by
    intro q hq
    by_cases h : q = k
    · exact h ▸ List.mem_cons_self ..
    · rw [if_neg h] at hq
      exact List.mem_cons_of_mem _ (sp.mem_keys hq)

/-- `sp.edit().putString(k, s).commit()`. -/
def putString (sp : Prefs) (k s : Text) : Prefs := sp.put k (.str s)

/-- `sp.edit().putBoolean(k, b).commit()`. -/
def putBoolean (sp : Prefs) (k : Text) (b : Bool) : Prefs := sp.put k (.bool b)

/-- `sp.edit().putInt(k, n).commit()`. -/
def putInt (sp : Prefs) (k : Text) (n : Int) : Prefs := sp.put k (.int n)

/-- `sp.getString(k, null)`. -/
def getString? (sp : Prefs) (k : Text) : Option Text :=
  match sp.get k with
  | some (.str s) => some s
  | _ => none

/-- `sp.getString(k, dflt)`. -/
def getString (sp : Prefs) (k dflt : Text) : Text := (sp.getString? k).getD dflt

/-- `sp.getBoolean(k, dflt)`, where `none` is the `ClassCastException`. -/
def getBoolean (sp : Prefs) (k : Text) (dflt : Bool) : Option Bool :=
  match sp.get k with
  | none => some dflt
  | some (.bool b) => some b
  | some _ => none

/-- `sp.getInt(k, dflt)`, where `none` is the `ClassCastException`. -/
def getInt (sp : Prefs) (k : Text) (dflt : Int) : Option Int :=
  match sp.get k with
  | none => some dflt
  | some (.int n) => some n
  | some _ => none

theorem get_put (sp : Prefs) (k : Text) (v : Value) (q : Text) :
    (sp.put k v).get q = if q = k then some v else sp.get q := rfl

theorem get_putString (sp : Prefs) (k s q : Text) :
    (sp.putString k s).get q = if q = k then some (.str s) else sp.get q := rfl

@[simp] theorem getString?_putString_self (sp : Prefs) (k s : Text) :
    (sp.putString k s).getString? k = some s := by
  simp [getString?, get_putString]

theorem getString?_putString_of_ne (sp : Prefs) {k q : Text} (s : Text) (h : q ≠ k) :
    (sp.putString k s).getString? q = sp.getString? q := by
  simp [getString?, get_putString, h]

theorem getString?_put_of_ne (sp : Prefs) {k q : Text} (v : Value) (h : q ≠ k) :
    (sp.put k v).getString? q = sp.getString? q := by
  simp [getString?, get_put, h]

@[simp] theorem getString_putString_self (sp : Prefs) (k s dflt : Text) :
    (sp.putString k s).getString k dflt = s := by
  simp [getString]

theorem getString_putString_of_ne (sp : Prefs) {k q : Text} (s dflt : Text) (h : q ≠ k) :
    (sp.putString k s).getString q dflt = sp.getString q dflt := by
  simp [getString, getString?_putString_of_ne sp s h]

theorem getString_putBoolean_of_ne (sp : Prefs) {k q : Text} (b : Bool) (dflt : Text) (h : q ≠ k) :
    (sp.putBoolean k b).getString q dflt = sp.getString q dflt := by
  rw [getString, putBoolean, getString?_put_of_ne sp _ h, getString]

theorem mem_keys_of_getString? {sp : Prefs} {k s : Text} (h : sp.getString? k = some s) :
    k ∈ sp.keys := by
  refine sp.mem_keys fun hn => ?_
  simp [getString?, hn] at h

end Prefs

end HapAndroid
