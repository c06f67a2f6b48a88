import HapAndroid.Platform.Preferences

/-!
# `SuperUser.getuid` and `SuperUser.replace_code`

Templates and scripts hold placeholders such as `[p_ip]`.  `replaceCode` goes
through a fixed list of them and replaces one after the other, the last three
by the uids `getuid` finds in the package table.
-/

namespace HapAndroid

/-- What the modelled code asks an Android context for. -/
structure Context where
  /-- The name of the application's own package. -/
  packageName : Text
  /-- The uid of a package.  Looking up an absent package throws. -/
  uidOf : Text → Option Int

/-- The context with no package installed. -/
def Context.bare : Context := ⟨"com.hap.byml", fun _ => none⟩

namespace SuperUser

def version : Text := "1.4.5"

/-- The loop of `getuid`.  The first package that is not found ends it with
`-1` in its place, and the places after it keep their initial `0`. -/
def uidsFrom (con : Context) : List Text → List Int
  | [] => []
  | p :: ps =>
      match con.uidOf p with
      | some u => u :: uidsFrom con ps
      | none => -1 :: ps.map fun _ => 0

/-- The uids of the application and of the two QQ packages. -/
def getuid (con : Context) : List Int :=
  uidsFrom con [con.packageName, "com.tencent.mobileqq", "com.tencent.qqlite"]

theorem length_uidsFrom (con : Context) : ∀ ps : List Text, (uidsFrom con ps).length = ps.length
  | [] => rfl
  | p :: ps => by
      rw [uidsFrom]
      split
      · rw [List.length_cons, length_uidsFrom con ps, List.length_cons]
      · simp

/-- The placeholders, in the order they are replaced. -/
def codes : List Text :=
  ["p_ip", "p_port", "localport", "p_host1", "p_host2", "myuid", "qquid", "qqluid"]

/-- The values of the placeholders. -/
def codeValues (con : Context) (sp : Prefs) : List Text :=
  [sp.getString "p_ip" "10.0.0.172", sp.getString "p_port" "80",
    sp.getString "localport" "8787", sp.getString "p_host1" "byml.net",
    sp.getString "p_host2" "byml.net"] ++ (getuid con).map fun u => (toString u).toList

/-- Every placeholder has a value. -/
theorem length_codeValues (con : Context) (sp : Prefs) :
    (codeValues con sp).length = codes.length := by
  simp [codeValues, codes, getuid, length_uidsFrom]

/-- `str.replace("[" + code + "]", value)`. -/
def replaceOne (str : Text) (cv : Text × Text) : Text :=
  Pattern.replace (Pattern.literal ('[' :: cv.1 ++ [']'])) cv.2 str

/-- Replace the placeholders of a text, one after the other. -/
def replaceCode (con : Context) (str : Text) (sp : Prefs) : Text :=
  (codes.zip (codeValues con sp)).foldl replaceOne str

end SuperUser

end HapAndroid
