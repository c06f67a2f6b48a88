import HapAndroid.Lib.Substitution
import HapAndroid.Script.AntiLeak
import HapAndroid.Tool.SuperUser

/-!
# What the placeholders become

`replaceCode` makes eight passes, each over the text the pass before has left.
The first part compares that with one pass over the template: the two agree, and
no pass touches text that is not of the template, exactly if no value completes a
placeholder of a later pass.

The second part is about the three uids.  One `try` is around the loop of
`getuid`, so the first package that is absent decides the places after it as
well, and the `0` left in them passes in `pstart.sh` for the uid of an installed
program.
-/

namespace HapAndroid.SuperUser

open Pattern (literal)

/-! ## Eight passes or one -/

/-- A placeholder as it stands in a template. -/
def placeholder (code : Text) : Text := '[' :: code ++ [']']

/-- The placeholders with their values. -/
def table (con : Context) (sp : Prefs) : List (Text × Text) :=
  (codes.zip (codeValues con sp)).map fun cv => (placeholder cv.1, cv.2)

/-- The text after some of the passes. -/
def afterPasses (con : Context) (str : Text) (sp : Prefs) (k : Nat) : Text :=
  ((codes.zip (codeValues con sp)).take k).foldl replaceOne str

/-- Each placeholder of the template has become its value, and each pass has found
as many placeholders as the template has. -/
structure Simultaneous (con : Context) (str : Text) (sp : Prefs) : Prop where
  result : replaceCode con str sp = Pattern.substitute (table con sp) str
  passes : ∀ k code, codes[k]? = some code →
    Pattern.count (literal (placeholder code)) (afterPasses con str sp k) =
      Pattern.count (literal (placeholder code)) str

/-- The earlier values complete no placeholder: where they are filled in between the
occurrences of a placeholder, it does not arise. -/
def NoneArises (con : Context) (str : Text) (sp : Prefs) : Prop :=
  ∀ k code, codes[k]? = some code → ∀ u ∈ Pattern.split (literal (placeholder code)) str,
    Pattern.occurs (literal (placeholder code))
      (Pattern.substitute ((table con sp).take k) u) = false

section passes
variable (con : Context) (str : Text) (sp : Prefs)

theorem afterPasses_eq (k : Nat) :
    afterPasses con str sp k = Pattern.successive ((table con sp).take k) str := by
  rw [afterPasses, Pattern.successive, table, ← List.map_take, List.foldl_map]
  rfl

theorem replaceCode_eq : replaceCode con str sp = Pattern.successive (table con sp) str := by
  rw [replaceCode, Pattern.successive, table, List.foldl_map]
  rfl

theorem map_fst_table : (table con sp).map Prod.fst = codes.map placeholder := by
  have hzip : (codes.zip (codeValues con sp)).map Prod.fst = codes :=
    List.map_fst_zip (Nat.le_of_eq (length_codeValues con sp).symm)
  calc (table con sp).map Prod.fst
      = ((codes.zip (codeValues con sp)).map Prod.fst).map placeholder := by
        rw [table, List.map_map, List.map_map]
        rfl
    _ = codes.map placeholder := by rw [hzip]

theorem delimited_placeholder : ∀ code ∈ codes, Pattern.Delimited '[' ']' (placeholder code) := by
  intro code hcode
  have hmarks : ∀ code ∈ codes, '[' ∉ code ∧ ']' ∉ code := by decide
  exact ⟨by decide, code, rfl, hmarks code hcode⟩

theorem delimited_table : ∀ e ∈ table con sp, Pattern.Delimited '[' ']' e.1 := by
  intro e he
  have hmem : e.1 ∈ codes.map placeholder :=
    map_fst_table con sp ▸ List.mem_map_of_mem he
  obtain ⟨code, hcode, heq⟩ := List.mem_map.mp hmem
  exact heq ▸ delimited_placeholder code hcode

theorem nodup_table : ((table con sp).map Prod.fst).Nodup := by
  rw [map_fst_table]
  decide

/-- What holds of each entry and the entries before it, said of the placeholders. -/
theorem forall_table {P : List (Text × Text) → Text → Prop} :
    (∀ t e, t ++ [e] <+: table con sp → P t e.1) ↔
      ∀ k code, codes[k]? = some code → P ((table con sp).take k) (placeholder code) := by
  have hget : ∀ k, (table con sp)[k]?.map Prod.fst = codes[k]?.map placeholder := fun k => by
    rw [← List.getElem?_map, map_fst_table, List.getElem?_map]
  constructor
  · intro h k code hcode
    have hk := hget k
    rw [hcode] at hk
    obtain ⟨e, he, hfst⟩ := Option.map_eq_some_iff.mp hk
    have hpre : (table con sp).take k ++ [e] <+: table con sp := by
      have htake : (table con sp).take (k + 1) = (table con sp).take k ++ [e] := by
        rw [List.take_add_one, he, Option.toList_some]
      exact htake ▸ List.take_prefix _ _
    exact hfst ▸ h _ e hpre
  · rintro h t e ⟨rest, hrest⟩
    have he : (table con sp)[t.length]? = some e := by
      rw [← hrest]
      simp
    have hk := hget t.length
    rw [he] at hk
    obtain ⟨code, hcode, hfst⟩ := Option.map_eq_some_iff.mp hk.symm
    have := h t.length code hcode
    rwa [hfst, ← hrest, List.append_assoc, List.take_left] at this

/-- The passes are simultaneous exactly if no placeholder arises. -/
theorem replaceCode_simultaneous_iff : Simultaneous con str sp ↔ NoneArises con str sp := by
  have hinert : Pattern.Inert (table con sp) str ↔ NoneArises con str sp :=
    forall_table con sp (P := fun t w => ∀ u ∈ Pattern.split (literal w) str,
      Pattern.occurs (literal w) (Pattern.substitute t u) = false)
  have hmatches : Pattern.SameMatches (table con sp) str ↔
      ∀ k code, codes[k]? = some code →
        Pattern.count (literal (placeholder code)) (afterPasses con str sp k) =
          Pattern.count (literal (placeholder code)) str := by
    simp only [afterPasses_eq]
    exact forall_table con sp (P := fun t w =>
      Pattern.count (literal w) (Pattern.successive t str) = Pattern.count (literal w) str)
  have hiff := Pattern.sameMatches_iff_inert (delimited_table con sp) (nodup_table con sp) str
  rw [← hinert]
  constructor
  · intro h
    exact hiff.mp (hmatches.mpr h.passes)
  · intro h
    refine ⟨?_, hmatches.mp (hiff.mpr h)⟩
    rw [replaceCode_eq]
    exact Pattern.successive_eq_substitute (delimited_table con sp) (nodup_table con sp) h

end passes

/-- A store in which the address is the placeholder of the port. -/
def portAsAddress : Prefs := Prefs.empty.putString "p_ip" "[p_port]"

/-- A template that asks for the address gets the port. -/
theorem replaceCode_not_simultaneous :
    replaceCode .bare "[p_ip]" portAsAddress = "80".toList ∧
      Pattern.substitute (table .bare portAsAddress) "[p_ip]".toList = "[p_port]".toList ∧
      ¬ Simultaneous .bare "[p_ip]" portAsAddress := by
  have hgot : replaceCode .bare "[p_ip]" portAsAddress = "80".toList := by decide +kernel
  have hwant : Pattern.substitute (table .bare portAsAddress) "[p_ip]".toList =
      "[p_port]".toList := by decide +kernel
  refine ⟨hgot, hwant, fun h => ?_⟩
  have hres := h.result
  rw [hgot] at hres
  exact absurd (hres.trans hwant) (by decide)

/-! ## The uids -/

/-- The packages `getuid` looks for. -/
def packages (con : Context) : List Text :=
  [con.packageName, "com.tencent.mobileqq", "com.tencent.qqlite"]

/-- The uid of a package, and -1 if it is absent. -/
def uidOrAbsent (con : Context) (p : Text) : Int := (con.uidOf p).getD (-1)

/-- The script with the uids filled in at its head. -/
def withUids (con : Context) (s : AntiLeak.Settings) : AntiLeak.Settings :=
  { s with u_qq := (getuid con).getD 1 0, u_qql := (getuid con).getD 2 0 }

/-- A command that exempts a user from the redirects on some port. -/
def Exempts (u : Int) (e : RuleChain.Edit AntiLeak.Chain AntiLeak.Rule) : Prop :=
  ∃ proto port, e = .insert AntiLeak.natOutput
    ⟨[.protocol proto, .dport port, .uidOwner u], .accept⟩

/-- Each uid is that of its own package, the placeholders get them, and the script
exempts installed chat programs only. -/
structure UidsIndependent (con : Context) (sp : Prefs) (s : AntiLeak.Settings) : Prop where
  uids : getuid con = (packages con).map (uidOrAbsent con)
  values : ∀ i p, (packages con)[i]? = some p →
    (codeValues con sp)[i + 5]? = some (toString (uidOrAbsent con p)).toList
  exempt : ∀ e ∈ AntiLeak.Settings.acceptChat (withUids con s).u_qq ++
      AntiLeak.Settings.acceptChat (withUids con s).u_qql,
    ∃ p ∈ ["com.tencent.mobileqq".toList, "com.tencent.qqlite".toList],
      ∃ u, con.uidOf p = some u ∧ Exempts u e

/-- Only packages with the uid 0 come after an absent one. -/
def RootAfterAbsent (con : Context) : Prop :=
  (packages con).Pairwise fun p q => con.uidOf p = none → con.uidOf q = some 0

theorem uidsFrom_eq_iff (con : Context) (ps : List Text) :
    uidsFrom con ps = ps.map (uidOrAbsent con) ↔
      ps.Pairwise fun p q => con.uidOf p = none → con.uidOf q = some 0 := by
  induction ps with
  | nil => simp [uidsFrom]
  | cons p ps ih =>
      rw [List.pairwise_cons, List.map_cons, uidsFrom]
      cases hp : con.uidOf p with
      | some u => simp [uidOrAbsent, hp, ih]
      | none =>
          have hzero : ∀ q, (0 : Int) = uidOrAbsent con q ↔ con.uidOf q = some 0 := by
            intro q
            cases hq : con.uidOf q with
            | none => simp [uidOrAbsent, hq]
            | some v => simp [uidOrAbsent, hq, eq_comm]
          have hrest : (∀ q ∈ ps, con.uidOf q = some 0) →
              ps.Pairwise fun p q => con.uidOf p = none → con.uidOf q = some 0 := fun h =>
            List.pairwise_of_forall_mem_list fun _ _ q hq _ => h q hq
          have hself : uidOrAbsent con p = -1 := by rw [uidOrAbsent, hp, Option.getD_none]
          rw [hself, List.cons.injEq, List.map_inj_left]
          simp only [true_and, hzero, forall_const]
          exact ⟨fun h => ⟨h, hrest h⟩, And.left⟩

/-- The section of a chat program exempts it if it is installed, and nobody else. -/
theorem acceptChat_uidOrAbsent {con : Context} {p : Text}
    {e : RuleChain.Edit AntiLeak.Chain AntiLeak.Rule}
    (he : e ∈ AntiLeak.Settings.acceptChat (uidOrAbsent con p)) :
    ∃ u, con.uidOf p = some u ∧ Exempts u e := by
  rw [AntiLeak.Settings.acceptChat] at he
  split at he
  · next hne =>
    obtain ⟨⟨proto, port⟩, -, rfl⟩ := List.mem_map.mp he
    cases hp : con.uidOf p with
    | none => simp [uidOrAbsent, hp] at hne
    | some u => exact ⟨u, rfl, proto, port, by simp [uidOrAbsent, hp]⟩
  · cases he

/-- A number is written without brackets. -/
theorem bracket_not_mem_toString (u : Int) : '[' ∉ (toString u).toList := by
  have hdigits : ∀ n : Nat, '[' ∉ (Nat.repr n).toList := by
    intro n h
    rw [Nat.repr, String.toList_ofList] at h
    exact absurd (Nat.isDigit_of_mem_toDigits (by decide) (by decide) h) (by decide)
  cases u with
  | ofNat n => exact hdigits n
  | negSucc n =>
      show '[' ∉ ("-" ++ Nat.repr (n + 1)).toList
      rw [String.toList_append, List.mem_append]
      rintro (h | h)
      · exact absurd h (by decide)
      · exact hdigits _ h

/-- One pass as a table of one entry. -/
theorem replaceOne_eq (str : Text) (cv : Text × Text) :
    replaceOne str cv = Pattern.substitute [(placeholder cv.1, cv.2)] str :=
  Pattern.replace_eq_substitute ..

theorem delimited_singleton {cv : Text × Text} (hcv : cv.1 ∈ codes) :
    ∀ e ∈ [(placeholder cv.1, cv.2)], Pattern.Delimited '[' ']' e.1 := by
  simpa using delimited_placeholder _ hcv

/-- Passes over a text without brackets change nothing. -/
theorem foldl_replaceOne_plain {str : Text} (h : '[' ∉ str) {cvs : List (Text × Text)}
    (hcvs : ∀ cv ∈ cvs, cv.1 ∈ codes) : cvs.foldl replaceOne str = str := by
  induction cvs with
  | nil => rfl
  | cons cv cvs ih =>
      obtain ⟨hcv, hcvs⟩ := List.forall_mem_cons.mp hcvs
      rw [List.foldl_cons, replaceOne_eq, Pattern.substitute_plain (delimited_singleton hcv) h]
      exact ih hcvs

/-- Passes over a line that ends with a placeholder fill in its value. -/
theorem foldl_replaceOne_line {line code v : Text} (hline : '[' ∉ line) (hv : '[' ∉ v)
    (hcode : code ∈ codes) {cvs : List (Text × Text)} (hcvs : ∀ cv ∈ cvs, cv.1 ∈ codes)
    (hmem : (code, v) ∈ cvs) (hnodup : (cvs.map Prod.fst).Nodup) :
    cvs.foldl replaceOne (line ++ placeholder code) = line ++ v := by
  induction cvs with
  | nil => cases hmem
  | cons cv cvs ih =>
      obtain ⟨hcv, hrest⟩ := List.forall_mem_cons.mp hcvs
      obtain ⟨hnot, hnodup⟩ := List.nodup_cons.mp hnodup
      have hpass : replaceOne (line ++ placeholder code) cv =
          line ++ Pattern.textFor [(placeholder cv.1, cv.2)] (placeholder code) := by
        have hcut := Pattern.substitute_append (delimited_singleton hcv)
          (delimited_placeholder _ hcode) line []
        rw [Pattern.substitute_plain (delimited_singleton hcv) hline] at hcut
        have hnil : Pattern.substitute [(placeholder cv.1, cv.2)] [] = [] := rfl
        rwa [hnil, List.append_nil, List.append_nil, ← replaceOne_eq] at hcut
      rw [List.foldl_cons, hpass]
      rcases List.mem_cons.mp hmem with rfl | hmem
      · have hself : Pattern.textFor [(placeholder code, v)] (placeholder code) = v :=
          Pattern.textFor_concat (t := []) (by simp)
        rw [hself]
        exact foldl_replaceOne_plain (by simp [hline, hv]) hrest
      · have hne : placeholder cv.1 ≠ placeholder code := by
          intro heq
          have hcode' : cv.1 = code := by simpa [placeholder] using heq
          exact hnot (hcode' ▸ List.mem_map_of_mem hmem)
        rw [Pattern.textFor_of_not_mem (by simpa using hne)]
        exact ih hrest hmem hnodup

/-- The lines `u_qq=[qquid]` and `u_qql=[qqluid]` of the script get the numbers that
`withUids` has. -/
theorem replaceCode_assignments (con : Context) (sp : Prefs) (s : AntiLeak.Settings) :
    replaceCode con ("u_qq=".toList ++ placeholder "qquid") sp =
        "u_qq=".toList ++ (toString (withUids con s).u_qq).toList ∧
      replaceCode con ("u_qql=".toList ++ placeholder "qqluid") sp =
        "u_qql=".toList ++ (toString (withUids con s).u_qql).toList := by
  have hcvs : (codes.zip (codeValues con sp)).map Prod.fst = codes :=
    List.map_fst_zip (Nat.le_of_eq (length_codeValues con sp).symm)
  have hmem : ∀ cv ∈ codes.zip (codeValues con sp), cv.1 ∈ codes := fun cv h =>
    hcvs ▸ List.mem_map_of_mem h
  obtain ⟨a, b, c, huids⟩ : ∃ a b c, getuid con = [a, b, c] :=
    List.length_eq_three.mp (length_uidsFrom con _)
  have hzip : ("qquid".toList, (toString b).toList) ∈ codes.zip (codeValues con sp) ∧
      ("qqluid".toList, (toString c).toList) ∈ codes.zip (codeValues con sp) := by
    simp [codeValues, codes, huids]
  rw [withUids, huids]
  exact ⟨foldl_replaceOne_line (by decide) (bracket_not_mem_toString b) (by decide) hmem hzip.1
      (by rw [hcvs]; decide),
    foldl_replaceOne_line (by decide) (bracket_not_mem_toString c) (by decide) hmem hzip.2
      (by rw [hcvs]; decide)⟩

/-- The uids are resolved independently exactly if only packages with the uid 0 come
after an absent one. -/
theorem uids_independent_iff (con : Context) (sp : Prefs) (s : AntiLeak.Settings) :
    UidsIndependent con sp s ↔ RootAfterAbsent con := by
  constructor
  · intro h
    exact (uidsFrom_eq_iff con _).mp h.uids
  · intro h
    have huids : getuid con = (packages con).map (uidOrAbsent con) := (uidsFrom_eq_iff con _).mpr h
    refine ⟨huids, fun i p hp => ?_, fun e he => ?_⟩
    · have hdrop : (codeValues con sp)[i + 5]? =
          ((getuid con).map fun u => (toString u).toList)[i]? :=
        List.getElem?_append_right (Nat.le_add_left 5 i)
      rw [hdrop, huids, List.map_map, List.getElem?_map, hp]
      rfl
    · rw [withUids, huids] at he
      rcases List.mem_append.mp he with he | he
      · exact ⟨_, List.mem_cons_self .., acceptChat_uidOrAbsent he⟩
      · exact ⟨_, List.mem_cons_of_mem _ (List.mem_cons_self ..), acceptChat_uidOrAbsent he⟩

/-- A device with the small chat program and without the other. -/
def onlyQqlite : Context :=
  ⟨"com.hap.byml", fun p =>
    if p = "com.hap.byml".toList then some 10050
    else if p = "com.tencent.qqlite".toList then some 10051
    else none⟩

/-- The place of the small program is 0, its line of the script gets this number, and the script
exempts root. -/
theorem uids_not_independent :
    getuid onlyQqlite = [10050, -1, 0] ∧
      replaceCode onlyQqlite ("u_qql=".toList ++ placeholder "qqluid") .empty = "u_qql=0".toList ∧
      (∃ e ∈ AntiLeak.Settings.acceptChat (withUids onlyQqlite .shipped).u_qql, Exempts 0 e) ∧
      ¬ UidsIndependent onlyQqlite .empty .shipped := by
  have hgot : getuid onlyQqlite = [10050, -1, 0] := by decide +kernel
  refine ⟨hgot, ?_, ?_, fun h => ?_⟩
  · rw [(replaceCode_assignments onlyQqlite .empty .shipped).2, withUids, hgot]
    decide +kernel
  · rw [withUids, hgot]
    exact ⟨_, List.mem_cons_self .., .tcp, 14000, rfl⟩
  · have huids := h.uids
    rw [hgot] at huids
    exact absurd huids (by decide +kernel)

end HapAndroid.SuperUser
