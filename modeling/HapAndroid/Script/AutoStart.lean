import HapAndroid.Byml.Receiver

/-!
# The auto-start selection

The dialog prints the chosen scripts as shell text and the receiver parses it
back.  The printer is a concatenation of blocks, one per script, and every block
ends its lines with a line feed.  Neither the regular expression nor `.sh` matches
a line feed, so a match lies within one line.  This gives what the receiver finds
for any list of scripts whose names do not match the regular expression
(`bootNames_blocks`): each script is cut on its own.
-/

namespace HapAndroid

/-! ## One piece -/

/-- No match of the regular expression spans a line feed. -/
theorem barrier_shDot : Pattern.Barrier shDot '\n' := by
  unfold Pattern.Barrier
  simp [shDot, Pattern.literal, isLineTerminator]

theorem barrier_dotSh : Pattern.Barrier (Pattern.literal dotSh) '\n' := by
  unfold Pattern.Barrier
  simp [dotSh, Pattern.literal]

theorem shDot_ne_nil : shDot ≠ [] := by simp [shDot, Pattern.literal]

theorem occurs_shDot_newline (a b : Text) :
    Pattern.occurs shDot (a ++ '\n' :: b) = (Pattern.occurs shDot a || Pattern.occurs shDot b) :=
  Pattern.occurs_barrier barrier_shDot shDot_ne_nil a b

/-- A line after the first counts only if `.sh` occurs in it. -/
theorem scriptName_newline (x : Text) {w : Text} (hw : containsText w dotSh = false) :
    scriptName (x ++ '\n' :: w) = scriptName x := by
  have hindex : indexOf (x ++ '\n' :: w) dotSh = indexOf x dotSh := by
    have hrest : Pattern.indexOf? (Pattern.literal dotSh) w = none := indexOf_eq_none_iff.mpr hw
    rw [indexOf, Pattern.indexOf?_barrier barrier_dotSh (by decide), hrest, indexOf]
    cases Pattern.indexOf? (Pattern.literal dotSh) x with
    | none => rfl
    | some k => rfl
  rw [scriptName, scriptName, hindex]
  split
  · next k hk =>
    -- The match ends inside the first line.
    obtain ⟨a, b, rfl, hlen, hb⟩ := Pattern.indexOf?_eq_some hk
    obtain ⟨t, rfl⟩ := Pattern.matchesAt_literal_iff.mp hb
    rw [List.take_append_of_le_length]
    simp only [List.length_append, hlen]
    have hdot : dotSh.length = 3 := rfl
    omega
  · rfl

/-- A name that is cut to itself has its first `.sh` at its end. -/
theorem scriptName_eq_self_iff {x : Text} :
    scriptName x = some x ↔ 3 < x.length ∧ indexOf x dotSh = some (x.length - 3) := by
  constructor
  · intro h
    rw [scriptName] at h
    split at h
    · next k hk =>
      obtain ⟨a, b, hab, hlen, hb⟩ := Pattern.indexOf?_eq_some hk
      obtain ⟨t, rfl⟩ := Pattern.matchesAt_literal_iff.mp hb
      have hdot : dotSh.length = 3 := rfl
      have hx : x.length = k + 1 + (3 + t.length) := by simp [hab, hlen, hdot]
      have htake := congrArg List.length (Option.some.inj h)
      rw [List.length_take] at htake
      refine ⟨by omega, hk.trans (congrArg some ?_)⟩
      omega
    · cases h
  · rintro ⟨hlen, hindex⟩
    obtain ⟨k, hk⟩ : ∃ k, x.length = k + 1 + 3 := ⟨x.length - 4, by omega⟩
    rw [hk, Nat.add_sub_cancel] at hindex
    rw [scriptName, hindex]
    simp only [← hk, List.take_length]

theorem scriptName_prefix {x y : Text} (h : scriptName x = some y) : y <+: x := by
  rw [scriptName] at h
  split at h
  · cases h
    exact List.take_prefix _ _
  · cases h

/-! ## The whole text -/

/-- The first line of a block. -/
def cdLine (filePath : Text) : Text := ("cd " : Text) ++ filePath ++ ("/mode" : Text)

/-- A directory the receiver does not take for a script. -/
def PlainPath (filePath : Text) : Prop :=
  Pattern.occurs shDot (cdLine filePath) = false ∧ containsText (cdLine filePath) dotSh = false

instance (filePath : Text) : Decidable (PlainPath filePath) :=
  inferInstanceAs (Decidable (_ ∧ _))

theorem startBlock_eq (filePath name : Text) :
    startBlock filePath name =
      '\n' :: (cdLine filePath ++ '\n' :: (("sh ./" : Text) ++ (name ++ ['\n']))) := by
  have hlist : ∀ cd mode sh : Text,
      '\n' :: cd ++ filePath ++ (mode ++ '\n' :: sh) ++ name ++ ['\n'] =
        '\n' :: ((cd ++ filePath ++ mode) ++ '\n' :: (sh ++ (name ++ ['\n']))) := by
    intro cd mode sh
    simp
  exact hlist "cd " "/mode" "sh ./"

/-- The text of some scripts. -/
def blocks (filePath : Text) (names : List Text) : Text := names.flatMap (startBlock filePath)

theorem splitText_filterMap (st : Text) :
    (splitText shDot st).filterMap scriptName = (Pattern.split shDot st).filterMap scriptName := by
  rw [splitText]
  induction Pattern.split shDot st using List.reverseRecOn with
  | nil => rfl
  | append_singleton l x ih =>
      cases x with
      | nil =>
          rw [List.rdropWhile_concat_pos _ _ _ rfl, ih, List.filterMap_append]
          exact (List.append_nil _).symm
      | cons c x => rw [List.rdropWhile_concat_neg _ _ _ (by simp)]

/-- Each script of the text is cut on its own, after a piece `u` in front. -/
theorem split_blocks {filePath : Text} (hpath : PlainPath filePath) (names : List Text)
    (hnames : ∀ x ∈ names, Pattern.occurs shDot x = false) :
    ∀ {u : Text}, Pattern.occurs shDot u = false →
      (Pattern.split shDot (u ++ blocks filePath names)).filterMap scriptName =
        (scriptName u).toList ++ names.filterMap scriptName := by
  induction names with
  | nil =>
      intro u hu
      rw [blocks, List.flatMap_nil, List.append_nil, Pattern.split_of_not_occurs hu]
      cases hs : scriptName u with
      | none => simp [hs]
      | some y => simp [hs]
  | cons x names ih =>
      intro u hu
      have hx : Pattern.occurs shDot (x ++ ['\n']) = false := by
        rw [occurs_shDot_newline, hnames x (List.mem_cons_self ..)]
        rfl
      have hfront : Pattern.occurs shDot (u ++ '\n' :: cdLine filePath) = false := by
        rw [occurs_shDot_newline, hu, hpath.1]
        rfl
      have htext : u ++ blocks filePath (x :: names) =
          (u ++ '\n' :: cdLine filePath) ++
            '\n' :: (("sh ./" : Text) ++ ((x ++ ['\n']) ++ blocks filePath names)) := by
        simp [blocks, startBlock_eq]
      have hcut : scriptName ((u ++ '\n' :: cdLine filePath) ++ ['\n']) = scriptName u := by
        rw [scriptName_newline _ rfl, scriptName_newline _ hpath.2]
      have htail := ih (fun y hy => hnames y (List.mem_cons_of_mem _ hy)) hx
      rw [scriptName_newline x rfl] at htail
      rw [htext, Pattern.split_barrier barrier_shDot shDot_ne_nil _ hfront rfl rfl]
      simp only [List.filterMap_eq_flatMap_toList, List.flatMap_cons, hcut] at htail ⊢
      rw [htail]

theorem hasScript_blocks (filePath x : Text) (names : List Text) :
    hasScript (blocks filePath (x :: names)) = true := by
  have htext : blocks filePath (x :: names) =
      '\n' :: ((cdLine filePath ++ ['\n']) ++ ("sh ./" : Text) ++
        (x ++ '\n' :: blocks filePath names)) := by
    simp [blocks, startBlock_eq]
  have hfound : containsText ((cdLine filePath ++ ['\n']) ++ ("sh ./" : Text) ++
      (x ++ '\n' :: blocks filePath names)) ("sh ./" : Text) = true := containsText_append _ _ _
  obtain ⟨k, hk⟩ := Option.isSome_iff_exists.mp hfound
  rw [htext, hasScript, indexOf, Pattern.indexOf?, hk]
  rfl

/-- What the receiver finds in the text of some scripts. -/
theorem bootNames_blocks {filePath : Text} (hpath : PlainPath filePath) {names : List Text}
    (hnames : ∀ x ∈ names, Pattern.occurs shDot x = false) :
    bootNames (blocks filePath names) = names.filterMap scriptName := by
  cases names with
  | nil => rfl
  | cons x names =>
      rw [bootNames, if_pos (hasScript_blocks filePath x names), splitText_filterMap]
      exact split_blocks hpath (x :: names) hnames (u := []) rfl

/-- The regular expression matches in no script the receiver finds. -/
theorem not_occurs_of_mem_bootNames {st y : Text} (h : y ∈ bootNames st) :
    Pattern.occurs shDot y = false := by
  rw [bootNames] at h
  split at h
  · rw [splitText_filterMap] at h
    obtain ⟨piece, hpiece, hy⟩ := List.mem_filterMap.mp h
    obtain ⟨t, ht⟩ := scriptName_prefix hy
    have hnone := Pattern.not_occurs_of_mem_split shDot_ne_nil hpiece
    rw [← ht] at hnone
    by_contra hocc
    rw [Pattern.occurs_append_left (Bool.of_not_eq_false hocc) t] at hnone
    cases hnone
  · cases h

theorem filterMap_eq_self_iff {α : Type} {f : α → Option α} {l : List α} :
    l.filterMap f = l ↔ ∀ x ∈ l, f x = some x := by
  induction l with
  | nil => simp
  | cons x l ih =>
      rw [List.forall_mem_cons, ← ih]
      cases hx : f x with
      | none =>
          -- One element is lost, so the list is shorter.
          have hlen := List.length_filterMap_le f l
          constructor
          · intro h
            rw [List.filterMap_cons_none hx] at h
            rw [h, List.length_cons] at hlen
            omega
          · rintro ⟨h, -⟩
            cases h
      | some y => rw [List.filterMap_cons_some hx, List.cons.injEq, Option.some.injEq]

/-- A name the receiver reads back: the regular expression does not match in it,
and its first `.sh` is at its end and not at its front. -/
def SurvivesCut (name : Text) : Prop :=
  Pattern.occurs shDot name = false ∧ 3 < name.length ∧
    indexOf name dotSh = some (name.length - 3)

instance (name : Text) : Decidable (SurvivesCut name) :=
  inferInstanceAs (Decidable (_ ∧ _ ∧ _))

/-- The receiver reads back exactly the lists of such names. -/
theorem bootNames_blocks_eq_iff {filePath : Text} (hpath : PlainPath filePath)
    {names : List Text} :
    bootNames (blocks filePath names) = names ↔ ∀ x ∈ names, SurvivesCut x := by
  constructor
  · intro h
    have hnames : ∀ x ∈ names, Pattern.occurs shDot x = false := by
      intro x hx
      rw [← h] at hx
      exact not_occurs_of_mem_bootNames hx
    rw [bootNames_blocks hpath hnames, filterMap_eq_self_iff] at h
    exact fun x hx => ⟨hnames x hx, scriptName_eq_self_iff.mp (h x hx)⟩
  · intro h
    rw [bootNames_blocks hpath fun x hx => (h x hx).1, filterMap_eq_self_iff]
    exact fun x hx => scriptName_eq_self_iff.mpr (h x hx).2

/-! ## The dialog and the receiver -/

/-- The scripts the check boxes select, by the files their buttons run. -/
def selected (sp : Prefs) (cft cdiy1 : Bool) : List Text :=
  (if cft then [Button.pstart.runName sp] else []) ++
    (if cdiy1 then [Button.diy1.runName sp] else [])

/-- The dialog stores the text of the selected scripts. -/
theorem sshell_enableAutoStart {filePath estart : Text} {cft cdiy1 : Bool} {sp sp' : Prefs}
    (h : enableAutoStart filePath estart cft cdiy1 sp = some sp') :
    sshell sp' = blocks filePath (selected sp cft cdiy1) := by
  rw [enableAutoStart] at h
  split at h
  · cases h
  · cases h
    rw [sshell, Prefs.getString_putBoolean_of_ne _ _ _ (by decide), Prefs.getString_putString_self,
      Prefs.getString_putBoolean_of_ne _ _ _ (by decide),
      Prefs.getString_putBoolean_of_ne _ _ _ (by decide),
      Prefs.getString_putBoolean_of_ne _ _ _ (by decide)]
    have hbox : ∀ (c : Bool) (n : Text),
        (if c then [n] else []).flatMap (startBlock filePath) =
          if c then startBlock filePath n else [] := by
      intro c n
      cases c with
      | false => rfl
      | true => exact List.append_nil _
    rw [blocks, selected, List.flatMap_append, hbox, hbox]
    rfl

/-- The receiver finds exactly the selected scripts, in their order, when and
only when each of their names survives the cut. -/
theorem selection_survives_iff {filePath estart : Text} {cft cdiy1 : Bool} {sp sp' : Prefs}
    (hpath : PlainPath filePath) (h : enableAutoStart filePath estart cft cdiy1 sp = some sp') :
    bootNames (sshell sp') = selected sp cft cdiy1 ↔
      ∀ name ∈ selected sp cft cdiy1, SurvivesCut name := by
  rw [sshell_enableAutoStart h]
  exact bootNames_blocks_eq_iff hpath

/-- The directory of the application. -/
def filesDir : Text := "/data/data/com.hap.byml/files"

/-- Both scripts under their default names. -/
theorem selection_survives_defaults :
    (enableAutoStart filesDir "cd /" true true .empty).map (fun sp => bootNames (sshell sp)) =
      some ["pstart.sh".toList, "自定义①.sh".toList] := by
  have h := (@selection_survives_iff filesDir "cd /" true true .empty _ (by decide +kernel)
    rfl).mpr (by decide +kernel)
  exact congrArg some h

/-- A user's script called `a.sh` is the file `a.sh.sh`, and `a.sh` is run in its
place. -/
theorem selection_cut_short :
    (enableAutoStart filesDir "cd /" false true (Prefs.empty.putString "sh_diy1" "a.sh")).map
        (fun sp => bootNames (sshell sp)) = some ["a.sh".toList] ∧
      selected (Prefs.empty.putString "sh_diy1" "a.sh") false true = ["a.sh.sh".toList] := by
  decide +kernel

end HapAndroid
