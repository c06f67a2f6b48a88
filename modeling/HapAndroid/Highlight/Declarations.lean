import HapAndroid.Highlight.Document
import HapAndroid.Highlight.Lines
import HapAndroid.Highlight.Effects

/-!
# Syntax files that are written from declarations

A declaration says what a line of a syntax file is to do, and `Declaration.line` writes it as such a
line: keywords with a backslash before what would end them, values between delimiters that they
do not hold.  The texts in a declaration carry the proof that they can be written.

`loadConf_declared` says that the loader reads back what was written.  The tables are those of the
declarations one after the other, with the declarations of an included file in the place of the
include; and `records_declared` that these declarations and the text alone say what is recorded.
-/

namespace HapAndroid.Highlight

/-! ## Texts -/

/-- The bytes fit into one line. -/
def InLine (p : Bytes) : Prop := ∀ c ∈ p, c ≠ 0 ∧ c ≠ 0x0A

instance (p : Bytes) : Decidable (InLine p) := List.decidableBAll ..

/-- The name of a group or of a file: no blanks, and no sign that ends a command at its start. -/
structure Name where
  bytes : Bytes
  notEnd : endsExcmd bytes = false
  noBlank : ∀ c ∈ bytes, isBlank c = false
  inLine : InLine bytes

/-- A keyword, of any bytes of a line. -/
structure KeywordText where
  bytes : Bytes
  ne_nil : bytes ≠ []
  inLine : InLine bytes

/-- A value and the sign that it is written between. -/
structure Value where
  delimiter : UInt8
  text : Bytes
  notMem : delimiter ∉ text
  notWhite : isWhite delimiter = false
  inLine : InLine (delimiter :: text)

/-- A value for a key of a region. -/
structure Setting where
  key : Key
  value : Value
  known : key ≠ .match

/-- A line of a syntax file. -/
inductive Declaration where
  | comment (text : Bytes) (inLine : InLine text)
  | synCase (ignore : Bool)
  | synKeyword (group : Name) (words : List KeywordText)
  | synMatch (group : Name) (value : Value)
  | synRegion (group : Name) (settings : List Setting)
  | hiLink (group target : Name)
  | synInclude (file : Name)

/-! ## Writing -/

/-- A byte of a keyword; what would end the word or the command is quoted. -/
def escape (c : UInt8) : Bytes :=
  if isBlank c || c == 0x5C || c == 0x23 || c == 0x7C then [0x5C, c] else [c]

/-- A word of a line, and what follows. -/
def wordLine (w p : Bytes) : Bytes := w ++ 0x20 :: p

def KeywordText.written (w : KeywordText) : Bytes := 0x20 :: w.bytes.flatMap escape

def Value.quoted (v : Value) : Bytes := v.delimiter :: (v.text ++ [v.delimiter])

def Key.written : Key → Bytes
  | .start => bytes "start"
  | .skip => bytes "skip"
  | .end => bytes "end"
  | .end2 => bytes "end2"
  | .tag => bytes "tag"
  | .hg => bytes "hg"
  | .match => bytes "match"

def Setting.written (s : Setting) : Bytes := 0x20 :: (s.key.written ++ 0x3D :: s.value.quoted)

/-- The line of a declaration. -/
def Declaration.line : Declaration → Bytes
  | .comment text _ => 0x23 :: text
  | .synCase ignore =>
      wordLine (bytes "syn") (wordLine (bytes "case") (bytes (if ignore then "ignore" else "match")))
  | .synKeyword group words =>
      wordLine (bytes "syn") (wordLine (bytes "keyword")
        (group.bytes ++ words.flatMap KeywordText.written))
  | .synMatch group value =>
      wordLine (bytes "syn") (wordLine (bytes "match") (wordLine group.bytes value.quoted))
  | .synRegion group settings =>
      wordLine (bytes "syn") (wordLine (bytes "region")
        (group.bytes ++ settings.flatMap Setting.written))
  | .hiLink group target => wordLine (bytes "HiLink") (wordLine group.bytes target.bytes)
  | .synInclude file => wordLine (bytes "include") file.bytes

/-- The text of a file. -/
def written (ds : List Declaration) : Bytes := ds.flatMap fun d => d.line ++ [0x0A]

/-! ## Meaning -/

/-- The keys and texts of settings. -/
def Setting.entry (s : Setting) : Key × Bytes := (s.key, s.value.text)

/-- What a declaration does, if it is no include.  A region needs a start and an end, and a target
whose name starts with `NONE` is none. -/
def Declaration.effect : Declaration → Effect
  | .comment _ _ => .nothing
  | .synCase ignore => .setCase ignore
  | .synKeyword group words => .addKeywords group.bytes (words.map (·.bytes))
  | .synMatch group value => .addPattern group.bytes (SynPat.set CItem.zero .match value.text)
  | .synRegion group settings =>
      if (lastValue (settings.map Setting.entry) .start).isSome ∧
          (lastValue (settings.map Setting.entry) .end).isSome then
        .addPattern group.bytes (SynPat.setAll CItem.zero (settings.map Setting.entry))
      else .nothing
  | .hiLink group target =>
      .link group.bytes (if (bytes "NONE").isPrefixOf target.bytes then none else some target.bytes)
  | .synInclude _ => .nothing

/-- The tables after a declaration. -/
def Tables.declare (t : Tables) (d : Declaration) : Tables := t.apply d.effect

/-- A declaration, or the declarations of the file that it includes. -/
def Declaration.inline (load : Bytes → Option (List Declaration)) (conf : Bytes) :
    Declaration → Option (List Declaration)
  | .synInclude file => load (dirOf conf ++ file.bytes)
  | d => some [d]

/-- The declarations of a file, with those of the files that it includes in their places.  A file that
cannot be read has none. -/
def inlined (confs : Bytes → Option (List Declaration)) : Nat → Bytes → Option (List Declaration)
  | 0, _ => none
  | depth + 1, conf =>
      (((confs conf).getD []).mapM (Declaration.inline (inlined confs depth) conf)).map List.flatten

/-! ## Reading a line -/

/-- A word that `get_word` reads. -/
def IsWord (w : Bytes) : Prop := w ≠ [] ∧ w.all isKeyword = true

instance (w : Bytes) : Decidable (IsWord w) := inferInstanceAs (Decidable (_ ∧ _))

section
variable {p q w b : Bytes} {c : UInt8}

theorem wordLine_start (hw : IsWord w) :
    skipwhite (wordLine w p) = wordLine w p ∧ endsExcmd (wordLine w p) = false := by
  have hall : ∀ c : UInt8, isKeyword c = true → isWhite c = false ∧ c ∉ [0, 0x7C, 0x23, 0x0A] :=
    forall_byte (by decide +kernel)
  obtain ⟨c, w, rfl⟩ := List.exists_cons_of_ne_nil hw.1
  obtain ⟨hwhite, hend⟩ := hall c (List.all_eq_true.mp hw.2 c List.mem_cons_self)
  exact ⟨List.dropWhile_cons_of_neg (by simp [hwhite]), decide_eq_false hend⟩

theorem getWord_wordLine (hw : IsWord w) :
    getWord (wordLine w p) = (some w, skipwhite p) := by
  obtain ⟨hskip, hend⟩ := wordLine_start (p := p) hw
  have hall := List.all_eq_true.mp hw.2
  rw [getWord, hskip, if_neg (ne_true_of_eq_false hend), wordLine,
    List.takeWhile_append_of_pos hall, List.dropWhile_append_of_pos hall]
  simp [isKeyword, isAlpha, skipwhite, isWhite]

theorem headD_wordLine (hw : IsWord w) : (wordLine w p).headD 0 ≠ 0x23 := by
  intro hhead
  have hend := (wordLine_start (p := p) hw).2
  rw [endsExcmd, hhead] at hend
  cases hend

theorem readCommand_syn {type : Bytes} (hw : IsWord type) :
    readCommand (wordLine (bytes "syn") (wordLine type p)) =
      if type = bytes "case" then .synCase (skipwhite p)
      else if type = bytes "keyword" then .synKeyword (skipwhite p)
      else if type = bytes "region" then .synRegion (skipwhite p)
      else if type = bytes "match" then .synMatch (skipwhite p)
      else .skip := by
  rw [readCommand, if_neg (headD_wordLine (by decide)),
    getWord_wordLine (by decide), (wordLine_start hw).1]
  simp only [if_pos, getWord_wordLine hw]

theorem readCommand_hiLink :
    readCommand (wordLine (bytes "HiLink") p) = .hiLink (skipwhite p) := by
  rw [readCommand, if_neg (headD_wordLine (by decide)),
    getWord_wordLine (by decide)]
  rfl

theorem readCommand_include :
    readCommand (wordLine (bytes "include") p) = .synInclude (skipwhite p) := by
  rw [readCommand, if_neg (headD_wordLine (by decide)),
    getWord_wordLine (by decide)]
  rfl

theorem skipwhite_name (group : Name) : skipwhite (group.bytes ++ p) = group.bytes ++ p := by
  obtain ⟨bs, hend, hblank, -⟩ := group
  cases bs with
  | nil => cases hend
  | cons c bs =>
      have hc := hblank c List.mem_cons_self
      refine List.dropWhile_cons_of_neg ?_
      simp only [isBlank, Bool.or_eq_false_iff] at hc
      simp [hc.1]

/-- Behind a name the arguments start, at a blank. -/
theorem untilWhite_name (group : Name) (hp : ∀ c ∈ p.head?, isBlank c = true) :
    untilWhite (group.bytes ++ p) = group.bytes ∧ skiptowhite (group.bytes ++ p) = p := by
  have hall : ∀ c ∈ group.bytes, (!isBlank c) = true := fun c hc => by simp [group.noBlank c hc]
  rw [untilWhite, skiptowhite, List.takeWhile_append_of_pos hall, List.dropWhile_append_of_pos hall]
  cases p with
  | nil => simp
  | cons c p => simp [hp c rfl]

theorem endsExcmd_name (group : Name) : endsExcmd (group.bytes ++ p) = false := by
  obtain ⟨bs, hend, -⟩ := group
  cases bs with
  | nil => cases hend
  | cons c bs => exact hend

theorem getGroupName_name (group : Name) (hp : ∀ c ∈ p.head?, isBlank c = true)
    (hne : skipwhite p ≠ []) : getGroupName (group.bytes ++ p) = some (skipwhite p) := by
  refine getGroupName_eq_some_iff.mpr ⟨endsExcmd_name group, hne, ?_⟩
  rw [(untilWhite_name group hp).2]

/-! ### Keywords -/

theorem copyWord_flatMap (hp : ∀ c ∈ p.head?, isBlank c = true) (w : Bytes) :
    copyWord (w.flatMap escape ++ p) = (w, p) := by
  induction w with
  | nil =>
      cases p with
      | nil => rfl
      | cons c p => exact copyWord_blank (hp c rfl) p
  | cons c w ih =>
      rw [List.flatMap_cons, escape]
      split
      · rw [List.append_assoc, List.cons_append, List.cons_append, List.nil_append, copyWord_escape,
          ih]
      · next h =>
        simp only [Bool.or_eq_true, not_or, Bool.not_eq_true, beq_eq_false_iff_ne] at h
        rw [List.append_assoc, List.cons_append, List.nil_append, copyWord_cons h.1.1.1 (.inl h.1.1.2),
          ih]

/-- A written keyword does not end the command, and starts at no blank. -/
theorem flatMap_escape_start (w : KeywordText) : ∃ c q, w.bytes.flatMap escape ++ p = c :: q ∧
    endsExcmd (c :: q) = false ∧ isBlank c = false := by
  obtain ⟨c, bs, hbs⟩ := List.exists_cons_of_ne_nil w.ne_nil
  obtain ⟨h0, hlf⟩ := w.inLine c (hbs ▸ List.mem_cons_self)
  rw [hbs, List.flatMap_cons, escape]
  split
  · exact ⟨0x5C, _, rfl, rfl, rfl⟩
  · next h =>
    simp only [Bool.or_eq_true, not_or, Bool.not_eq_true, beq_eq_false_iff_ne] at h
    obtain ⟨⟨⟨hblank, -⟩, hhash⟩, hbar⟩ := h
    exact ⟨c, _, rfl, by simp [endsExcmd, h0, hlf, hhash, hbar], hblank⟩

theorem skipwhite_cons (h : isBlank c = false) (p : Bytes) : skipwhite (c :: p) = c :: p := by
  rw [isBlank, Bool.or_eq_false_iff] at h
  exact List.dropWhile_cons_of_neg (by simp [h.1])

/-- The words of a line are those that were written. -/
theorem copyWords_written (words : List KeywordText) {fuel : Nat}
    (hfuel : (skipwhite (words.flatMap KeywordText.written ++ 0x0A :: b)).length ≤ fuel) :
    copyWords fuel (skipwhite (words.flatMap KeywordText.written ++ 0x0A :: b)) =
      some (words.map (·.bytes)) := by
  induction words generalizing fuel with
  | nil => exact copyWords_of_ends rfl
  | cons w words ih =>
      generalize hq : words.flatMap KeywordText.written ++ 0x0A :: b = q at ih
      have hblank : ∀ c ∈ q.head?, isBlank c = true := by
        rw [← hq]
        cases words <;> rintro c ⟨⟩ <;> rfl
      have hskip : skipwhite ((w :: words).flatMap KeywordText.written ++ 0x0A :: b) =
          w.bytes.flatMap escape ++ q := by
        obtain ⟨c, r, hr, -, hc⟩ := flatMap_escape_start (p := q) w
        rw [List.flatMap_cons, List.append_assoc, hq, KeywordText.written, List.cons_append, hr]
        exact skipwhite_cons hc r
      have hcopy := copyWord_flatMap hblank w.bytes
      rw [hskip] at hfuel ⊢
      obtain ⟨c, r, hr, hend, hc⟩ := flatMap_escape_start (p := q) w
      rw [hr] at hfuel hcopy ⊢
      rw [List.length_cons] at hfuel
      obtain ⟨fuel, rfl⟩ := Nat.exists_eq_add_of_le' (Nat.le_trans (Nat.le_add_left 1 _) hfuel)
      have hbreak : isBreak c = false := by
        rw [isBlank, Bool.or_eq_false_iff] at hc
        exact hc.2
      have hlen : q.length ≤ r.length := by
        have hlt := copyWord_length_lt hc r
        rwa [hcopy] at hlt
      have hdrop : (skipwhite q).length ≤ q.length := (List.dropWhile_suffix _).length_le
      rw [copyWords_succ hend hbreak, hcopy, ih (by omega), Option.map_some, List.map_cons]

/-! ### Values and settings -/

theorem Value.quoted_append (v : Value) (p : Bytes) (hp : p ≠ []) :
    Quoted v.delimiter v.text p (v.quoted ++ p) where
  eq := by rw [Value.quoted, List.cons_append, List.append_assoc]; rfl
  notMem := v.notMem
  three := .inr hp

/-- A written key is known. -/
theorem Key.written_known {key : Key} (h : key ≠ .match) :
    Key.ofBytes (upper key.written) = some key ∧ IsWord key.written := by
  cases key with
  | «match» => exact absurd rfl h
  | _ => decide

theorem Setting.keyAt (s : Setting) (p : Bytes) :
    KeyAt (s.key.written ++ 0x3D :: (s.value.quoted ++ p)) s.key (s.value.quoted ++ p) := by
  obtain ⟨hkey, hne, hbytes⟩ := Key.written_known s.known
  have hall : ∀ c : UInt8, isKeyword c = true →
      isKeyByte c = true ∧ c ∉ [0, 0x7C, 0x23, 0x0A] := forall_byte (by decide +kernel)
  have hkeyword := List.all_eq_true.mp hbytes
  refine ⟨s.key.written, [], [], ⟨rfl, fun c hc => (hall c (hkeyword c hc)).1, ?_, ?_⟩, hkey, by simp,
    by simp, ?_⟩
  · rintro c ⟨⟩
    rfl
  · obtain ⟨c, bs, hbs⟩ := List.exists_cons_of_ne_nil hne
    rw [hbs]
    exact decide_eq_false (hall c (hkeyword c (hbs ▸ List.mem_cons_self))).2
  · rintro c ⟨⟩
    exact s.value.notWhite

/-- The settings of a line are those that were written. -/
theorem reads_written (settings : List Setting) :
    Reads (skipwhite (settings.flatMap Setting.written ++ 0x0A :: b)) (settings.map Setting.entry)
      (0x0A :: b) := by
  induction settings with
  | nil => exact .nil _
  | cons s settings ih =>
      generalize hq : settings.flatMap Setting.written ++ 0x0A :: b = q at ih
      have hnext : q ≠ [] ∧ (endsExcmd q = true ∨ isWhite (q.headD 0) = true) := by
        rw [← hq]
        cases settings with
        | nil => exact ⟨List.cons_ne_nil _ _, .inl rfl⟩
        | cons s settings => exact ⟨List.cons_ne_nil _ _, .inr rfl⟩
      have hskip : skipwhite ((s :: settings).flatMap Setting.written ++ 0x0A :: b) =
          s.key.written ++ 0x3D :: (s.value.quoted ++ q) := by
        rw [List.flatMap_cons, List.append_assoc, hq, Setting.written, List.cons_append,
          List.append_assoc, List.cons_append]
        obtain ⟨-, hne, hbytes⟩ := Key.written_known s.known
        obtain ⟨c, bs, hbs⟩ := List.exists_cons_of_ne_nil hne
        have hc := List.all_eq_true.mp hbytes c (hbs ▸ List.mem_cons_self)
        have hall : ∀ c : UInt8, isKeyword c = true → isBlank c = false :=
          forall_byte (by decide +kernel)
        rw [hbs]
        exact skipwhite_cons (hall c hc) _
      rw [hskip]
      exact .cons (s.keyAt q) (s.value.quoted_append q hnext.1) hnext.2 ih

end

/-! ## Reading a file -/

/-- Arguments behind a name start at a blank. -/
theorem head_flatMap {α : Type} {f : α → Bytes} (hf : ∀ a, (f a).head? = some 0x20) (as : List α)
    (b : Bytes) : ∀ c ∈ (as.flatMap f ++ 0x0A :: b).head?, isBlank c = true := by
  intro c hc
  cases as with
  | nil =>
      cases hc
      rfl
  | cons a as =>
      have hhead : ((a :: as).flatMap f ++ 0x0A :: b).head? = some 0x20 := by
        simp [List.head?_append, hf a]
      cases hhead.symm.trans hc
      rfl

theorem skipwhite_quoted (v : Value) (p : Bytes) :
    skipwhite (0x20 :: (v.quoted ++ p)) = v.quoted ++ p := by
  rw [skipwhite, List.dropWhile_cons_of_pos rfl]
  exact List.dropWhile_cons_of_neg (by simp [v.notWhite])

theorem effect_written_keyword (group : Name) (words : List KeywordText) (b : Bytes) :
    (Command.synKeyword (group.bytes ++ (words.flatMap KeywordText.written ++ 0x0A :: b))).effect =
      some (.addKeywords group.bytes (words.map (·.bytes))) := by
  have hblank := head_flatMap (f := KeywordText.written) (fun _ => rfl) words b
  have hne : skipwhite (words.flatMap KeywordText.written ++ 0x0A :: b) ≠ [] := by
    rw [skipwhite_line]
    simp
  rw [Command.effect, getGroupName_name group hblank hne, (untilWhite_name group hblank).1,
    Option.elim_some, copyWords_written words (Nat.le_refl _)]
  rfl

theorem effect_written_match (group : Name) (v : Value) (b : Bytes) :
    (Command.synMatch (group.bytes ++ 0x20 :: (v.quoted ++ 0x0A :: b))).effect =
      some (.addPattern group.bytes (SynPat.set CItem.zero .match v.text)) := by
  have hblank : ∀ c ∈ (0x20 :: (v.quoted ++ 0x0A :: b)).head?, isBlank c = true := by
    rintro c ⟨⟩
    rfl
  have hskip := skipwhite_quoted v (0x0A :: b)
  have hget : getSynPattern (v.quoted ++ 0x0A :: b) = some (v.text, 0x0A :: b) :=
    getSynPattern_eq_some_iff.mpr
      ⟨v.delimiter, _, v.quoted_append _ (List.cons_ne_nil _ _), .inl rfl, rfl⟩
  rw [Command.effect, getGroupName_name group hblank (by rw [hskip]; simp),
    (untilWhite_name group hblank).1, Option.map_some, hskip, matchPattern, hget]
  rfl

theorem effect_written_region (group : Name) (settings : List Setting) (b : Bytes) :
    (Command.synRegion (group.bytes ++ (settings.flatMap Setting.written ++ 0x0A :: b))).effect =
      some (Declaration.synRegion group settings).effect := by
  have hblank := head_flatMap (f := Setting.written) (fun _ => rfl) settings b
  have hne : skipwhite (settings.flatMap Setting.written ++ 0x0A :: b) ≠ [] := by
    rw [skipwhite_line]
    simp
  rw [Command.effect, getGroupName_name group hblank hne, (untilWhite_name group hblank).1,
    Option.bind_some,
    regionPattern_of_settings (skipwhite_skipwhite _) ⟨_, reads_written settings, .inl rfl⟩,
    Declaration.effect]
  split <;> rfl

theorem effect_written_hiLink (group target : Name) (b : Bytes) :
    (Command.hiLink (group.bytes ++ 0x20 :: (target.bytes ++ 0x0A :: b))).effect =
      some (Declaration.hiLink group target).effect := by
  have hblank : ∀ c ∈ (0x20 :: (target.bytes ++ 0x0A :: b)).head?, isBlank c = true := by
    rintro c ⟨⟩
    rfl
  have hlf : ∀ c ∈ ((0x0A : UInt8) :: b).head?, isBlank c = true := by
    rintro c ⟨⟩
    rfl
  have hskip : skipwhite (0x20 :: (target.bytes ++ 0x0A :: b)) = target.bytes ++ 0x0A :: b :=
    (List.dropWhile_cons_of_pos rfl).trans (skipwhite_name target)
  have hends : ¬(endsExcmd (group.bytes ++ 0x20 :: (target.bytes ++ 0x0A :: b)) = true ∨
      endsExcmd (target.bytes ++ 0x0A :: b) = true) := by
    simp [endsExcmd_name]
  rw [Command.effect, (untilWhite_name group hblank).1, (untilWhite_name group hblank).2, hskip,
    if_neg hends, (untilWhite_name target hlf).1, isPrefixOf_line _ _ (by decide)]
  rfl

/-- A line that was written is read as the command of its declaration. -/
theorem effect_line (d : Declaration) (b : Bytes) (hd : ∀ file, d ≠ .synInclude file) :
    ((readCommand d.line).extend b).effect = some d.effect := by
  cases d with
  | comment text inLine => rfl
  | synCase ignore => cases ignore <;> rfl
  | synKeyword group words =>
      rw [Declaration.line, readCommand_syn (by decide), if_neg (by decide), if_pos rfl,
        Command.extend, skipwhite_name, List.append_assoc]
      exact effect_written_keyword group words b
  | synMatch group value =>
      rw [Declaration.line, readCommand_syn (by decide), if_neg (by decide),
        if_neg (by decide), if_neg (by decide), if_pos rfl, Command.extend, wordLine, skipwhite_name,
        List.append_assoc, List.cons_append]
      exact effect_written_match group value b
  | synRegion group settings =>
      rw [Declaration.line, readCommand_syn (by decide), if_neg (by decide),
        if_neg (by decide), if_pos rfl, Command.extend, skipwhite_name, List.append_assoc]
      exact effect_written_region group settings b
  | hiLink group target =>
      rw [Declaration.line, readCommand_hiLink, Command.extend, wordLine, skipwhite_name,
        List.append_assoc, List.cons_append]
      exact effect_written_hiLink group target b
  | synInclude file => exact absurd rfl (hd file)

theorem extend_include (file : Name) (conf b : Bytes) :
    ∃ arg, (readCommand (Declaration.synInclude file).line).extend b = .synInclude arg ∧
      (includeName conf arg).1 = dirOf conf ++ file.bytes := by
  have hskip : skipwhite file.bytes = file.bytes := by
    have := skipwhite_name (p := []) file
    rwa [List.append_nil] at this
  have hlf : ∀ c ∈ ((0x0A : UInt8) :: b).head?, isBlank c = true := by
    rintro c ⟨⟩
    rfl
  refine ⟨file.bytes ++ 0x0A :: b, ?_, ?_⟩
  · rw [Declaration.line, readCommand_include, Command.extend, hskip]
  · rw [includeName, skipwhite_name, (untilWhite_name file hlf).1]

/-! ### Lines -/

section
variable {p q : Bytes} {c : UInt8}

theorem InLine.append (hp : InLine p) (hq : InLine q) : InLine (p ++ q) := fun c hc =>
  (List.mem_append.mp hc).elim (hp c) (hq c)

theorem InLine.cons (hc : c ≠ 0 ∧ c ≠ 0x0A) (hp : InLine p) : InLine (c :: p) :=
  List.forall_mem_cons.mpr ⟨hc, hp⟩

theorem InLine.flatMap {α : Type} {f : α → Bytes} {as : List α} (h : ∀ a ∈ as, InLine (f a)) :
    InLine (as.flatMap f) := fun c hc => by
  obtain ⟨a, ha, hc⟩ := List.mem_flatMap.mp hc
  exact h a ha c hc

theorem InLine.wordLine (hp : InLine p) (hq : InLine q) : InLine (wordLine p q) :=
  hp.append (.cons (by decide) hq)

theorem KeywordText.inLine_written (w : KeywordText) : InLine w.written := by
  refine .cons (by decide) (.flatMap fun c hc => ?_)
  have hline := w.inLine c hc
  rw [escape]
  split
  · exact .cons (by decide) (.cons hline (by decide))
  · exact .cons hline (by decide)

theorem Value.inLine_quoted (v : Value) : InLine v.quoted := by
  obtain ⟨hd, ht⟩ := List.forall_mem_cons.mp v.inLine
  exact .cons hd (.append ht (.cons hd (by decide)))

theorem Setting.inLine_written (s : Setting) : InLine s.written := by
  have hkey : ∀ key : Key, InLine key.written := by
    intro key
    cases key <;> decide
  exact .cons (by decide) ((hkey s.key).append (.cons (by decide) s.value.inLine_quoted))

theorem inLine_line (d : Declaration) : InLine d.line := by
  cases d with
  | comment text inLine => exact .cons (by decide) inLine
  | synCase ignore => cases ignore <;> decide
  | synKeyword group words =>
      exact .wordLine (by decide) (.wordLine (by decide)
        (group.inLine.append (.flatMap fun w _ => w.inLine_written)))
  | synMatch group value =>
      exact .wordLine (by decide) (.wordLine (by decide) (.wordLine group.inLine value.inLine_quoted))
  | synRegion group settings =>
      exact .wordLine (by decide) (.wordLine (by decide)
        (group.inLine.append (.flatMap fun s _ => s.inLine_written)))
  | hiLink group target => exact .wordLine (by decide) (.wordLine group.inLine target.inLine)
  | synInclude file => exact .wordLine (by decide) file.inLine

/-- A line that starts at no blank is one command. -/
theorem commands_inLine (hc : isBlank c = false) (h : InLine (c :: p)) :
    commands (c :: p) = [readCommand (c :: p)] := by
  have hstart : (c :: p).dropWhile isBlank = c :: p := List.dropWhile_cons_of_neg (by simp [hc])
  have hnext : gotoNextLine (c :: p) = [] := by
    rw [gotoNextLine, List.dropWhile_eq_nil_iff.mpr fun b hb => decide_eq_true (h b hb).2]
    rfl
  rw [commands, places_cons hstart, hnext]
  rfl

theorem commands_written (d : Declaration) (ds : List Declaration) :
    commands (written (d :: ds)) =
      (readCommand d.line).extend (written ds) :: commands (written ds) := by
  have hwritten : written (d :: ds) = d.line ++ 0x0A :: written ds := by
    rw [written, List.flatMap_cons, List.append_assoc]
    rfl
  obtain ⟨c, p, hline, hc⟩ : ∃ c p, d.line = c :: p ∧ isBlank c = false := by
    cases d <;> exact ⟨_, _, rfl, rfl⟩
  have hin := inLine_line d
  rw [hwritten, commands_line]
  rw [hline] at hin ⊢
  rw [commands_inLine hc hin]
  rfl

theorem takeWhile_written (ds : List Declaration) : (written ds).takeWhile (· ≠ 0) = written ds := by
  refine List.takeWhile_eq_self_iff.mpr fun c hc => decide_eq_true ?_
  obtain ⟨d, -, hc⟩ := List.mem_flatMap.mp hc
  rcases List.mem_append.mp hc with hc | hc
  · exact (inLine_line d c hc).1
  · obtain rfl := List.mem_singleton.mp hc
    decide

end

/-! ### Files -/

section
variable {load : Bytes → Loader → Option Loader} {conf : Bytes} {l : Loader}

/-- A line does what its declaration says. -/
theorem exec_line (h : l.Wf) {d : Declaration} (hd : ∀ file, d ≠ .synInclude file) (b : Bytes) :
    (exec load conf l ((readCommand d.line).extend b)).map Loader.tables =
      some (l.tables.declare d) := by
  have heffect := effect_line d b hd
  have hexec : exec load conf l ((readCommand d.line).extend b) =
      exec (fun _ _ => none) conf l ((readCommand d.line).extend b) := by
    generalize (readCommand d.line).extend b = c at heffect
    cases c with
    | synInclude arg => cases heffect
    | _ => rfl
  rw [hexec, exec_effect h, Tables.exec, heffect]
  rfl

variable {inl : Bytes → Option (List Declaration)}

/-- The commands of a file that was written, with files to include that are read as they were
written. -/
theorem run_written (hwf : ∀ name l l', l.Wf → load name l = some l' → l'.Wf)
    (hload : ∀ name l, l.Wf → (load name l).map Loader.tables =
      (inl name).map fun ds => ds.foldl Tables.declare l.tables)
    (h : l.Wf) (ds : List Declaration) :
    (Run.run (exec load conf) l (commands (written ds))).map Loader.tables =
      (ds.mapM (Declaration.inline inl conf)).map fun dss =>
        dss.flatten.foldl Tables.declare l.tables := by
  induction ds generalizing l with
  | nil => rfl
  | cons d ds ih =>
      have hstep : (exec load conf l ((readCommand d.line).extend (written ds))).map Loader.tables =
          (d.inline inl conf).map fun ds => ds.foldl Tables.declare l.tables := by
        cases d with
        | synInclude file =>
            obtain ⟨arg, harg, hname⟩ := extend_include file conf (written ds)
            rw [harg, exec, hname]
            exact hload _ l h
        | _ => exact exec_line h (by simp) _
      rw [commands_written, Run.run_cons, List.mapM_cons]
      cases hexec : exec load conf l ((readCommand d.line).extend (written ds)) with
      | none =>
          rw [hexec] at hstep
          rw [Option.map_eq_none_iff.mp hstep.symm]
          rfl
      | some l' =>
          rw [hexec] at hstep
          obtain ⟨ds', hds', htables⟩ := Option.map_eq_some_iff.mp hstep.symm
          rw [hds', Option.bind_some, ih (wf_exec hwf h hexec), ← htables]
          cases ds.mapM (Declaration.inline inl conf) with
          | none => rfl
          | some dss => exact congrArg some (List.foldl_append ..).symm

end

/-- The files that are written from declarations. -/
def writtenFiles (confs : Bytes → Option (List Declaration)) : Files := fun name =>
  (confs name).map written

/-- A load reads back what was written. -/
theorem loadSyntaxConf_written (confs : Bytes → Option (List Declaration)) (depth : Nat)
    (conf : Bytes) {l : Loader} (h : l.Wf) :
    (loadSyntaxConf (writtenFiles confs) depth conf l).map Loader.tables =
      (inlined confs depth conf).map fun ds => ds.foldl Tables.declare l.tables := by
  induction depth generalizing conf l with
  | zero => rfl
  | succ depth ih =>
      cases hconf : confs conf with
      | none =>
          have hfile : writtenFiles confs conf = none := by rw [writtenFiles, hconf]; rfl
          rw [loadSyntaxConf, hfile, inlined, hconf]
          rfl
      | some ds =>
          have hfile : writtenFiles confs conf = some (written ds) := by
            rw [writtenFiles, hconf]
            rfl
          rw [loadSyntaxConf_eq_run hfile, takeWhile_written,
            run_written (fun _ _ _ hwf hload => wf_loadSyntaxConf hwf hload) (fun name l hl => ih name hl)
              h, inlined, hconf, Option.map_map]
          rfl

/-- The tables of `syntax_init` do not depend on the memory of the new buffer. -/
theorem exists_syntaxInit (m : GArray SynPat) :
    ∃ l, syntaxInit .fresh m = some l ∧ l.tables = initialLoader.tables := by
  obtain ⟨groups, hgroups⟩ : ∃ groups, initGroups .fresh = some groups :=
    Option.isSome_iff_exists.mp (by decide +kernel)
  have hinit : ∀ m : GArray SynPat, syntaxInit .fresh m =
      some (synCmdCase ⟨false, [], [], m.init, groups⟩ (bytes "ignore")) := fun m => by
    rw [syntaxInit, hgroups]
    rfl
  refine ⟨_, hinit m, ?_⟩
  rw [initialLoader, hinit]
  rfl

/-- `syntax_init` and a load of files that were written: the tables are those of the declarations,
one after the other. -/
theorem loadConf_declared (confs : Bytes → Option (List Declaration)) (depth : Nat) (conf : Bytes)
    (m : GArray SynPat) :
    (loadConf (writtenFiles confs) depth conf .fresh m).map Loader.tables =
      (inlined confs depth conf).map fun ds => ds.foldl Tables.declare initialLoader.tables := by
  obtain ⟨l, hinit, htables⟩ := exists_syntaxInit m
  rw [loadConf, hinit, Option.bind_some, loadSyntaxConf_written confs depth conf (wf_syntaxInit hinit),
    htables]

/-! ## Highlighting with declarations -/

/-- What `parse_file` uses of the tables. -/
def Tables.env (t : Tables) (text : FileText) : ParseEnv :=
  ⟨text, ⟨t.keywtab, t.keywtabIc, t.patterns⟩, t.groups⟩

/-- A call records what `parse_file` finds with the tables of its files. -/
theorem Call.parse_items_iff {c : Call} {out : List Item} :
    (∃ p, c.parse .fresh = some p ∧ p.state.items = out) ↔
      ∃ l, loadConf c.files c.depth c.conf .fresh c.memory = some l ∧
        parseFile (l.tables.env c.text) c.steps = some out := by
  have hsized : GArray.Sized
      { (GArray.fresh : GArray Item).clear with itemsize := 16, growsize := 3 } :=
    ⟨rfl, rfl, Nat.le_refl 0⟩
  have hstored := fun out => foldlM_addMatchResult out hsized
  constructor
  · rintro ⟨p, h, rfl⟩
    obtain ⟨l, hl, h⟩ := Option.bind_eq_some_iff.mp h
    obtain ⟨out, hout, h⟩ := Option.bind_eq_some_iff.mp h
    obtain ⟨state, hstate, rfl⟩ := Option.map_eq_some_iff.mp h
    obtain ⟨state', hfold, -, hitems⟩ := hstored out
    obtain rfl : state' = state := Option.some.inj (hfold.symm.trans hstate)
    exact ⟨l, hl, hitems ▸ hout⟩
  · rintro ⟨l, hl, hout⟩
    obtain ⟨state, hfold, -, hitems⟩ := hstored out
    refine ⟨⟨l.groups, state⟩, ?_, hitems⟩
    exact Option.bind_eq_some_iff.mpr ⟨l, hl, Option.bind_eq_some_iff.mpr
      ⟨out, hout, Option.map_eq_some_iff.mpr ⟨state, hfold, rfl⟩⟩⟩

/-- `syntax_init`, `load_syntax_conf` and `parse_file` with files that were written record what the
declarations and the text say. -/
theorem records_declared (confs : Bytes → Option (List Declaration)) (c : Call) (out : List Item) :
    (∃ steps p, { c with files := writtenFiles confs, steps }.parse .fresh = some p ∧
      p.state.items = out) ↔
      ∃ ds, inlined confs c.depth c.conf = some ds ∧
        ((ds.foldl Tables.declare initialLoader.tables).env c.text).Reads out := by
  obtain ⟨l₀, hinit, htables⟩ := exists_syntaxInit c.memory
  have hload : (loadConf (writtenFiles confs) c.depth c.conf .fresh c.memory).map Loader.tables =
      (inlined confs c.depth c.conf).map fun ds =>
        ds.foldl Tables.declare initialLoader.tables := by
    rw [loadConf, hinit, Option.bind_some,
      loadSyntaxConf_written confs c.depth c.conf (wf_syntaxInit hinit), htables]
  simp only [Call.parse_items_iff]
  constructor
  · rintro ⟨steps, l, hl, hout⟩
    rw [hl] at hload
    obtain ⟨ds, hds, htables⟩ := Option.map_eq_some_iff.mp hload.symm
    exact ⟨ds, hds, htables ▸ reads_of_parseFile hout⟩
  · rintro ⟨ds, hds, hreads⟩
    rw [hds] at hload
    obtain ⟨l, hl, htables⟩ := Option.map_eq_some_iff.mp hload
    obtain ⟨steps, hout⟩ := exists_parseFile hreads
    exact ⟨steps, l, hl, htables ▸ hout⟩

end HapAndroid.Highlight
