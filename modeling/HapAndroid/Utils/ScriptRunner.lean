import HapAndroid.Platform.Files

/-!
# `Utils.preserve` and `ScriptRunner.parse`

`parse` cuts a command line into arguments with a machine of three states.  White
space ends an argument, a double quote opens a part in which white space stands for
itself, and in such a part a backslash takes the character after it literally.  An
argument is added to the result when white space follows it, and at the end if it is
not empty.

`preserve` puts a backslash before the characters that have a meaning between quotes.
`parse_joined` says what comes back of a list of arguments that are quoted with it.
-/

namespace HapAndroid.Utils

/-- The characters that get a backslash: backslash, dollar, backquote, quote. -/
def isSpecial (c : Char) : Bool := c = '\\' || c = '$' || c = '\x60' || c = '\x22'

def preserve (s : Text) : Text := s.flatMap fun c => if isSpecial c then ['\\', c] else [c]

/-- `Character.isWhitespace`: some control characters, and the separators that allow a
line break. -/
def isWhitespace (c : Char) : Bool :=
  let n := c.toNat
  (0x09 ≤ n && n ≤ 0x0D) || (0x1C ≤ n && n ≤ 0x20) || n = 0x1680 ||
    (0x2000 ≤ n && n ≤ 0x200A && n ≠ 0x2007) || n = 0x2028 || n = 0x2029 || n = 0x205F ||
    n = 0x3000

namespace ScriptRunner

/-- The states of `parse`. -/
inductive State where
  | plain
  | whitespace
  | inquote
deriving DecidableEq

/-- The loop of `parse`: the builder and the result at its end. -/
def parseLoop : State → Text → List Text → Text → Text × List Text
  | _, builder, result, [] => (builder, result)
  | .plain, builder, result, c :: cmd =>
      if isWhitespace c then parseLoop .whitespace [] (result ++ [builder]) cmd
      else if c = '\x22' then parseLoop .inquote builder result cmd
      else parseLoop .plain (builder ++ [c]) result cmd
  | .whitespace, builder, result, c :: cmd =>
      if isWhitespace c then parseLoop .whitespace builder result cmd
      else if c = '\x22' then parseLoop .inquote builder result cmd
      else parseLoop .plain (builder ++ [c]) result cmd
  | .inquote, builder, result, c :: cmd =>
      if c = '\\' then
        match cmd with
        -- A backslash at the very end is dropped.
        | [] => (builder, result)
        | d :: cmd => parseLoop .inquote (builder ++ [d]) result cmd
      else if c = '\x22' then parseLoop .plain builder result cmd
      else parseLoop .inquote (builder ++ [c]) result cmd

def parse (cmd : Text) : List Text :=
  let r := parseLoop .whitespace [] [] cmd
  if r.1.length > 0 then r.2 ++ [r.1] else r.2

/-! ## Quoted arguments -/

/-- An argument between quotes. -/
def quoted (a : Text) : Text := '\x22' :: preserve a ++ ['\x22']

/-- Quoted arguments with spaces between them. -/
def joined (args : List Text) : Text := [' '].intercalate (args.map quoted)

theorem parseLoop_inquote {c : Char} (hc : c ≠ '\\') (builder : Text) (result : List Text)
    (cmd : Text) :
    parseLoop .inquote builder result (c :: cmd) =
      if c = '\x22' then parseLoop .plain builder result cmd
      else parseLoop .inquote (builder ++ [c]) result cmd := by
  rw [parseLoop.eq_def]
  exact if_neg hc

theorem preserve_cons (c : Char) (a : Text) :
    preserve (c :: a) = (if isSpecial c then ['\\', c] else [c]) ++ preserve a :=
  List.flatMap_cons

/-- One character comes through the quotes. -/
theorem parseLoop_char (builder : Text) (result : List Text) (c : Char) (cmd : Text) :
    parseLoop .inquote builder result ((if isSpecial c then ['\\', c] else [c]) ++ cmd) =
      parseLoop .inquote (builder ++ [c]) result cmd := by
  cases hc : isSpecial c with
  | true =>
      show parseLoop .inquote builder result ('\\' :: c :: cmd) = _
      rw [parseLoop, if_pos rfl]
  | false =>
      show parseLoop .inquote builder result (c :: cmd) = _
      have hback : c ≠ '\\' := by
        rintro rfl
        exact absurd hc (by decide)
      have hquote : c ≠ '\x22' := by
        rintro rfl
        exact absurd hc (by decide)
      rw [parseLoop_inquote hback, if_neg hquote]

/-- A quoted text is added to the builder as it was. -/
theorem parseLoop_preserve (a builder : Text) (result : List Text) (cmd : Text) :
    parseLoop .inquote builder result (preserve a ++ '\x22' :: cmd) =
      parseLoop .plain (builder ++ a) result cmd := by
  induction a generalizing builder with
  | nil =>
      show parseLoop .inquote builder result ('\x22' :: cmd) = _
      rw [parseLoop_inquote (by decide), if_pos rfl, List.append_nil]
  | cons c a ih =>
      rw [preserve_cons, List.append_assoc, parseLoop_char, ih, List.append_assoc]
      rfl

theorem parseLoop_quoted (a : Text) (result : List Text) (cmd : Text) :
    parseLoop .whitespace [] result (quoted a ++ cmd) = parseLoop .plain a result cmd := by
  have hsplit : quoted a ++ cmd = '\x22' :: (preserve a ++ '\x22' :: cmd) := by simp [quoted]
  rw [hsplit, parseLoop, if_neg (by decide), if_pos rfl, parseLoop_preserve, List.nil_append]

/-- The loop over quoted arguments leaves the last one in the builder. -/
theorem parseLoop_joined (a : Text) (args result : List Text) :
    parseLoop .whitespace [] result (joined (a :: args)) =
      ((a :: args).getLast (List.cons_ne_nil a args), result ++ (a :: args).dropLast) := by
  induction args generalizing a result with
  | nil =>
      have hone : joined [a] = quoted a ++ [] := by simp [joined]
      rw [hone, parseLoop_quoted, parseLoop]
      simp
  | cons b args ih =>
      have htwo : joined (a :: b :: args) = quoted a ++ ' ' :: joined (b :: args) := by
        simp [joined, List.intercalate]
      rw [htwo, parseLoop_quoted, parseLoop, if_pos (by decide), ih]
      simp

/-- Quoted arguments come back, but an empty one at the end is lost. -/
theorem parse_joined (args : List Text) :
    parse (joined args) = if args.getLast? = some [] then args.dropLast else args := by
  cases args with
  | nil => rfl
  | cons a args =>
      rw [parse, parseLoop_joined, List.getLast?_eq_some_getLast (List.cons_ne_nil a args)]
      by_cases hlast : (a :: args).getLast (List.cons_ne_nil a args) = []
      · simp [hlast]
      · have hpos : ((a :: args).getLast (List.cons_ne_nil a args)).length > 0 :=
          List.length_pos_iff.mpr hlast
        simp only [Option.some.injEq, if_neg hlast, List.nil_append, if_pos hpos]
        exact List.dropLast_concat_getLast _

/-- Quoting protects arguments that are not empty. -/
theorem parse_quoted_args (args : List Text) (hne : ∀ a ∈ args, a ≠ []) :
    parse (joined args) = args := by
  rw [parse_joined, if_neg]
  intro hlast
  exact hne [] (List.mem_of_getLast? hlast) rfl

theorem parse_quoted_args_blank :
    parse (joined ["a b".toList, "\\$".toList]) = ["a b".toList, "\\$".toList] :=
  parse_quoted_args _ (by decide)

end ScriptRunner

end HapAndroid.Utils
