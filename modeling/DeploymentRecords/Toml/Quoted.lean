import DeploymentRecords.Number.Digits

/-!
# Quoted strings

The four written forms of a string: basic and literal, each on one line or on several. A reader
starts behind the opening quotes and takes the closing ones; `Form.choose` is the form in which a
new string is written, and `Form.write` writes it.
-/

namespace DeploymentRecords.Toml

open Number

def isSpace (c : Char) : Bool := c = ' ' || c = '\t'

def isPrintable (c : Char) : Bool := c = '\t' || (' ' ≤ c && c ≠ '\x7f')

def afterNewline? : Text → Option Text
  | '\n' :: s => some s
  | '\r' :: '\n' :: s => some s
  | _ => none

theorem length_afterNewline? {s r : Text} (h : afterNewline? s = some r) : r.length < s.length := by
  unfold afterNewline? at h
  split at h
  · cases h
    exact Nat.lt_succ_self _
  · cases h
    exact Nat.lt_succ_of_lt (Nat.lt_succ_self _)
  · cases h

def readCode? (count : Nat) (s : Text) : Option (Char × Text) :=
  let digits := s.take count
  let code := ofDigits 16 digits
  if digits.length = count ∧ digits.all isHexDigit ∧ code.isValidChar then
    some (Char.ofNat code, s.drop count)
  else none

def readEscape? : Text → Option (Char × Text)
  | 'b' :: s => some ('\x08', s)
  | 't' :: s => some ('\t', s)
  | 'n' :: s => some ('\n', s)
  | 'f' :: s => some ('\x0c', s)
  | 'r' :: s => some ('\r', s)
  | '"' :: s => some ('"', s)
  | '\\' :: s => some ('\\', s)
  | 'u' :: s => readCode? 4 s
  | 'U' :: s => readCode? 8 s
  | _ => none

theorem length_readCode? {n : Nat} {s r : Text} {c : Char} (h : readCode? n s = some (c, r)) :
    r.length ≤ s.length := by
  simp only [readCode?] at h
  split at h
  · simp only [Option.some.injEq, Prod.mk.injEq] at h
    rw [← h.2]
    exact (List.drop_sublist n s).length_le
  · cases h

theorem length_readEscape? {s r : Text} {c : Char} (h : readEscape? s = some (c, r)) :
    r.length < s.length := by
  fun_cases readEscape? s <;> simp only [readEscape?, Option.some.injEq, Prod.mk.injEq,
    reduceCtorEq] at h
  case case8 => exact Nat.lt_succ_of_le (length_readCode? h)
  case case9 => exact Nat.lt_succ_of_le (length_readCode? h)
  all_goals
    rw [← h.2]
    exact Nat.lt_succ_self _

/-- Behind a backslash at the end of a line: the text from the next character that is neither a
space nor a line break. -/
def afterBreak? (s : Text) : Option Text :=
  (afterNewline? (s.dropWhile isSpace)).map skip
where
  skip : Text → Text
    | ' ' :: s => skip s
    | '\t' :: s => skip s
    | '\n' :: s => skip s
    | '\r' :: '\n' :: s => skip s
    | s => s

theorem length_afterBreak?_skip (s : Text) : (afterBreak?.skip s).length ≤ s.length := by
  fun_induction afterBreak?.skip s with
  | case1 s ih => exact Nat.le_succ_of_le ih
  | case2 s ih => exact Nat.le_succ_of_le ih
  | case3 s ih => exact Nat.le_succ_of_le ih
  | case4 s ih => exact Nat.le_succ_of_le (Nat.le_succ_of_le ih)
  | case5 s => exact Nat.le_refl _

theorem length_afterBreak? {s r : Text} (h : afterBreak? s = some r) : r.length < s.length := by
  obtain ⟨t, ht, rfl⟩ := Option.map_eq_some_iff.1 h
  have := length_afterBreak?_skip t
  have := length_afterNewline? ht
  have := Text.length_dropWhile_le isSpace s
  omega

def readBasic? (s : Text) : Option (Text × Text) :=
  match s with
  | [] => none
  | '"' :: s => some ([], s)
  | '\\' :: s =>
    match _h : readEscape? s with
    | some (c, s) => (readBasic? s).map fun (t, s) => (c :: t, s)
    | none => none
  | c :: s => if isPrintable c then (readBasic? s).map fun (t, s) => (c :: t, s) else none
termination_by s.length
decreasing_by
  · have := length_readEscape? _h; simp only [List.length_cons]; omega
  · exact Nat.lt_succ_self _

def readLiteral? : Text → Option (Text × Text)
  | [] => none
  | '\'' :: s => some ([], s)
  | c :: s => if isPrintable c then (readLiteral? s).map fun (t, s) => (c :: t, s) else none

/-- One or two quotes may stand anywhere, also directly before the closing three. -/
def readMultiBasic? (s : Text) : Option (Text × Text) :=
  match s with
  | [] => none
  | '"' :: '"' :: '"' :: '"' :: '"' :: s => some (['"', '"'], s)
  | '"' :: '"' :: '"' :: '"' :: s => some (['"'], s)
  | '"' :: '"' :: '"' :: s => some ([], s)
  | '\\' :: s =>
    match _h : afterBreak? s with
    | some s => readMultiBasic? s
    | none =>
      match _h : readEscape? s with
      | some (c, s) => (readMultiBasic? s).map fun (t, s) => (c :: t, s)
      | none => none
  | '\r' :: '\n' :: s => (readMultiBasic? s).map fun (t, s) => ('\n' :: t, s)
  | c :: s =>
    if c = '\n' ∨ isPrintable c then (readMultiBasic? s).map fun (t, s) => (c :: t, s) else none
termination_by s.length
decreasing_by
  · have := length_afterBreak? _h; simp only [List.length_cons]; omega
  · have := length_readEscape? _h; simp only [List.length_cons]; omega
  · simp only [List.length_cons]; omega
  · exact Nat.lt_succ_self _

def readMultiLiteral? : Text → Option (Text × Text)
  | [] => none
  | '\'' :: '\'' :: '\'' :: '\'' :: '\'' :: s => some (['\'', '\''], s)
  | '\'' :: '\'' :: '\'' :: '\'' :: s => some (['\''], s)
  | '\'' :: '\'' :: '\'' :: s => some ([], s)
  | '\r' :: '\n' :: s => (readMultiLiteral? s).map fun (t, s) => ('\n' :: t, s)
  | c :: s =>
    if c = '\n' ∨ isPrintable c then (readMultiLiteral? s).map fun (t, s) => (c :: t, s) else none

/-- A line break directly behind three opening quotes is not part of the string. -/
def dropNewline (s : Text) : Text := (afterNewline? s).getD s

def readString? : Text → Option (Text × Text)
  | '"' :: '"' :: '"' :: s => readMultiBasic? (dropNewline s)
  | '"' :: s => readBasic? s
  | '\'' :: '\'' :: '\'' :: s => readMultiLiteral? (dropNewline s)
  | '\'' :: s => readLiteral? s
  | _ => none

inductive Form where
  | basic
  | literal
  | multiBasic
  | multiLiteral
  deriving DecidableEq, Repr

def isControl (c : Char) : Bool := (c < ' ' && c ≠ '\t' && c ≠ '\n') || c = '\x7f'

/-- Whether a string can be written in a form so that every character but tabs stands for itself. -/
def Form.fits (s : Text) : Form → Bool
  | basic => s.all fun c => !isControl c && c ≠ '\\' && c ≠ '"' && c ≠ '\n'
  | literal => s.all fun c => !isControl c && c ≠ '\'' && c ≠ '\n'
  | multiBasic => (s.all fun c => !isControl c && c ≠ '\\') && !Text.contains ['"', '"', '"'] s
  | multiLiteral => (s.all fun c => !isControl c) && !Text.contains ['\'', '\'', '\''] s

def Form.choose (s : Text) : Form :=
  match [basic, literal, multiBasic, multiLiteral].find? (·.fits s) with
  | some form => form
  | none => if '\n' ∈ s then multiBasic else basic

def fourHex (n : Nat) : Text :=
  let digits := (Nat.toDigits 16 n).map Char.toUpper
  List.replicate (4 - digits.length) '0' ++ digits

/-- How a character stands between basic quotes, with `quotes` unescaped quotes directly before
it; in the form on several lines two quotes in a row and line feeds need no escape. -/
def escape (multi : Bool) (quotes : Nat) (c : Char) : Text :=
  if c = '"' then if multi ∧ quotes < 2 then ['"'] else ['\\', '"']
  else if c = '\x08' then ['\\', 'b']
  else if c = '\t' then ['\\', 't']
  else if c = '\n' then if multi then ['\n'] else ['\\', 'n']
  else if c = '\x0c' then ['\\', 'f']
  else if c = '\r' then ['\\', 'r']
  else if c = '\\' then ['\\', '\\']
  else if isControl c then '\\' :: 'u' :: fourHex c.toNat
  else [c]

def escapeFrom (multi : Bool) (quotes : Nat) : Text → Text
  | [] => []
  | c :: s =>
    let written := escape multi quotes c
    written ++ escapeFrom multi (if written = ['"'] then quotes + 1 else 0) s

/-- A string that holds a line feed begins on a line of its own. -/
def opening (s : Text) : Text := if '\n' ∈ s then ['\n'] else []

def Form.write (s : Text) : Form → Text
  | basic => '"' :: escapeFrom false 0 s ++ ['"']
  | literal => '\'' :: s ++ ['\'']
  | multiBasic => ['"', '"', '"'] ++ opening s ++ escapeFrom true 0 s ++ ['"', '"', '"']
  | multiLiteral => ['\'', '\'', '\''] ++ opening s ++ s ++ ['\'', '\'', '\'']

def quote (s : Text) : Text := (Form.choose s).write s

end DeploymentRecords.Toml
