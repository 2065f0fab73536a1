import LambdaLift.Parsed
import LambdaLift.Toml.Document
import LambdaLift.Toml.Scalar

/-!
# Reading TOML

Settings files use comments, tables, arrays of tables, bare, quoted and dotted keys, strings on one
line, booleans, numbers, arrays, which may run over several lines, and inline tables, which may not.
-/

namespace LambdaLift.Toml

/-- The number of arrays and inline tables that may be open at a time. -/
def maxNesting : Nat := 79

/-- The number of parts that a key may have. -/
def maxKeySize : Nat := 79

def isTomlSpace (c : Char) : Bool := c == ' ' || c == '\t'

def skipBlanks (cs : List Char) : List Char := cs.dropWhile isTomlSpace

theorem length_skipBlanks_le (cs : List Char) : (skipBlanks cs).length ≤ cs.length :=
  length_dropWhile_le isTomlSpace cs

theorem length_lt_of_skipBlanks_eq_cons {cs r : List Char} {c : Char} (h : skipBlanks cs = c :: r) :
    r.length < cs.length := by
  have := length_skipBlanks_le cs
  rw [h] at this
  exact this

/-- Whether a character may stand in a comment: anything but control characters, a tab excepted. -/
def isPrintable (c : Char) : Bool := c == '\t' || (' ' ≤ c && c != '\x7f')

/-- Passes over a line break. -/
def lineBreak? : List Char → Option (List Char)
  | '\n' :: r => some r
  | '\r' :: '\n' :: r => some r
  | _ => none

theorem length_lt_of_lineBreak? {cs r : List Char} (h : lineBreak? cs = some r) :
    r.length < cs.length := by
  unfold lineBreak? at h
  split at h
  · cases h; simp
  · cases h; simp only [List.length_cons]; omega
  · cases h

/-- Passes over the comment at the start of a text, if there is one. -/
def skipComment (cs : List Char) : List Char :=
  match cs with
  | '#' :: r => r.dropWhile isPrintable
  | cs => cs

theorem length_skipComment_le (cs : List Char) : (skipComment cs).length ≤ cs.length := by
  unfold skipComment
  split
  · exact Nat.le_succ_of_le (length_dropWhile_le _ _)
  · exact Nat.le_refl _

/-- Passes over the rest of a line that says nothing more. -/
def lineEnd? (cs : List Char) : Option (MaybeParsed Unit cs) :=
  let r := skipComment (skipBlanks cs)
  have hr : r.length ≤ cs.length :=
    Nat.le_trans (length_skipComment_le _) (length_skipBlanks_le cs)
  if r.isEmpty then some ⟨(), [], Nat.zero_le _⟩
  else
    match h : lineBreak? r with
    | some r' => some ⟨(), r', Nat.le_trans (Nat.le_of_lt (length_lt_of_lineBreak? h)) hr⟩
    | none => none

/-- Passes over blanks, comments and line breaks inside an array. -/
def skipGap (cs : List Char) : List Char :=
  let r := skipComment (skipBlanks cs)
  have hr : r.length ≤ cs.length :=
    Nat.le_trans (length_skipComment_le _) (length_skipBlanks_le cs)
  match h : lineBreak? r with
  | some r' =>
    have := Nat.lt_of_lt_of_le (length_lt_of_lineBreak? h) hr
    skipGap r'
  | none => skipBlanks cs
termination_by cs.length

theorem length_skipGap_le (cs : List Char) : (skipGap cs).length ≤ cs.length := by
  fun_induction skipGap cs with
  | case1 cs r hr r' h hlt ih => exact Nat.le_trans ih (Nat.le_of_lt hlt)
  | case2 cs r hr h => exact length_skipBlanks_le cs

theorem length_lt_of_skipGap_eq_cons {cs r : List Char} {c : Char} (h : skipGap cs = c :: r) :
    r.length < cs.length := by
  have := length_skipGap_le cs
  rw [h] at this
  exact this

/-- The character that an escape of `n` hexadecimal digits stands for. -/
def codePoint? (n : Nat) (cs : List Char) : Option Char :=
  let ds := cs.take n
  if ds.length = n ∧ ds.all isHexDigit then
    let code := ofDigits 16 ds
    if code.isValidChar then some (Char.ofNat code) else none
  else none

/-- The character that a one-letter escape stands for. -/
def letterEscape? (c : Char) : Option Char :=
  match c with
  | '"' => some '"'
  | '\\' => some '\\'
  | 'b' => some '\x08'
  | 'f' => some '\x0c'
  | 'n' => some '\n'
  | 'r' => some '\r'
  | 't' => some '\t'
  | _ => none

/-- Reads what follows a backslash. -/
def escape (cs : List Char) : Option (Parsed Char cs) :=
  match cs with
  | [] => none
  | 'u' :: r => do
    return ⟨← codePoint? 4 r, r.drop 4, by simp only [List.length_drop, List.length_cons]; omega⟩
  | 'U' :: r => do
    return ⟨← codePoint? 8 r, r.drop 8, by simp only [List.length_drop, List.length_cons]; omega⟩
  | c :: _ => do return .first (← letterEscape? c)

/-- Reads the rest of a string in double quotes. -/
def basicString (cs : List Char) : Option (Parsed (List Char) cs) :=
  match cs with
  | [] => none
  | '"' :: _ => some (.first [])
  | '\\' :: r => do
    let c ← escape r
    have := c.rest_lt
    let more ← basicString c.rest
    return ⟨c.value :: more.value, more.rest,
      Nat.lt_succ_of_lt (Nat.lt_trans more.rest_lt c.rest_lt)⟩
  | c :: r =>
    if isPrintable c then do
      let more ← basicString r
      return ⟨c :: more.value, more.rest, Nat.lt_succ_of_lt more.rest_lt⟩
    else none
termination_by cs.length

/-- Reads the rest of a string in single quotes, where nothing is escaped. -/
def literalString (cs : List Char) : Option (Parsed (List Char) cs) :=
  match cs with
  | [] => none
  | c :: r =>
    if c = '\'' then some (.first [])
    else if isPrintable c then do
      let more ← literalString r
      return ⟨c :: more.value, more.rest, Nat.lt_succ_of_lt more.rest_lt⟩
    else none

/-- Whether a character may stand in a key without quotes. -/
def isBareKeyChar (c : Char) : Bool := c.isAlphanum || c == '_' || c == '-'

/-- Reads one part of a key. -/
def simpleKey (cs : List Char) : Option (Parsed String cs) :=
  match cs with
  | [] => none
  | c :: r =>
    if c = '"' then do return ((← basicString r).map String.ofList).behind
    else if c = '\'' then do return ((← literalString r).map String.ofList).behind
    else if isBareKeyChar c then
      some ⟨String.ofList (c :: r.takeWhile isBareKeyChar), r.dropWhile isBareKeyChar,
        Nat.lt_succ_of_le (length_dropWhile_le _ r)⟩
    else none

/-- The parts of a key: those that lead to the table, and the last one. -/
structure KeyPath where
  path : List String
  last : String

/-- The number of parts of a key. -/
def KeyPath.size (key : KeyPath) : Nat := key.path.length + 1

/-- Reads the parts of a key, dots between them, and the blanks around them. -/
def keyParts (cs : List Char) : Option (Parsed KeyPath cs) := do
  let part ← simpleKey (skipBlanks cs)
  have hpart := Nat.lt_of_lt_of_le part.rest_lt (length_skipBlanks_le cs)
  have hblanks := Nat.lt_of_le_of_lt (length_skipBlanks_le part.rest) hpart
  match h : skipBlanks part.rest with
  | '.' :: r =>
    have hr := Nat.lt_trans (length_lt_of_skipBlanks_eq_cons h) hpart
    let more ← keyParts r
    return ⟨⟨part.value :: more.value.path, more.value.last⟩, more.rest,
      Nat.lt_trans more.rest_lt hr⟩
  | _ => return ⟨⟨[], part.value⟩, skipBlanks part.rest, hblanks⟩
termination_by cs.length

/-- Reads a key that does not have too many parts. -/
def keyPath (cs : List Char) : Option (Parsed KeyPath cs) := do
  let key ← keyParts cs
  if key.value.size ≤ maxKeySize then return key else none

/-- Whether a character may stand in a value without quotes or brackets. -/
def isScalarChar (c : Char) : Bool := c.isAlphanum || c == '+' || c == '-' || c == '_' || c == '.'

mutual

/-- Reads a value; `depth` more brackets may be opened. -/
def value (depth : Nat) (cs : List Char) : Option (Parsed Value cs) :=
  match cs with
  | [] => none
  | c :: r =>
    if c = '"' then do
      return ((← basicString r).map fun s => .string (String.ofList s)).behind
    else if c = '\'' then do
      return ((← literalString r).map fun s => .string (String.ofList s)).behind
    else if c = '[' then
      match depth with
      | 0 => none
      | inner + 1 => do return ((← items inner r).map .array).behind
    else if c = '{' then
      match depth with
      | 0 => none
      | inner + 1 =>
        match h : skipBlanks r with
        | '}' :: r' =>
          some ⟨.table [], r', Nat.lt_succ_of_lt (length_lt_of_skipBlanks_eq_cons h)⟩
        | _ => do
          return ((← fields inner (.empty .header) r).map Table.toValue).behind
    else if isScalarChar c then do
      return ⟨← scalar? (c :: r.takeWhile isScalarChar), r.dropWhile isScalarChar,
        Nat.lt_succ_of_le (length_dropWhile_le _ r)⟩
    else none
termination_by 2 * cs.length

/-- Reads the items of an array. A comma may follow the last one. -/
def items (depth : Nat) (cs : List Char) : Option (Parsed (List Value) cs) :=
  match h : skipGap cs with
  | [] => none
  | c :: r =>
    have hcs := length_lt_of_skipGap_eq_cons h
    if c = ']' then some ⟨[], r, hcs⟩
    else do
      let first ← value depth (c :: r)
      have hfirst := Nat.lt_of_lt_of_le first.rest_lt hcs
      match h' : skipGap first.rest with
      | ',' :: r' =>
        have hr' := Nat.lt_trans (length_lt_of_skipGap_eq_cons h') hfirst
        let others ← items depth r'
        return ⟨first.value :: others.value, others.rest, Nat.lt_trans others.rest_lt hr'⟩
      | ']' :: r' =>
        return ⟨[first.value], r', Nat.lt_trans (length_lt_of_skipGap_eq_cons h') hfirst⟩
      | _ => none
termination_by 2 * cs.length + 1

/-- Reads the members of an inline table. No comma may follow the last one. -/
def fields (depth : Nat) (t : Table) (cs : List Char) : Option (Parsed Table cs) := do
  let key ← keyPath cs
  match h : key.rest with
  | '=' :: r =>
    have hr := Nat.lt_of_le_of_lt (length_skipBlanks_le r) (key.length_lt_of_rest_eq_cons h)
    let v ← value depth (skipBlanks r)
    let t' ← t.insertAt key.value.path key.value.last v.value
    have hv := Nat.lt_trans v.rest_lt hr
    match h' : skipBlanks v.rest with
    | ',' :: r' =>
      have hr' := Nat.lt_trans (length_lt_of_skipBlanks_eq_cons h') hv
      return (← fields depth t' r').ofShorter hr'
    | '}' :: r' =>
      return ⟨t', r', Nat.lt_trans (length_lt_of_skipBlanks_eq_cons h') hv⟩
    | _ => none
  | _ => none
termination_by 2 * cs.length

end

/-- Reads a setting up to the end of its line. -/
def setting (cs : List Char) : Option (Parsed Line cs) := do
  let key ← keyPath cs
  match h : key.rest with
  | '=' :: r =>
    have hr := Nat.lt_of_le_of_lt (length_skipBlanks_le r) (key.length_lt_of_rest_eq_cons h)
    let v ← value maxNesting (skipBlanks r)
    let done ← lineEnd? v.rest
    return (done.ofShorter (Nat.lt_trans v.rest_lt hr)).map fun _ =>
      .setting key.value.path key.value.last v.value
  | _ => none

/-- Reads a header, from behind its opening brackets up to the end of its line. -/
def header (element : Bool) (cs : List Char) : Option (Parsed Line cs) := do
  let key ← keyPath cs
  let line : Line := if element then .element key.value.path key.value.last
    else .table key.value.path key.value.last
  let close (r : List Char) (hr : r.length < cs.length) : Option (Parsed Line cs) := do
    let done ← lineEnd? r
    return (done.ofShorter hr).map fun _ => line
  match h : key.rest with
  | ']' :: r =>
    have hr := key.length_lt_of_rest_eq_cons h
    if element then
      match r, hr with
      | ']' :: r', hr => close r' (Nat.lt_of_succ_lt hr)
      | _, _ => none
    else close r hr
  | _ => none

/-- Reads a header, from behind its first opening bracket. A second one opens the header of an
element. -/
def anyHeader (cs : List Char) : Option (Parsed Line cs) :=
  match cs with
  | '[' :: r => do return (← header true r).behind
  | cs => header false cs

/-- Adds all lines of a text to a document. -/
def readLines (d : Document) (cs : List Char) : Option Document :=
  match h : skipBlanks cs with
  | [] => some d
  | c :: r =>
    have hcs := length_lt_of_skipBlanks_eq_cons h
    if c = '#' ∨ c = '\n' ∨ c = '\r' then
      match h' : lineBreak? (skipComment (c :: r)) with
      | some rest =>
        have : rest.length < cs.length := Nat.lt_of_lt_of_le
          (Nat.lt_of_lt_of_le (length_lt_of_lineBreak? h') (length_skipComment_le (c :: r))) hcs
        readLines d rest
      | none => if (skipComment (c :: r)).isEmpty then some d else none
    else if c = '[' then do
      let line ← anyHeader r
      have := Nat.lt_trans line.rest_lt hcs
      readLines (← d.add line.value) line.rest
    else do
      let line ← setting (c :: r)
      have := Nat.lt_of_lt_of_le line.rest_lt hcs
      readLines (← d.add line.value) line.rest
termination_by cs.length

/-- The value of a TOML text. A byte order mark at its start is passed over. -/
def parse? (text : String) : Option Value := do
  let cs := match text.toList with
    | '\uFEFF' :: cs => cs
    | cs => cs
  return (← readLines .empty cs).root.toValue

end LambdaLift.Toml
