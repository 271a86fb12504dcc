import BillRun.Fault

/-! The environment, whose names and values are bytes.

A text is kept as the bytes of its UTF-8, where U+DC80 to U+DCFF stand for single bytes from 0x80 to
0xff. Read back, bytes that make a character give that character, whatever they stood for, and the
others give their surrogate again. -/
namespace BillRun.Settings.Environment

/-- The surrogate of the byte 0. -/
def escapeBase : Nat := 0xdc00

/-- The bytes of a code point; surrogates that stand for no byte have none. -/
def bytes? (code : Nat) : Option (List Nat) :=
  if escapeBase + 0x80 ≤ code ∧ code < escapeBase + 0x100 then some [code - escapeBase]
  else if LooseText.isSurrogate code then none
  else some ((String.singleton (Char.ofNat code)).toUTF8.toList.map UInt8.toNat)

/-- How many bytes follow the first one of a character, and the bits of the first that count. -/
def lead? (byte : Nat) : Option (Nat × Nat) :=
  if byte < 0x80 then some (0, byte)
  else if 0xc0 ≤ byte ∧ byte < 0xe0 then some (1, byte - 0xc0)
  else if 0xe0 ≤ byte ∧ byte < 0xf0 then some (2, byte - 0xe0)
  else if 0xf0 ≤ byte ∧ byte < 0xf8 then some (3, byte - 0xf0)
  else none

/-- The character that begins with a byte, and how many of the bytes after it are its own. Only the
shortest form counts. -/
def character? (byte : Nat) (more : List Nat) : Option (Nat × Nat) := do
  let (count, high) ← lead? byte
  let own := more.take count
  let code := own.foldl (fun n b => n * 64 + (b - 0x80)) high
  if code.isValidChar ∧ bytes? code = some (byte :: own) then some (code, count) else none

/-- The code points of bytes. -/
def codes : List Nat → List Nat
  | [] => []
  | byte :: more =>
    match character? byte more with
    | some (code, count) => code :: codes (more.drop count)
    | none => (escapeBase + byte) :: codes more
termination_by bytes => bytes.length

/-- A text as the environment gives it back. -/
def kept (s : LooseText) : Except Fault LooseText :=
  match s.codes.mapM bytes? with
  | some bytes => .ok (.ofCodes (codes bytes.flatten))
  | none => .error .unpaired

/-- Whether a null character, which no variable may hold, is in the text. -/
def hasNull (s : LooseText) : Bool := s.codes.contains 0

/-- A variable and its value as the environment gives them back. -/
def keptEntry (name value : LooseText) : Except Fault (LooseText × LooseText) := do
  let entry := (← kept name, ← kept value)
  if hasNull name ∨ hasNull value then throw .nullCharacter
  if name.codes.contains '='.toNat then throw .variableName
  if name.codes.isEmpty then throw .noVariableName
  return entry

/-- The variables whose names are texts. -/
def read (entries : List (LooseText × LooseText)) : Except Fault (List (String × LooseText)) := do
  let entries ← entries.mapM fun (name, value) => keptEntry name value
  return entries.filterMap fun (name, value) => name.text?.map (·, value)

end BillRun.Settings.Environment
