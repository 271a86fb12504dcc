import BillRun.Assoc
import BillRun.Text.Blank
import BillRun.Text.Loose

/-! Files of settings: lines of the form `NAME=value`.

A line may begin with `export`, names may be in single quotes, and values may be in either kind of
quotes and then run over several lines. A value without quotes ends with the line or before a
comment, which begins at a hash sign after a blank. A name without `=` has no value. A line of
another form is passed over. `${NAME}` in a value stands for the value of an earlier name or of the
environment, and `${NAME:-other}` falls back to what follows the hyphen. -/
namespace BillRun.Settings.EnvFile

open Text

/-- Every line break as the one character. -/
def oneNewline : List Char → List Char
  | '\r' :: '\n' :: cs => '\n' :: oneNewline cs
  | '\r' :: cs => '\n' :: oneNewline cs
  | c :: cs => c :: oneNewline cs
  | [] => []

/-- A blank within a line. -/
def isGap (c : Char) : Bool := isBlank c && c ≠ '\n'

def dropGap (cs : List Char) : List Char := cs.dropWhile isGap

def restOfLine (cs : List Char) : List Char := (cs.dropWhile (· ≠ '\n')).drop 1

/-- A part of a line, or what is left where the line stops making sense. -/
abbrev Part (α : Type) := Except (List Char) (α × List Char)

/-- Past the word that a line may begin with. -/
def dropExport (cs : List Char) : List Char :=
  let word := "export".toList
  let rest := cs.drop word.length
  if word.isPrefixOf cs && rest.head?.any isGap then dropGap rest else cs

/-- No name where a comment begins. -/
def readKey (cs : List Char) : Part (Option (List Char)) :=
  match cs with
  | '#' :: _ => .ok (none, cs)
  | '\'' :: rest =>
    match rest.span (· ≠ '\'') with
    | ([], _) | (_, []) => .error cs
    | (key, _ :: rest) => .ok (some key, rest)
  | _ =>
    let stops (c : Char) : Bool := c = '=' || c = '#' || isBlank c
    let key := cs.takeWhile fun c => !stops c
    if key.isEmpty then .error cs else .ok (some key, cs.dropWhile fun c => !stops c)

/-- Up to the closing quote; the character after a backslash does not close. -/
def scanQuoted (quote : Char) : List Char → Option (List Char × List Char)
  | '\\' :: c :: cs => (scanQuoted quote cs).map fun (value, rest) => ('\\' :: c :: value, rest)
  | c :: cs =>
    if c = quote then some ([], cs)
    else (scanQuoted quote cs).map fun (value, rest) => (c :: value, rest)
  | [] => none

/-- Escapes undone: every character that `meaning` knows, after a backslash. -/
def unescape (meaning : Char → Option Char) : List Char → List Char
  | '\\' :: c :: cs =>
    match meaning c with
    | some m => m :: unescape meaning cs
    | none => '\\' :: unescape meaning (c :: cs)
  | c :: cs => c :: unescape meaning cs
  | [] => []
termination_by cs => cs.length

/-- What can be escaped in single quotes. -/
def singleMeaning (c : Char) : Option Char := if c = '\\' ∨ c = '\'' then some c else none

/-- What can be escaped in double quotes. -/
def doubleMeaning : Char → Option Char
  | '\\' => some '\\'
  | '\'' => some '\''
  | '"' => some '"'
  | 'a' => some '\x07'
  | 'b' => some '\x08'
  | 'f' => some '\x0c'
  | 'n' => some '\n'
  | 'r' => some '\r'
  | 't' => some '\t'
  | 'v' => some '\x0b'
  | _ => none

/-- The line up to a hash sign that follows a blank. -/
def beforeComment : List Char → List Char
  | a :: b :: cs => if isBlank a && b = '#' then [] else a :: beforeComment (b :: cs)
  | cs => cs

/-- The value after an equals sign; blanks at its ends do not count unless they are quoted. -/
def readValue (cs : List Char) : Part (List Char) :=
  let quotedBy (quote : Char) (meaning : Char → Option Char) (rest : List Char) :
      Part (List Char) :=
    match scanQuoted quote rest with
    | some (value, rest) => .ok (unescape meaning value, rest)
    | none => .error (quote :: rest)
  match dropGap cs with
  | '\'' :: rest => quotedBy '\'' singleMeaning rest
  | '"' :: rest => quotedBy '"' doubleMeaning rest
  | _ =>
    let line := cs.takeWhile (· ≠ '\n')
    .ok (stripBlanks (beforeComment line), cs.dropWhile (· ≠ '\n'))

/-- Past a comment and the end of the line. -/
def readEnd (cs : List Char) : Part Unit :=
  let cs := match dropGap cs with
    | '#' :: rest => rest.dropWhile (· ≠ '\n')
    | _ => cs
  match dropGap cs with
  | [] => .ok ((), [])
  | '\n' :: rest => .ok ((), rest)
  | _ => .error cs

/-- A name with its value, or with none. -/
abbrev Binding := List Char × Option (List Char)

/-- A line from its first character on: what it binds, if anything, and what comes after it. -/
def readLine (cs : List Char) : Except (List Char) (Option Binding × List Char) := do
  let (key, cs) ← readKey (dropExport cs)
  let (value, cs) ← match dropGap cs with
    | '=' :: cs =>
      let (value, cs) ← readValue cs
      pure (some value, cs)
    | cs => pure (none, cs)
  let (_, cs) ← readEnd cs
  return (key.map (·, value), cs)

/-- The bindings of all lines that make sense. -/
def readLines : (fuel : Nat) → List Char → List Binding
  | 0, _ => []
  | fuel + 1, cs =>
    match cs.dropWhile isBlank with
    | [] => []
    | cs =>
      match readLine cs with
      | .ok (binding, rest) => binding.toList ++ readLines fuel rest
      | .error rest => readLines fuel (restOfLine rest)

/-! ### References -/

/-- A reference at the start: its name, its fallback, and what follows. -/
def readReference (cs : List Char) : Option ((List Char × List Char) × List Char) :=
  match cs with
  | '$' :: '\x7b' :: cs =>
    match cs.span fun c => c ≠ '\x7d' && c ≠ ':' with
    | (name, '\x7d' :: cs) => some ((name, []), cs)
    | (name, ':' :: '-' :: cs) =>
      match cs.span (· ≠ '\x7d') with
      | (fallback, _ :: cs) => some ((name, fallback), cs)
      | _ => none
    | _ => none
  | _ => none

/-- The code points of a text with its references replaced; `value?` tells a name that has no value
from an unknown one. -/
def expand (value? : String → Option (Option LooseText)) : (fuel : Nat) → List Char → List Nat
  | 0, cs => cs.map Char.toNat
  | _, [] => []
  | fuel + 1, c :: cs =>
    match readReference (c :: cs) with
    | some ((name, fallback), rest) =>
      let replacement : LooseText := match value? (String.ofList name) with
        | some value => value.getD ""
        | none => String.ofList fallback
      replacement.codes ++ expand value? fuel rest
    | none => c.toNat :: expand value? fuel cs

/-- Names with their values; each value may refer to the names before it, and to those of the
environment. -/
def resolve (environment : List (String × LooseText)) (bindings : List Binding) :
    List (String × Option LooseText) :=
  bindings.foldl (fun known (name, value) =>
    let value? (n : String) := Assoc.get? n known <|> (Assoc.get? n environment).map some
    let value := value.map fun cs => LooseText.ofCodes (expand value? cs.length cs)
    Assoc.put (String.ofList name) value known) []

/-- Names and values of a file, in the order in which the names first come. A byte order mark at
the start does not count. -/
def read (environment : List (String × LooseText)) (text : String) :
    List (String × Option LooseText) :=
  let cs := oneNewline (match text.toList with
    | '\ufeff' :: cs => cs
    | cs => cs)
  resolve environment (readLines (cs.length + 1) cs)

end BillRun.Settings.EnvFile
