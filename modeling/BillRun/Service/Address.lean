import BillRun.Assoc
import BillRun.Fault
import BillRun.Service.Host
import BillRun.Text.Numeral

/-! Addresses, and the path each names.

An address may have a scheme, an authority, a query and a fragment. Only one with a scheme and a
host leaves the service; of any other the path counts, and that from the root. In the path the
segments `.` and `..` are resolved, and escapes such as `%2F` are undone twice: by whoever sends the
request and by whoever serves it. `read` refuses what does not read as an address. What reads may
still fail when it is sent; otherwise `route` is the path that the service is asked for. -/
namespace BillRun.Service

open Text

/-- The parts of an address that say where a request goes. -/
structure Address where
  scheme : List Char
  host : List Char
  /-- The number after the host; none where it is the usual one of the scheme. -/
  channel : Option Int
  /-- As it is sent, with escapes. -/
  path : List Char

namespace Address

/-! ### Parts -/

def isSchemeChar (c : Char) : Bool := c.isAlphanum || c = '+' || c = '.' || c = '-'

/-- The scheme and what follows its colon; the scheme may be empty. -/
def splitScheme (cs : List Char) : List Char × List Char :=
  match cs.span isSchemeChar with
  | (scheme, ':' :: rest) => if scheme.head?.all Char.isAlpha then (scheme, rest) else ([], cs)
  | _ => ([], cs)

/-- The authority after two slashes, and what follows it. -/
def splitAuthority : List Char → List Char × List Char
  | '/' :: '/' :: cs => cs.span fun c => c ≠ '/' && c ≠ '?' && c ≠ '#'
  | cs => ([], cs)

/-- The text before the last occurrence of a character, and the text after it. -/
def splitLast? (c : Char) (cs : List Char) : Option (List Char × List Char) :=
  match cs.reverse.span (· ≠ c) with
  | (after, _ :: before) => some (before.reverse, after.reverse)
  | (_, []) => none

/-- The host, which may be in brackets, and what follows its colon. -/
def splitHost (cs : List Char) : List Char × List Char :=
  let (host, rest) := match cs, splitLast? ']' cs with
    | '[' :: _, some (inside, rest) => (inside ++ [']'], rest)
    | _, _ => cs.span (· ≠ ':')
  match rest with
  | ':' :: rest => (host, rest)
  | rest => (host, rest)

/-- A host in brackets goes without them from here on. -/
def readHost (host : List Char) : Except Fault (List Char) :=
  let refusedUnless (valid : Bool) (host : List Char) : Except Fault (List Char) :=
    if valid then .ok host else .error .address
  match host, splitLast? ']' host with
  | '[' :: _, some ('[' :: inside, []) => refusedUnless (Host.isEightGroups inside) inside
  | _, _ =>
    let valid := if Host.looksNumeric host then Host.isFourOctets host else Host.isName host
    refusedUnless valid host

/-- The number that a scheme stands for when none is given. -/
def usualChannel? (scheme : List Char) : Option Int :=
  Assoc.get? (String.ofList scheme)
    [("ftp", 21), ("http", 80), ("https", 443), ("ws", 80), ("wss", 443)]

/-- The number after a host, if it is not the usual one. -/
def readChannel (scheme text : List Char) : Except Fault (Option Int) :=
  if text.isEmpty then .ok none
  else
    match integerText? (String.ofList text) with
    | some n => .ok (if some n = usualChannel? scheme then none else some n)
    | none => .error .address

/-! ### Paths -/

/-- One more segment, the last one first; two dots take the last one back, but never the root. -/
def descend (known : List (List Char)) (segment : List Char) : List (List Char) :=
  if segment = ['.'] then known
  else if segment = ['.', '.'] then if known = [[]] then known else known.tail
  else segment :: known

/-- The path with its dots resolved. -/
def normal (cs : List Char) : List Char :=
  ['/'].intercalate ((Host.cut '/' cs).foldl descend []).reverse

/-- Escapes undone; a percent sign without two digits after it stands for itself. -/
def unescape : List Char → List Char
  | '%' :: a :: b :: cs =>
    match readHexFrom 0 2 [a, b] with
    | some (n, _) => Char.ofNat n :: unescape cs
    | none => '%' :: unescape (a :: b :: cs)
  | c :: cs => c :: unescape cs
  | [] => []
termination_by cs => cs.length

/-! ### Whole addresses -/

def isControl (c : Char) : Bool := c.toNat < 0x20 || c.toNat = 0x7f

/-- How many characters an address may have. -/
def longest : Nat := 65536

/-- The address, as it stands. -/
def parse (cs : List Char) : Except Fault Address := do
  if longest < cs.length ∨ cs.any isControl then throw .address
  let (scheme, rest) := splitScheme cs
  let (authority, rest) := splitAuthority rest
  let path := rest.takeWhile fun c => c ≠ '?' && c ≠ '#'
  let (user, place) := (splitLast? '@' authority).getD ([], authority)
  let (host, number) := splitHost place
  let host ← readHost host
  let channel ← readChannel scheme number
  if scheme.isEmpty && user.isEmpty && host.isEmpty && channel.isNone then
    if ['/', '/'].isPrefixOf path || [':'].isPrefixOf path then throw .address
    return ⟨scheme, host, channel, path⟩
  else return ⟨scheme.map Char.toLower, host, channel, normal path⟩

/-- The address of the service, with a path from its root. -/
def within (path : List Char) : Except Fault Address :=
  let path := '/' :: path.dropWhile (· = '/')
  if longest < path.length then .error .address
  else .ok ⟨"http".toList, "service".toList, none, normal path⟩

/-- The address that a text names, within the service unless it has a scheme and a host. -/
def read (s : LooseText) : Except Fault Address := do
  let a ← parse (s.codes.map LooseText.char)
  discard s.send
  if a.scheme.isEmpty || a.host.isEmpty then within a.path else return a

/-- The host and the channel as the service is told them. -/
def location (a : Address) : List Char :=
  let host := if a.host.contains ':' then '[' :: a.host ++ [']'] else a.host
  host ++ match a.channel with
    | some n => ':' :: integer n
    | none => []

/-- The path that the service is asked for. After the first colon there must be a number, so a
host that holds colons cannot be served. -/
def route (a : Address) : Except Fault (List Char) := do
  let known (names : List String) : Bool := names.any fun name => a.scheme = name.toList
  unless known ["http", "https", "ws", "wss"] do throw .scheme
  if a.host.contains ':' then
    throw (.channel (String.ofList ((a.location.dropWhile (· ≠ ':')).drop 1)))
  if known ["ws", "wss"] then throw .connection
  return unescape (unescape (if a.path.isEmpty then ['/'] else a.path))

end Address

end BillRun.Service
