/-
# URIs

A URI is a scheme, an authority, a path and a query, each of them optional in
some combination: a path alone, an authority alone, or all of them from the
scheme on. A fragment is cut off when the URI is read.

The host and the port are read off the authority. The target of a request is
the path and the query; it is never empty.

Key definitions: `Uri`, `Uri.parse`, `Uri.host`, `Uri.port`, `Uri.target`,
`Uri.text`.
-/
import Http1Client.Bytes

namespace Http1Client

/-- What can be wrong with the text of a URI. -/
inductive UriError where
  | empty
  | tooLong
  | badChar
  | badAuthority
  | badFormat
  | schemeTooLong
  deriving DecidableEq, Repr

namespace UriError

def text : UriError → String
  | empty => "empty string"
  | tooLong => "uri too long"
  | badChar => "invalid uri character"
  | badAuthority => "invalid authority"
  | badFormat => "invalid format"
  | schemeTooLong => "scheme too long"

end UriError

/-- A URI, its parts as they are written. -/
structure Uri where
  scheme : Option (List Char) := none
  authority : Option (List Char) := none
  path : List Char := []
  query : Option (List Char) := none
  deriving DecidableEq, Repr

namespace Uri

/-! ### Character classes -/

/-- The characters of a scheme. -/
def isSchemeChar (c : Char) : Bool := c.isAlphanum || "+-.~".toList.contains c

/-- The characters of an authority. -/
def isAuthorityChar (c : Char) : Bool :=
  c.isAlphanum || "!$&'()*+,-.:;=@[]_~%".toList.contains c

/-- Does the character end an authority? -/
def endsAuthority (c : Char) : Bool := c == '/' || c == '?' || c == '#'

/-- The characters of a path. Those that ought to be encoded but are commonly
sent as they are count among them, and all characters outside ASCII. -/
def isPathChar (c : Char) : Bool :=
  let n := c.toNat
  n == 0x21 || (0x24 ≤ n && n ≤ 0x3B) || n == 0x3D || (0x40 ≤ n && n ≤ 0x5F) ||
    (0x61 ≤ n && n ≤ 0x7A) || n == 0x7C || n == 0x7E || n == 0x22 || n == 0x7B || n == 0x7D ||
    0x80 ≤ n

/-- The characters of a query. -/
def isQueryChar (c : Char) : Bool :=
  let n := c.toNat
  n == 0x21 || (0x24 ≤ n && n ≤ 0x3B) || n == 0x3D || (0x3F ≤ n && n ≤ 0x7E) || 0x80 ≤ n

/-! ### Reading -/

/-- The most bytes a URI may have. -/
def sizeLimit : Nat := 65534

/-- The most characters a scheme may have. -/
def schemeLimit : Nat := 64

/-- The most colons an authority may have before a bracket or an at sign. -/
def colonLimit : Nat := 8

/-- Splits a scheme off, if there is one. The two common schemes may be
written in any letter case. -/
def splitScheme (s : List Char) : Except UriError (Option (List Char) × List Char) :=
  if (s.take 7).map Char.toLower = "http://".toList then .ok (some "http".toList, s.drop 7)
  else if (s.take 8).map Char.toLower = "https://".toList then .ok (some "https".toList, s.drop 8)
  else match s.dropWhile isSchemeChar with
    | ':' :: '/' :: '/' :: rest =>
      let scheme := s.takeWhile isSchemeChar
      if scheme = [] ∧ rest = [] then .ok (none, s)
      else if schemeLimit < scheme.length then .error .schemeTooLong
      else .ok (some scheme, rest)
    | _ => .ok (none, s)

/-- What has been seen of an authority. Colons and percent signs in front of
an at sign or inside brackets do not count. -/
structure AuthorityScan where
  colons : Nat := 0
  opened : Bool := false
  closed : Bool := false
  percent : Bool := false
  /-- Was the last character an at sign? -/
  atSign : Bool := false

namespace AuthorityScan

/-- Takes one more character. -/
def step (s : AuthorityScan) (c : Char) : Except UriError AuthorityScan :=
  if c = ':' then
    if colonLimit ≤ s.colons then .error .badAuthority
    else .ok { s with colons := s.colons + 1, atSign := false }
  else if c = '[' then
    if s.percent || s.opened then .error .badAuthority
    else .ok { s with opened := true, atSign := false }
  else if c = ']' then
    if !s.opened || s.closed then .error .badAuthority
    else .ok { s with closed := true, colons := 0, percent := false, atSign := false }
  else if c = '@' then .ok { s with colons := 0, percent := false, atSign := true }
  else if c = '%' then .ok { s with percent := true, atSign := false }
  else if isAuthorityChar c then .ok { s with atSign := false }
  else .error .badChar

/-- May the authority end here? -/
def mayEnd (s : AuthorityScan) : Bool :=
  s.opened == s.closed && s.colons ≤ 1 && !s.atSign && !s.percent

end AuthorityScan

/-- Splits the authority off. -/
def splitAuthority (s : List Char) : Except UriError (List Char × List Char) :=
  if s = [] then .error .empty
  else
    let authority := s.takeWhile fun c => !endsAuthority c
    match authority.foldlM AuthorityScan.step {} with
    | .error e => .error e
    | .ok seen =>
      if seen.mayEnd then .ok (authority, s.dropWhile fun c => !endsAuthority c)
      else .error .badAuthority

/-- Splits a path from the query behind it, if there is one. -/
def splitPath (s : List Char) : Except UriError (List Char × Option (List Char)) :=
  let path := s.takeWhile fun c => c != '?' && c != '#'
  if !path.all isPathChar then .error .badChar
  else match s.dropWhile fun c => c != '?' && c != '#' with
    | '?' :: rest =>
      let query := rest.takeWhile (· != '#')
      if query.all isQueryChar then .ok (path, some query) else .error .badChar
    | _ => .ok (path, none)

/-- Reads a URI that does not start with a slash. -/
def parseAbsolute (s : List Char) : Except UriError Uri := do
  let (scheme, rest) ← splitScheme s
  let (authority, left) ← splitAuthority rest
  match scheme with
  | none =>
    if left = [] then .ok { authority := some authority }
    else if s.length = 1 then .error .badChar
    else .error .badFormat
  | some scheme =>
    if authority = [] then .error .badFormat
    else
      let (path, query) ← splitPath left
      .ok { scheme := some scheme, authority := some authority, path, query }

/-- Reads a URI. -/
def parse (s : List Char) : Except UriError Uri :=
  if sizeLimit < (Bytes.utf8 s).length then .error .tooLong
  else match s with
    | [] => .error .empty
    | ['*'] => .ok { path := ['*'] }
    | '/' :: _ => do
      let (path, query) ← splitPath s
      .ok { path, query }
    | _ => parseAbsolute s

/-! ### Parts -/

/-- What stands behind the last `c`, if there is one. -/
def afterLast (c : Char) : List Char → Option (List Char)
  | [] => none
  | x :: xs =>
    match afterLast c xs with
    | some r => some r
    | none => if x = c then some xs else none

/-- The host of an authority: it stands behind the user information and before
the port, and keeps the brackets of an address. -/
def hostOf (authority : List Char) : List Char :=
  match (afterLast '@' authority).getD authority with
  | '[' :: rest => '[' :: (rest.takeWhile (· != ']') ++ [']'])
  | hostPort => hostPort.takeWhile (· != ':')

/-- The number that decimal digits denote after the number `acc`. -/
def decimalValue (acc : Nat) : List Char → Nat
  | [] => acc
  | c :: cs => decimalValue (acc * 10 + (c.toNat - 48)) cs

/-- The number below 65536 that the text denotes. A plus sign may stand in
front. -/
def portNumber? (s : List Char) : Option Nat :=
  let digits := match s with
    | '+' :: rest => rest
    | _ => s
  if digits ≠ [] ∧ digits.all Char.isDigit ∧ decimalValue 0 digits < 65536 then
    some (decimalValue 0 digits)
  else none

/-- The port of an authority: the number behind its last colon, if it is one. -/
def portOf (authority : List Char) : Option Nat := (afterLast ':' authority).bind portNumber?

/-- The host, if the URI has an authority. -/
def host (u : Uri) : Option (List Char) := u.authority.map hostOf

/-- The port that the URI names. -/
def namedPort (u : Uri) : Option Nat := u.authority.bind portOf

/-- The port that the URI means: the one it names, or the usual one of its
scheme. -/
def port (u : Uri) : Nat :=
  u.namedPort.getD (if u.scheme = some "https".toList then 443 else 80)

/-- A query with the mark in front. -/
def queryText : Option (List Char) → List Char
  | none => []
  | some q => '?' :: q

/-- The target of a request for the URI: the path and the query, a slash where
both are empty. -/
def target (u : Uri) : List Char :=
  match u.path ++ queryText u.query with
  | [] => ['/']
  | t => t

/-- The path as the URI shows it: an empty one reads as a slash behind a
scheme. -/
def shownPath (u : Uri) : List Char :=
  if u.path = [] ∧ u.scheme.isSome then ['/'] else u.path

/-- The URI as text. -/
def text (u : Uri) : String :=
  let scheme := match u.scheme with
    | none => []
    | some s => s ++ "://".toList
  String.ofList (scheme ++ u.authority.getD [] ++ u.shownPath ++ queryText u.query)

end Uri
end Http1Client
