import KeywordCompletion.Url.Basic

/-!
# Reading URLs

`Url.parse` reads an absolute URL. White space around it and line breaks in it do not count.
Backslashes are slashes in URLs with a special scheme, and the path of a file may start with the
letter of a drive.
-/

namespace KeywordCompletion.Url

/-- A text without what does not count in a URL. -/
def cleaned (t : Text) : Text :=
  (Text.trim (fun c => c.toNat ≤ 0x20) t).filter fun c => c != '\t' && c != '\n' && c != '\r'

def isLetter (c : Char) : Bool := c.isAlpha

/-- The scheme in lower case at the head of a text, and what follows the colon after it. -/
def scheme? (t : Text) : Option (Text × Text) :=
  let isPart := fun c : Char => c.isAlphanum || c == '+' || c == '-' || c == '.'
  if t.head?.any isLetter then
    match t.dropWhile isPart with
    | ':' :: rest => some ((t.takeWhile isPart).map Char.toLower, rest)
    | _ => none
  else none

/-- Whether a text starts with a letter and a colon or bar, and no more segment follows. -/
def startsWithDrive : Text → Bool
  | letter :: mark :: rest =>
    isLetter letter && (mark == ':' || mark == '|') &&
      rest.head?.all fun c => c == '/' || c == '\\' || c == '?' || c == '#'
  | _ => false

def isDrive (segment : Text) : Bool := segment.length == 2 && startsWithDrive segment

/-- Whether a segment is the letter of a drive with a colon. -/
def isNormalDrive (segment : Text) : Bool := isDrive segment && segment.getLast? == some ':'

/-- Whether a segment is a dot, plain or encoded. -/
def isDot (segment : Text) : Bool := segment.map Char.toLower ∈ [['.'], ['%', '2', 'e']]

/-- Whether a segment is two dots, plain or encoded. -/
def isDoubleDot (segment : Text) : Bool :=
  segment.map Char.toLower ∈ [['.', '.'], ['.', '%', '2', 'e'], ['%', '2', 'e', '.'],
    ['%', '2', 'e', '%', '2', 'e']]

def endsWithSlash (t : Text) : Bool := t.getLast? == some '/'

/-- The part of a text before its last slash, and the part from there on. -/
def splitLastSlash (t : Text) : Text × Text :=
  let after := (t.reverse.takeWhile (· != '/')).length + 1
  (t.take (t.length - after), t.drop (t.length - after))

/-- A path without its last segment, which a drive letter is not. -/
def dropSegment (file : Bool) (path : Text) : Text :=
  if path.isEmpty then path
  else
    let (before, segment) := splitLastSlash path
    if file && isNormalDrive (segment.drop 1) then path else before ++ ['/']

/-- A path after two dots: first the slash at its end goes, unless it is the first one or follows
the letter of a drive, then the last segment. -/
def goUp (file : Bool) (path : Text) : Text :=
  let shorter := path.dropLast
  let removable := endsWithSlash path && shorter.contains '/' &&
    !startsWithDrive ((splitLastSlash shorter).2.drop 1 ++ ['/'])
  dropSegment file (if removable then shorter else path)

/-- A path with the characters of a segment added, and where the segment starts in it. A slash is put
between the letter of a drive and what follows it. -/
def addSegment (file : Bool) (path segment : Text) : Text × Nat :=
  segment.foldl (fun (path, start) c =>
    let (path, start) :=
      if file && isNormalDrive (path.drop 1) then (path ++ ['/'], start + 1) else (path, start)
    (path ++ percentEncode inPath (Text.encode [c]), start)) (path, path.length)

/-- Whether a character ends a segment and starts another. -/
def isSlash (special : Bool) (c : Char) : Bool := c == '/' || (special && c == '\\')

def endsPath (c : Char) : Bool := c == '?' || c == '#'

/-- A path after one more segment, and whether the URL still has a host: the letter of a drive takes
it away. -/
def closeSegment (file slash hasHost : Bool) (path : Text) (start : Nat) : Text × Bool :=
  let segment := path.drop start
  let tail := if slash then ['/'] else []
  if isDoubleDot segment then
    let up := goUp file (path.take start)
    (if slash && !endsWithSlash up then up ++ ['/'] else up, hasHost)
  else if isDot segment then
    let here := path.take start
    (if endsWithSlash here then here else here ++ ['/'], hasHost)
  else if file && isDrive segment then (path.take start ++ segment.take 1 ++ [':'] ++ tail, false)
  else (path ++ tail, hasHost)

/-- The path of which some is known, whether the URL still has a host, and what follows the path. -/
def pathFrom (special file hasHost : Bool) (path t : Text) : Text × Bool × Text :=
  let inSegment := fun c => !isSlash special c && !endsPath c
  let (longer, start) := addSegment file path (t.takeWhile inSegment)
  match _h : t.dropWhile inSegment with
  | c :: rest =>
    if isSlash special c then
      let (path, hasHost) := closeSegment file true hasHost longer start
      pathFrom special file hasHost path rest
    else
      let (path, hasHost) := closeSegment file false hasHost longer start
      (path, hasHost, c :: rest)
  | [] =>
    let (path, hasHost) := closeSegment file false hasHost longer start
    (path, hasHost, [])
termination_by t.length
decreasing_by
  have := (List.dropWhile_sublist inSegment (l := t)).length_le
  rw [_h] at this
  simp only [List.length_cons] at this
  omega

def withOneSlash (path : Text) : Text := '/' :: path.dropWhile (· == '/')

/-- The path at the head of a text, after some of it is known. -/
def hierarchicalPath (scheme : Text) (hasHost : Bool) (path t : Text) : Text × Bool × Text :=
  let file := isFile scheme
  let (path, hasHost, rest) := pathFrom (isSpecial scheme) file hasHost path t
  (if file then withOneSlash path else path, hasHost, rest)

def pathAfterAuthority (scheme : Text) (emptyFileHost : Bool) (t : Text) : Text × Bool × Text :=
  if isSpecial scheme then
    if emptyFileHost then hierarchicalPath scheme true [] t
    else match t with
      | c :: rest =>
        if isSlash true c then hierarchicalPath scheme true ['/'] rest
        else hierarchicalPath scheme true ['/'] t
      | [] => hierarchicalPath scheme true ['/'] t
  else match t with
    | c :: _ =>
      if endsPath c then ([], true, t)
      else hierarchicalPath scheme true (if c == '/' then [] else ['/']) t
    | [] => hierarchicalPath scheme true [] t

def queryAndFragment (scheme t : Text) : Option Text × Option Text :=
  let fragment := fun t : Text => percentEncode inFragment (Text.encode t)
  match t with
  | '?' :: rest =>
    let query := percentEncode (inQuery (isSpecial scheme)) (Text.encode (rest.takeWhile (· != '#')))
    match rest.dropWhile (· != '#') with
    | _ :: rest => (some query, some (fragment rest))
    | [] => (some query, none)
  | '#' :: rest => (none, some (fragment rest))
  | _ => (none, none)

/-- A URL with the query and the fragment that a text holds. -/
def withRest (scheme : Text) (authority : Option UrlAuthority) (path rest : Text) : Url :=
  let (query, fragment) := queryAndFragment scheme rest
  ⟨scheme, authority, path, query, fragment⟩

/-- The characters of an authority up to its last at sign, and what follows it. -/
def splitUserInfo (special : Bool) (t : Text) : Option (Text × Text) :=
  let inAuthority := fun c => !isSlash special c && !endsPath c
  let authority := t.takeWhile inAuthority
  if authority.contains '@' then
    let host := (authority.reverse.takeWhile (· != '@')).reverse
    some (authority.take (authority.length - host.length - 1),
      host ++ t.dropWhile inAuthority)
  else none

/-- A user name and a password as they are written: encoded, without an empty password, and with an
at sign unless both are empty. -/
def userInfo (t : Text) : Text :=
  let encode := fun t : Text => percentEncode inUserInfo (Text.encode t)
  let name := encode (t.takeWhile (· != ':'))
  let password := encode ((t.dropWhile (· != ':')).drop 1)
  let both := if password.isEmpty then name else name ++ ':' :: password
  if both.isEmpty then [] else both ++ ['@']

/-- The user information at the head of an authority, and what follows it. -/
def parseUserInfo (special : Bool) (t : Text) : Except UrlError (Text × Text) :=
  match splitUserInfo special t with
  | none => .ok ([], t)
  | some ([], rest) =>
    if rest.head?.any fun c => isSlash special c || endsPath c then .error .emptyHost
    else .ok ([], rest)
  | some (info, rest) => .ok (userInfo info, rest)

/-- The characters of a host at the head of a text: up to a colon outside brackets, a slash or the
end of the path. -/
def hostLength (special : Bool) : Bool → Text → Nat
  | _, [] => 0
  | inBrackets, c :: t =>
    if (c == ':' && !inBrackets) || isSlash special c || endsPath c then 0
    else 1 + hostLength special (if c == '[' then true else if c == ']' then false else inBrackets) t

/-- The port at the head of a text after its colon, unless it is the default one, and what
follows. -/
def parsePort (scheme t : Text) : Except UrlError (Option Nat × Text) :=
  let ds := t.takeWhile Char.isDigit
  let rest := t.dropWhile Char.isDigit
  let port := ds.foldl (fun n c => n * 10 + (c.toNat - '0'.toNat)) 0
  if 0xFFFF < port ∨ rest.head?.any (fun c => !isSlash true c && !endsPath c) then
    .error .invalidPort
  else .ok (if ds.isEmpty || defaultPort? scheme == some port then none else some port, rest)

def parseAuthority (scheme t : Text) : Except UrlError Url := do
  let special := isSpecial scheme
  let (info, t) ← parseUserInfo special t
  let length := hostLength special false t
  let written := t.take length
  let rest := t.drop length
  if written.isEmpty && (special || rest.head? == some ':') then .error .emptyHost
  else
    let host ← if special then Host.parseSpecial written else Host.parseOpaque written
    let (port, rest) ← match rest with
      | ':' :: rest => parsePort scheme rest
      | _ => .ok (none, rest)
    let host := if host = .domain [] then none else some host
    if host.isNone && !info.isEmpty then .error .emptyHost
    else
      let (path, _, rest) := pathAfterAuthority scheme false rest
      return withRest scheme (some ⟨info, host, port⟩) path rest

def parseFileHost (scheme t : Text) : Except UrlError Url := do
  let inHost := fun c => !isSlash true c && !endsPath c
  let written := t.takeWhile inHost
  let rest := t.dropWhile inHost
  if isDrive written then
    let (path, _, rest) := hierarchicalPath scheme true ['/'] t
    return withRest scheme (some ⟨[], none, none⟩) path rest
  else
    let host ← if written.isEmpty then .ok none else (Host.parseSpecial written).map some
    let host := if host = some (.domain "localhost".toList) then none else host
    let (path, hasHost, rest) := pathAfterAuthority scheme host.isNone rest
    return withRest scheme (some ⟨[], if hasHost then host else none, none⟩) path rest

def parseFile (scheme t : Text) : Except UrlError Url :=
  let plain := fun path t =>
    let (path, _, rest) := hierarchicalPath scheme false path t
    Except.ok (withRest scheme (some ⟨[], none, none⟩) path rest)
  match t with
  | c :: rest =>
    if isSlash true c then
      match rest with
      | d :: more => if isSlash true d then parseFileHost scheme more else plain [] t
      | [] => plain [] t
    else plain ['/'] t
  | [] => plain ['/'] t

/-- The URL that follows a scheme that is not special: with an authority, with a path from the
root, or with a path that is not divided. -/
def parseOther (scheme t : Text) : Except UrlError Url :=
  match t with
  | '/' :: '/' :: rest => parseAuthority scheme rest
  | '/' :: rest =>
    let (path, _, rest) := hierarchicalPath scheme false ['/'] rest
    .ok (withRest scheme none path rest)
  | t =>
    let path := percentEncode isControl (Text.encode (t.takeWhile fun c => !endsPath c))
    .ok (withRest scheme none path (t.dropWhile fun c => !endsPath c))

def parse (t : Text) : Except UrlError Url :=
  match scheme? (cleaned t) with
  | none => .error .relativeWithoutBase
  | some (scheme, rest) =>
    if isFile scheme then parseFile scheme rest
    else if isSpecial scheme then parseAuthority scheme (rest.dropWhile (isSlash true))
    else parseOther scheme rest

end KeywordCompletion.Url
