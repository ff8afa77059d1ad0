import KeywordCompletion.Url.Host

/-!
# URLs

A URL in its normal form: percent-encoded, without dot segments, default ports and upper-case
schemes. Two URLs are the same when they are written the same.
-/

namespace KeywordCompletion

/-- What stands between the two slashes and the path of a URL. -/
structure UrlAuthority where
  /-- A user name and a password, with the at sign after them. -/
  userInfo : Text
  host : Option Url.Host
  port : Option Nat
  deriving DecidableEq, Repr

/-- A URL. -/
structure Url where
  scheme : Text
  authority : Option UrlAuthority
  path : Text
  query : Option Text
  fragment : Option Text
  deriving DecidableEq, Repr

namespace Url

/-- The schemes whose URLs have a host and a hierarchical path, with their default ports. -/
def specialSchemes : List (String × Option Nat) := [
  ("http", some 80), ("https", some 443), ("ws", some 80), ("wss", some 443), ("ftp", some 21),
  ("file", none)]

/-- Whether a scheme is special. -/
def isSpecial (scheme : Text) : Bool := specialSchemes.any fun (name, _) => name.toList == scheme

def defaultPort? (scheme : Text) : Option Nat :=
  (specialSchemes.find? fun (name, _) => name.toList == scheme).bind Prod.snd

def isFile (scheme : Text) : Bool := scheme == "file".toList

/-- An authority as it is written, with the slashes before it. -/
def renderAuthority (a : UrlAuthority) : Text :=
  let host := (a.host.map Host.render).getD []
  let port := (a.port.map fun port => ':' :: Nat.toDigits 10 port).getD []
  ['/', '/'] ++ a.userInfo ++ host ++ port

/-- A URL as it is written. A path that starts with two slashes is kept apart from an authority by
a dot. -/
def render (u : Url) : Text :=
  let authority := match u.authority with
    | some a => renderAuthority a
    | none => if ['/', '/'].isPrefixOf u.path then ['/', '.'] else []
  u.scheme ++ [':'] ++ authority ++ u.path ++ (u.query.map ('?' :: ·)).getD [] ++
    (u.fragment.map ('#' :: ·)).getD []

def lastSegment (u : Url) : Text := (u.path.reverse.takeWhile (· != '/')).reverse

end Url

end KeywordCompletion
