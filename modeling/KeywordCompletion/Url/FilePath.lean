import KeywordCompletion.Path.Basic
import KeywordCompletion.Url.Parser

/-!
# URLs and paths

A URL names a path when its path starts at the root and it has no host but this machine, whatever
its scheme.
-/

namespace KeywordCompletion

def Url.toPath? (u : Url) : Option Path :=
  let host := u.authority.bind UrlAuthority.host
  if u.path.head? = some '/' ∧ (host = none ∨ host = some (.domain "localhost".toList)) then
    let bytes := Url.percentDecode (Text.encode u.path)
    match bytes.reverse with
    | mark :: letter :: _ :: _ =>
      let isLetter := (0x41 ≤ letter && letter ≤ 0x5A) || (0x61 ≤ letter && letter ≤ 0x7A)
      some ⟨if (mark == 0x3A || mark == 0x7C) && isLetter then bytes ++ [Path.slash] else bytes⟩
    | _ => some ⟨bytes⟩
  else none

def Path.toUrl? (p : Path) : Option Url :=
  if p.isAbsolute then
    let segments := p.parts.drop 1
    let path := segments.flatMap fun part =>
      '/' :: Url.percentEncode Url.inFileName (Path.partBytes part)
    some ⟨"file".toList, some ⟨[], none, none⟩, if path.isEmpty then ['/'] else path, none, none⟩
  else none

end KeywordCompletion
