import Mathlib.Data.UInt
import Eo9.Library.Numeral
import Eo9.Store.Hash

/-!
# URLs

`parse`, `parse_with_default_scheme`, `redirect_target` and `display` of `eo9-curl-core`. A
string is the list of its characters.
-/

namespace Eo9.Curl

open Eo9.Library
open Eo9.Store (Text text utf8)

def DEFAULT_PORT : UInt16 := 80

/-- A parsed `http://` URL. -/
structure Url where
  host : Text
  port : UInt16
  path : Text
  deriving DecidableEq

/-- `u16`'s `Display` -/
def decimal (n : UInt16) : Text := Nat.toDigits 10 n.toNat

/-- `str::parse::<u16>` -/
def parseU16 (t : Text) : Option UInt16 := (readNumeral (2 ^ 16) t).map UInt16.ofNat

/-- The `Host:` header value: the port is included when it is not the default. -/
def Url.hostHeader (u : Url) : Text :=
  if u.port = DEFAULT_PORT then u.host else u.host ++ ':' :: decimal u.port

def Url.display (u : Url) : Text := text "http://" ++ u.hostHeader ++ u.path

inductive UrlError where
  | https
  | notHttp
  | forbiddenByte
  | userinfo
  | ipv6Literal
  | badPort (text : Text)
  | noHost
  deriving DecidableEq

/-- Is `c` refused in a host or path? -/
def forbidden (c : Char) : Bool := c ≤ ' ' || c = '\x7f'

def eqIgnoreAsciiCase (s t : Text) : Bool := s.map Char.toLower = t.map Char.toLower

/-- `rsplit_once(':')` -/
def rsplitColon (t : Text) : Option (Text × Text) :=
  (splitFirst (· = ':') t.reverse).map fun parts => (parts.2.reverse, parts.1.reverse)

def hostAndPort (authority : Text) : Except UrlError (Text × UInt16) :=
  match rsplitColon authority with
  | some (host, portText) =>
    if ':' ∈ host then .error .ipv6Literal
    else
      match (parseU16 portText).filter (· ≠ 0) with
      | some port => .ok (host, port)
      | none => .error (.badPort portText)
  | none => .ok (authority, DEFAULT_PORT)

/-- What `parse` does behind the scheme and without the fragment. -/
def parseRest (rest : Text) : Except UrlError Url :=
  let authority := rest.takeWhile (· ≠ '/')
  let path := if '/' ∈ rest then rest.dropWhile (· ≠ '/') else ['/']
  if '@' ∈ authority then .error .userinfo
  else
    match hostAndPort authority with
    | .error e => .error e
    | .ok (host, port) =>
      if host = [] then .error .noHost
      else
        let path := if path = [] then ['/'] else path
        if host.any forbidden || path.any forbidden then .error .forbiddenByte
        else .ok ⟨host, port, path⟩

/-- `parse` -/
def parse (url : Text) : Except UrlError Url :=
  if eqIgnoreAsciiCase (url.take 8) (text "https://") then .error .https
  else if eqIgnoreAsciiCase (url.take 7) (text "http://") then
    -- a fragment never travels on the wire
    parseRest ((url.drop 7).takeWhile (· ≠ '#'))
  else .error .notHttp

/-- `find`: the text before the first occurrence of `needle`. -/
def textBefore (needle : Text) : Text → Option Text
  | [] => if needle = [] then some [] else none
  | c :: rest =>
    if needle.isPrefixOf (c :: rest) then some [] else (textBefore needle rest).map (c :: ·)

def isAsciiAlphabetic (c : Char) : Bool := c.isAlpha

def isSchemeChar (c : Char) : Bool := c.isAlphanum || c = '+' || c = '-' || c = '.'

/-- Does `url` spell a scheme? -/
def hasScheme (url : Text) : Bool :=
  let head := url.takeWhile fun c => c ≠ '/' && c ≠ '?' && c ≠ '#'
  let named :=
    match splitFirst (· = ':') head with
    | some (scheme, _) =>
      eqIgnoreAsciiCase scheme (text "http") || eqIgnoreAsciiCase scheme (text "https")
    | none => false
  named ||
    match textBefore (text "://") url with
    | some (c :: scheme) => isAsciiAlphabetic c && scheme.all isSchemeChar
    | _ => false

/-- A URL that a user typed: the scheme is optional. -/
def parseWithDefaultScheme (url : Text) : Except UrlError Url :=
  if hasScheme url then parse url else parse (text "http://" ++ url)

def redirectTarget (current : Url) (location : Text) : Except UrlError Url :=
  if location.head? = some '/' then
    if location.any forbidden then .error .forbiddenByte
    else .ok ⟨current.host, current.port, location⟩
  else parse location

/-- The URL that a chain of redirects ends at. -/
def follow (current : Url) : List Text → Except UrlError Url
  | [] => .ok current
  | location :: locations =>
    match redirectTarget current location with
    | .ok target => follow target locations
    | .error e => .error e

/-- A typed URL, and the redirects it leads to. -/
def fetch (typed : Text) (locations : List Text) : Except UrlError Url :=
  match parseWithDefaultScheme typed with
  | .ok url => follow url locations
  | .error e => .error e

end Eo9.Curl
