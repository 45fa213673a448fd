import PersonalCloud.Core.Protocol
import Mathlib.Data.List.AList

/-! Just enough HTTP to serve the browser page: the request line and headers, percent-decoding, and
one field out of a small JSON object. -/
namespace PersonalCloud

namespace Http

open Proto Channel

/-- A request without its body, which is left on the channel. -/
structure HttpRequest where
  method : Bytes
  /-- Percent-decoded, without the query. -/
  path : Bytes
  query : Bytes
  /-- Keyed by names in lower case. -/
  headers : AList fun _ : Bytes => Bytes
  contentLength : UInt64

def lowercase (text : Bytes) : Bytes := text.map fun c => if 65 ≤ c ∧ c ≤ 90 then c + 32 else c

def HttpRequest.header (r : HttpRequest) (name : Bytes) : Bytes :=
  (r.headers.lookup (lowercase name)).getD []

def hexDigit (c : UInt8) : Option UInt8 :=
  if 48 ≤ c ∧ c ≤ 57 then some (c - 48)
  else if 97 ≤ c ∧ c ≤ 102 then some (10 + (c - 97))
  else if 65 ≤ c ∧ c ≤ 70 then some (10 + (c - 65))
  else none

/-- The byte written as `%` and two digits. -/
def hexByte (hi lo : UInt8) : Option UInt8 :=
  match hexDigit hi, hexDigit lo with
  | some h, some l => some (h <<< 4 ||| l)
  | _, _ => none

def plusDecode (c : UInt8) : UInt8 := if c = 43 then 32 else c

def urlDecode : Bytes → Bytes
  | [] => []
  | [c] => [plusDecode c]
  | [c, d] => [plusDecode c, plusDecode d]
  | c :: hi :: lo :: rest =>
      match if c = 37 then hexByte hi lo else none with
      | some byte => byte :: urlDecode rest
      | none => plusDecode c :: urlDecode (hi :: lo :: rest)

/-- The first line of a connection decides which protocol it speaks. -/
def looksLikeHttp (line : Bytes) : Bool :=
  [ascii "GET ", ascii "POST ", ascii "PUT ", ascii "DELETE ", ascii "HEAD ",
    ascii "OPTIONS "].any fun method => method.isPrefixOf line

def cutAt (c : UInt8) (text : Bytes) : Option (Bytes × Bytes) :=
  if c ∈ text then some (text.takeWhile (· ≠ c), (text.dropWhile (· ≠ c)).drop 1) else none

/-- One header line; a line without a colon says nothing. -/
def addHeader (line : Bytes) (headers : AList fun _ : Bytes => Bytes) :
    AList fun _ : Bytes => Bytes :=
  match cutAt 58 line with
  | none => headers
  | some (name, value) =>
      headers.insert (lowercase name) (value.dropWhile fun c => c = 32 ∨ c = 9)

/-- The header lines up to the blank one, of which `more` are still allowed. -/
def readHeaders : ℕ → Bytes → (AList fun _ : Bytes => Bytes) →
    Except String ((AList fun _ : Bytes => Bytes) × Bytes)
  | 0, input, headers =>
      match readLine input with
      | none => .error "connection closed inside the headers"
      | some ([], rest) => .ok (headers, rest)
      | some (_ :: _, _) => .error "too many headers"
  | more + 1, input, headers =>
      match readLine input with
      | none => .error "connection closed inside the headers"
      | some ([], rest) => .ok (headers, rest)
      | some (c :: cs, rest) => readHeaders more rest (addHeader (c :: cs) headers)

def kMaxHeaders : ℕ := 64

/-- Parses the request line, which has been read already, and the headers. The rest of the input
begins with the body. -/
def readRequest (firstLine input : Bytes) : Except String (HttpRequest × Bytes) :=
  match split firstLine with
  | [method, target, _] =>
      let (target, query) := (cutAt 63 target).getD (target, [])
      match readHeaders kMaxHeaders input ∅ with
      | .error reason => .error reason
      | .ok (headers, rest) =>
          let request : HttpRequest := ⟨method, urlDecode target, query, headers, 0⟩
          let length := request.header (ascii "content-length")
          if length.isEmpty then .ok (request, rest)
          else
            match parseSize length Config.kMaxTransferSize with
            | none => .error "bad content-length"
            | some n => .ok ({ request with contentLength := n }, rest)
  | _ => .error "malformed request line"

def behind (key : Bytes) : Bytes → Option Bytes
  | [] => if key.isEmpty then some [] else none
  | c :: cs => if key.isPrefixOf (c :: cs) then some ((c :: cs).drop key.length) else behind key cs

def unescape (c : UInt8) : UInt8 :=
  if c = 110 then 10 else if c = 114 then 13 else if c = 116 then 9 else c

/-- The rest of a quoted value; `value` is what was read so far. -/
def jsonValue : Bytes → Bytes → Option Bytes
  | [], _ => none
  | [c], value => if c = 34 then some value else none
  | c :: d :: rest, value =>
      if c = 34 then some value
      else if c = 92 then
        if Config.kMaxLineLen < (value ++ [unescape d]).length then none
        else jsonValue rest (value ++ [unescape d])
      else if Config.kMaxLineLen < (value ++ [c]).length then none
      else jsonValue (d :: rest) (value ++ [c])

/-- Pulls one string field out of a small flat object. -/
def jsonField (body name : Bytes) : Option Bytes :=
  (behind (34 :: name ++ [34]) body).bind fun rest =>
    (cutAt 58 rest).bind fun colon => (cutAt 34 colon.2).bind fun quote => jsonValue quote.2 []

end Http

end PersonalCloud
