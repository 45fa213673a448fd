import PersonalCloud.Client.Page
import PersonalCloud.Library.Utf8
import PersonalCloud.Server.Response
import PersonalCloud.System.Urls

/-! The page in the browser: what it requests, and what it makes of the responses. Strings are given
by their UTF-8 bytes. -/
namespace PersonalCloud

open Proto Channel Store Http

namespace Page

/-- A response as `fetch` gives it to the page. -/
structure Reply where
  status : ℕ
  body : Bytes
  deriving DecidableEq

def Reply.ok (r : Reply) : Bool := decide (200 ≤ r.status) && decide (r.status ≤ 299)

/-- The body is decoded before it is parsed. -/
def Reply.json (r : Reply) : Option Json.Value := Json.parse (Utf8.decode r.body)

def statusOf (first : Bytes) : Option ℕ :=
  match split first with
  | version :: code :: _ =>
      if (ascii "HTTP/1.").isPrefixOf version ∧ code.length = 3 ∧ code.all Decimal.isDigit then
        some (Decimal.value code)
      else none
  | _ => none

/-- No body follows on a `HEAD` request or behind one of these statuses. -/
def bodiless (method first : Bytes) : Bool :=
  decide (method = ascii "HEAD") ||
    ((statusOf first).any fun s => decide (s < 200) || s == 204 || s == 304)

/-- The next response on a connection, and what follows it. -/
def fetchReply (method input : Bytes) : Option (Reply × Bytes) :=
  (Message.read (bodiless method) input).bind fun r =>
    (statusOf r.1.first).map fun status => (⟨status, r.1.body⟩, r.2)

/-- An entry of the list, whose numbers are doubles. -/
structure FileEntry where
  name : Bytes
  size : ℤ
  modified : ℤ
  tag : Bytes
  deriving DecidableEq

def double (z : ℤ) : ℤ := z.sign * Double.ofNat z.natAbs

def number (literal : Bytes) : Option ℤ :=
  if literal.head? = some 45 ∧ Json.isDigits literal.tail then
    some (double (-(Decimal.value literal.tail : ℤ)))
  else if Json.isDigits literal then some (double (Decimal.value literal))
  else none

def fileEntry (v : Json.Value) : Option FileEntry :=
  match v.member (ascii "name"), v.member (ascii "size"), v.member (ascii "modified"),
    v.member (ascii "tag") with
  | some (.string name), some (.number size), some (.number modified), some (.string tag) =>
      match number size, number modified with
      | some size, some modified => some ⟨name, size, modified, tag⟩
      | _, _ => none
  | _, _, _, _ => none

/-- The member `files`, or else the empty list. -/
def filesOf (data : Json.Value) : Option (List FileEntry) :=
  match data.member (ascii "files") with
  | some (.array files) => files.mapM fileEntry
  | none => some []
  | some _ => none

/-- The member `error`, or else the given text. -/
def errorOf (data : Option Json.Value) (otherwise : Bytes) : Bytes :=
  match data.bind (Json.Value.member (ascii "error")) with
  | some (.string message) => if message.isEmpty then otherwise else message
  | _ => otherwise

/-- What the page does once a request is answered. -/
inductive Shown where
  | files (entries : List FileEntry)
  | notListed
  /-- The stream that is opened and saved. -/
  | fetched (stream : Bytes)
  | notFetched
  | stored
  | failed (message : Bytes)
  | deleted
  | notDeleted
  deriving DecidableEq

/-- The calls of the page on the files of an account. -/
inductive Call where
  | refresh
  | download (name : Bytes)
  | upload (name tag stream : Bytes)
  | remove (name : Bytes)
  deriving DecidableEq

def upperDigit (value : UInt8) : UInt8 := if value < 10 then 48 + value else 55 + value

def encodeURIComponent (s : Bytes) : Bytes :=
  s.flatMap fun c =>
    if Urls.unreserved c then [c] else [37, upperDigit (c >>> 4), upperDigit (c &&& 0x0F)]

def Call.method : Call → Bytes
  | refresh => ascii "GET"
  | download _ => ascii "GET"
  | upload .. => ascii "PUT"
  | remove _ => ascii "DELETE"

def Call.target : Call → Bytes
  | refresh => ascii "/api/files"
  | download name => Urls.fileTarget (encodeURIComponent name) none
  | upload name tag _ =>
      Urls.fileTarget (encodeURIComponent name)
        (if tag.isEmpty then none else some (ascii "tag=" ++ encodeURIComponent tag))
  | remove name => Urls.fileTarget (encodeURIComponent name) none

def Call.body : Call → Bytes
  | upload _ _ stream => stream
  | _ => []

/-- What the page shows for a response to a call. `none` stands for an answer of another shape, on
which the script throws. -/
def Call.shown : Call → Reply → Option Shown
  | refresh, r => if r.ok then (r.json.bind filesOf).map .files else some .notListed
  | download _, r => some (if r.ok then .fetched r.body else .notFetched)
  | upload .., r =>
      some (if r.ok then .stored else .failed (errorOf r.json (ascii "upload failed")))
  | remove _, r => some (if r.ok then .deleted else .notDeleted)

/-- A call that is answered: whether the page signs out, what it shows, and the rest of the
connection. -/
def Call.receive (c : Call) (input : Bytes) : Option ((Bool × Shown) × Bytes) :=
  (fetchReply c.method input).bind fun r =>
    (c.shown r.1).map fun shown => ((decide (r.1.status = 401), shown), r.2)

end Page

namespace WebUi

theorem isAscii_toHex (data : Bytes) : Utf8.IsAscii (toHex data) := by
  intro c hc
  have hle : c ≤ 102 := by
    have h := toHex_isLowerHex data c hc
    simp only [Bool.or_eq_true, Bool.and_eq_true, decide_eq_true_eq] at h
    rcases h with h | h
    · exact UInt8.le_trans h.2 (by decide)
    · exact h.2
  exact UInt8.lt_of_le_of_lt hle (by decide)

theorem decode_jsonEscape (s : Bytes) :
    Utf8.decodeWithoutBom (jsonEscape s) = jsonEscape (Utf8.decodeWithoutBom s) := by
  refine Utf8.decodeWithoutBom_flatMap (fun c hc => ?_) (fun c hc => ?_) s
  · have hne (d : UInt8) (hd : d < 0x80) : c ≠ d := by
      rintro rfl
      exact UInt8.not_le.mpr hd hc
    have hcontrol : ¬ c < 32 := fun h =>
      UInt8.not_le.mpr h (UInt8.le_trans (by decide) hc)
    simp [jsonEscapeByte, hne, hcontrol]
  · unfold jsonEscapeByte
    split_ifs with hquote
    · rcases hquote with rfl | rfl
      · exact ⟨by simp, by decide⟩
      · exact ⟨by simp, by decide⟩
    · exact ⟨by simp, by decide⟩
    · exact ⟨by simp, by decide⟩
    · exact ⟨by simp, by decide⟩
    · exact ⟨by simp, Utf8.IsAscii.append (by decide) (isAscii_toHex _)⟩
    · exact ⟨by simp, by simpa [Utf8.IsAscii] using hc⟩

theorem isAscii_text (n : ℕ) : Utf8.IsAscii (Decimal.text n) := by
  intro c hc
  have hdigit := Decimal.text_digits n c hc
  simp only [Decimal.isDigit, Bool.and_eq_true, decide_eq_true_eq] at hdigit
  exact UInt8.lt_of_le_of_lt hdigit.2 (by decide)

theorem decode_eq {body : Bytes} (h : body.head? = some 123) :
    Utf8.decode body = Utf8.decodeWithoutBom body := by
  cases body with
  | nil => contradiction
  | cons c body =>
    obtain rfl : c = 123 := Option.some.inj h
    exact Utf8.decode_of_ascii_head (by decide) body

end WebUi

namespace Page

theorem statusOf_response {status : ℕ} (h : status ∈ kStatuses) (contentType body : Bytes) :
    statusOf (responseMessage status contentType body).first = some status := by
  have hall : ∀ status ∈ kStatuses,
      statusOf (responseMessage status [] []).first = some status := by decide
  exact hall status h

theorem bodiless_response {status : ℕ} (h : status ∈ kStatuses) (method contentType body : Bytes) :
    bodiless method (responseMessage status contentType body).first =
      decide (method = ascii "HEAD") := by
  have hall : ∀ status ∈ kStatuses,
      (decide (status < 200) || status == 204 || status == 304) = false := by decide
  simp only [bodiless, statusOf_response h, Option.any_some, hall status h, Bool.or_false]

theorem isValue_contentType (body : WebUi.WebBody) : Message.IsValue body.contentType := by
  cases body with
  | page => decide
  | content => exact (by decide : Message.IsValue (ascii "application/octet-stream"))
  | ok | session | error | files => exact (by decide : Message.IsValue (ascii "application/json"))

/-- The page reads a response as it was sent, wherever it ends; on a `HEAD` request the body is
taken for the next response. -/
theorem fetchReply_send {status : ℕ} (hstatus : status ∈ kStatuses) (body : WebUi.WebBody)
    (method webPage more : Bytes) : fetchReply method (body.send webPage status ++ more) =
      if method = ascii "HEAD" then some (⟨status, []⟩, body.bytes webPage ++ more)
      else some (⟨status, body.bytes webPage⟩, more) := by
  have hread := Message.read_text (wellFormed_responseMessage (body.bytes webPage) hstatus
    (isValue_contentType body)) (bodiless method) more
  rw [bodiless_response hstatus, ← sendResponse_eq, ← WebUi.WebBody.send] at hread
  rw [fetchReply, hread, Option.bind_some]
  by_cases hhead : method = ascii "HEAD"
  · simp only [hhead, decide_true, ↓reduceIte]
    rw [statusOf_response hstatus]
    rfl
  · simp only [hhead, decide_false, Bool.false_eq_true, ↓reduceIte]
    rw [statusOf_response hstatus]
    rfl

end Page

end PersonalCloud
