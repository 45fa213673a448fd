import PersonalCloud.Library.Json
import PersonalCloud.Library.Message
import PersonalCloud.Server.Json
import PersonalCloud.Server.WebUi

/-! What the browser interface writes: the head of a response, and the JSON of its body. -/
namespace PersonalCloud

open Proto Store

namespace Http

def statusText (status : ℕ) : Bytes :=
  match status with
  | 200 => ascii "OK"
  | 201 => ascii "Created"
  | 204 => ascii "No Content"
  | 400 => ascii "Bad Request"
  | 401 => ascii "Unauthorized"
  | 403 => ascii "Forbidden"
  | 404 => ascii "Not Found"
  | 405 => ascii "Method Not Allowed"
  | 413 => ascii "Payload Too Large"
  | 500 => ascii "Internal Server Error"
  | _ => ascii "Error"

/-- The bytes of the head; nothing in between is to do anything clever with the response. -/
def sendHeader (status : ℕ) (contentType : Bytes) (contentLength : ℕ) (extraHeaders : List Bytes) :
    Bytes :=
  ascii "HTTP/1.1 " ++ Decimal.text status ++ ascii " " ++ statusText status ++ ascii "\r\n" ++
    (ascii "Content-Type: " ++ contentType ++ ascii "\r\n") ++
    (ascii "Content-Length: " ++ Decimal.text contentLength ++ ascii "\r\n") ++
    ascii "Cache-Control: no-store\r\n" ++ ascii "X-Content-Type-Options: nosniff\r\n" ++
    ascii "Referrer-Policy: no-referrer\r\n" ++
    (extraHeaders.flatMap fun extra => extra ++ ascii "\r\n") ++ ascii "\r\n"

def sendResponse (status : ℕ) (contentType body : Bytes) (extraHeaders : List Bytes) : Bytes :=
  sendHeader status contentType body.length extraHeaders ++ body

end Http

namespace WebUi

open Http

def jsonError (message : Bytes) : Bytes :=
  ascii "\x7b\"error\":\"" ++ jsonEscape message ++ ascii "\"\x7d"

def jsonOk : Bytes := ascii "\x7b\"ok\":true\x7d"

def jsonSession (token user : Bytes) : Bytes :=
  ascii "\x7b\"token\":\"" ++ jsonEscape token ++ (ascii "\",\"user\":\"" ++ jsonEscape user) ++
    ascii "\"\x7d"

def jsonFile (file : StoredFile) : Bytes :=
  ascii "\x7b\"name\":\"" ++ jsonEscape file.name ++
    (ascii "\",\"size\":" ++ Decimal.text file.size) ++
    (ascii ",\"modified\":" ++ Decimal.signedText file.modified) ++
    (ascii ",\"tag\":\"" ++ jsonEscape file.tag) ++ ascii "\"\x7d"

def jsonFiles (files : List StoredFile) : Bytes :=
  ascii "\x7b\"files\":[" ++ List.intercalate (ascii ",") (files.map jsonFile) ++ ascii "]\x7d"

/-- The content type and the bytes of a body; the page itself is a parameter. -/
def WebBody.contentType : WebBody → Bytes
  | .page => ascii "text/html; charset=utf-8"
  | .content _ => ascii "application/octet-stream"
  | _ => ascii "application/json"

def WebBody.bytes (webPage : Bytes) : WebBody → Bytes
  | .ok => jsonOk
  | .page => webPage
  | .session token user => jsonSession token user
  | .error text => jsonError (ascii text)
  | .content b => b
  | .files entries => jsonFiles entries

def WebBody.send (webPage : Bytes) (status : ℕ) (body : WebBody) : Bytes :=
  sendResponse status body.contentType (body.bytes webPage) []

/-- What a request is answered with on its connection. There is no telling how much of a file is
sent if it cannot be read to its end. -/
def WebHandled.reply (webPage : Bytes) (r : WebHandled) : Option Bytes :=
  match r.response with
  | none => some []
  | some (status, .content b) => if r.go then some ((WebBody.content b).send webPage status) else none
  | some (status, body) => some (body.send webPage status)

end WebUi

namespace Http

/-- The response as a message. -/
def responseMessage (status : ℕ) (contentType body : Bytes) : Message where
  first := ascii "HTTP/1.1 " ++ Decimal.text status ++ ascii " " ++ statusText status
  fields := [(ascii "Content-Type", contentType), (ascii "Content-Length", Decimal.text body.length),
    (ascii "Cache-Control", ascii "no-store"), (ascii "X-Content-Type-Options", ascii "nosniff"),
    (ascii "Referrer-Policy", ascii "no-referrer")]
  body := body

theorem sendResponse_eq (status : ℕ) (contentType body : Bytes) :
    sendResponse status contentType body [] = (responseMessage status contentType body).text := by
  have hend : ascii "\r\n" = Message.lineEnd := rfl
  have htype : ascii "Content-Type: " = ascii "Content-Type" ++ [58, 32] := rfl
  have hlength : ascii "Content-Length: " = ascii "Content-Length" ++ [58, 32] := rfl
  have hcache : ascii "Cache-Control: no-store\r\n" =
      ascii "Cache-Control" ++ 58 :: 32 :: ascii "no-store" ++ Message.lineEnd := rfl
  have hsniff : ascii "X-Content-Type-Options: nosniff\r\n" =
      ascii "X-Content-Type-Options" ++ 58 :: 32 :: ascii "nosniff" ++ Message.lineEnd := rfl
  have hreferrer : ascii "Referrer-Policy: no-referrer\r\n" =
      ascii "Referrer-Policy" ++ 58 :: 32 :: ascii "no-referrer" ++ Message.lineEnd := rfl
  rw [sendResponse, sendHeader, hend, htype, hlength, hcache, hsniff, hreferrer]
  simp [Message.text, Message.head, Message.fieldLine, responseMessage]

def kStatuses : List ℕ := [200, 201, 400, 401, 404, 500]

theorem isLine_text (n : ℕ) : Message.IsLine (Decimal.text n) := by
  intro c hc
  have hdigit := Decimal.text_digits n c hc
  exact ⟨Json.ne_of_isDigit hdigit rfl, Json.ne_of_isDigit hdigit rfl⟩

theorem isValue_text (n : ℕ) : Message.IsValue (Decimal.text n) := by
  have hblank : ∀ c ∈ Decimal.text n, Message.isBlank c = false := by
    intro c hc
    have hdigit := Decimal.text_digits n c hc
    simp [Message.isBlank, Json.ne_of_isDigit hdigit (d := 32) rfl,
      Json.ne_of_isDigit hdigit (d := 9) rfl]
  exact ⟨isLine_text n, fun c hc => hblank c (List.mem_of_mem_head? hc),
    fun c hc => hblank c (List.mem_of_mem_getLast? hc)⟩

theorem wellFormed_responseMessage {status : ℕ} {contentType : Bytes} (body : Bytes)
    (hstatus : status ∈ kStatuses) (htype : Message.IsValue contentType) :
    (responseMessage status contentType body).WellFormed where
  first := by
    have hall : ∀ status ∈ kStatuses, Message.IsLine (responseMessage status [] []).first := by
      decide
    exact hall status hstatus
  fields := by
    have hname : Message.IsName (ascii "Content-Type") ∧ Message.IsName (ascii "Content-Length") := by
      decide
    have hothers : ∀ f ∈ [(ascii "Cache-Control", ascii "no-store"),
        (ascii "X-Content-Type-Options", ascii "nosniff"),
        (ascii "Referrer-Policy", ascii "no-referrer")], Message.IsField f := by decide
    intro f hf
    rcases List.mem_cons.mp hf with rfl | hf
    · exact ⟨hname.1, htype⟩
    rcases List.mem_cons.mp hf with rfl | hf
    · exact ⟨hname.2, isValue_text _⟩
    exact hothers f hf
  length := by
    have hnames : (ascii "Content-Type").map Message.lower ≠ Message.lengthField ∧
        (ascii "Content-Length").map Message.lower = Message.lengthField ∧
        (ascii "Cache-Control").map Message.lower ≠ Message.lengthField ∧
        (ascii "X-Content-Type-Options").map Message.lower ≠ Message.lengthField ∧
        (ascii "Referrer-Policy").map Message.lower ≠ Message.lengthField := by decide
    simp [Message.values, responseMessage, hnames]

end Http

namespace WebUi

theorem reply_of_response {r : WebHandled} {status : ℕ} {body : WebBody} {webPage text : Bytes}
    (hr : r.response = some (status, body)) (h : r.reply webPage = some text) :
    text = body.send webPage status := by
  rw [WebHandled.reply, hr] at h
  cases body with
  | content b =>
    simp only at h
    split_ifs at h
    exact (Option.some.inj h).symm
  | ok | page | session | error | files => exact (Option.some.inj h).symm

end WebUi

namespace Http

private theorem codeUnit_fin : ∀ n : Fin 32, ∃ hi lo, toHex [0, UInt8.ofNat n] = [48, 48, hi, lo] ∧
    Json.codeUnit 48 48 hi lo = some n.val ∧ Json.unitBytes n = [UInt8.ofNat n] := by
  have hall : ∀ n : Fin 32,
      toHex [0, UInt8.ofNat n] = [48, 48, PersonalCloud.hexDigit (UInt8.ofNat n >>> 4),
        PersonalCloud.hexDigit (UInt8.ofNat n &&& 0x0F)] ∧
      Json.codeUnit 48 48 (PersonalCloud.hexDigit (UInt8.ofNat n >>> 4))
        (PersonalCloud.hexDigit (UInt8.ofNat n &&& 0x0F)) = some n.val ∧
      Json.unitBytes n = [UInt8.ofNat n] := by decide
  exact fun n => ⟨_, _, hall n⟩

theorem codeUnit_control {c : UInt8} (hc : c < 32) : ∃ hi lo, toHex [0, c] = [48, 48, hi, lo] ∧
    Json.codeUnit 48 48 hi lo = some c.toNat ∧ Json.unitBytes c.toNat = [c] := by
  have h := codeUnit_fin ⟨c.toNat, hc⟩
  rwa [UInt8.ofNat_toNat] at h

/-- The escapes are undone by a reader that follows the grammar. -/
theorem undone_jsonEscapeByte : Json.Undone jsonEscapeByte := by
  intro c rest
  unfold jsonEscapeByte
  split_ifs with hquote hfeed hreturn htab hcontrol
  · rcases hquote with rfl | rfl
    · exact Json.chars_escaped rfl rest
    · exact Json.chars_escaped rfl rest
  · subst hfeed
    exact Json.chars_escaped rfl rest
  · subst hreturn
    exact Json.chars_escaped rfl rest
  · subst htab
    exact Json.chars_escaped rfl rest
  · obtain ⟨hi, lo, hhex, hunit, hbytes⟩ := codeUnit_control hcontrol
    rw [hhex, ← hbytes]
    exact Json.chars_unit hunit rest
  · rw [not_or] at hquote
    exact Json.chars_plain hquote.1 hquote.2 hcontrol rest

end Http

namespace WebUi

open Http Json

def fileValue (file : StoredFile) : Value :=
  .object [(ascii "name", .string file.name), (ascii "size", .number (Decimal.text file.size)),
    (ascii "modified", .number (Decimal.signedText file.modified)),
    (ascii "tag", .string file.tag)]

def errorValue (message : Bytes) : Value := .object [(ascii "error", .string message)]

def sessionValue (token user : Bytes) : Value :=
  .object [(ascii "token", .string token), (ascii "user", .string user)]

def filesValue (files : List StoredFile) : Value :=
  .object [(ascii "files", .array (files.map fileValue))]

theorem readsChars_jsonEscape (s : Bytes) : ReadsChars s (jsonEscape s) :=
  undone_jsonEscapeByte.readsChars s

theorem readsMember_of_name {name text : Bytes} {v : Value} (hname : jsonEscape name = name)
    (h : Json.Reads v text) : ReadsMember (name, v) (34 :: (name ++ 34 :: 58 :: text)) := by
  have hchars := readsChars_jsonEscape name
  rw [hname] at hchars
  exact ⟨name, text, rfl, hchars, h⟩

theorem reads_jsonError (message : Bytes) : Json.Reads (errorValue message) (jsonError message) := by
  have hname : jsonEscape (ascii "error") = ascii "error" := by decide
  have hfront : ascii "\x7b\"error\":\"" = 123 :: 34 :: (ascii "error" ++ [34, 58, 34]) := rfl
  have hback : ascii "\"\x7d" = [34, 125] := rfl
  have h := reads_object
    (.cons (readsMember_of_name hname (readsChars_jsonEscape message).reads) .nil)
  rw [jsonError, hfront, hback]
  simpa [separated_singleton, errorValue] using h

theorem reads_jsonSession (token user : Bytes) :
    Json.Reads (sessionValue token user) (jsonSession token user) := by
  have hnames : jsonEscape (ascii "token") = ascii "token" ∧
      jsonEscape (ascii "user") = ascii "user" := by decide
  have hfront : ascii "\x7b\"token\":\"" = 123 :: 34 :: (ascii "token" ++ [34, 58, 34]) := rfl
  have hmiddle : ascii "\",\"user\":\"" = 34 :: 44 :: 34 :: (ascii "user" ++ [34, 58, 34]) := rfl
  have hback : ascii "\"\x7d" = [34, 125] := rfl
  have h := reads_object
    (.cons (readsMember_of_name hnames.1 (readsChars_jsonEscape token).reads)
      (.cons (readsMember_of_name hnames.2 (readsChars_jsonEscape user).reads) .nil))
  rw [separated_cons _ (List.cons_ne_nil _ _), separated_singleton] at h
  rw [jsonSession, hfront, hmiddle, hback]
  simpa [sessionValue] using h

theorem reads_jsonFile (file : StoredFile) : Json.Reads (fileValue file) (jsonFile file) := by
  have hnames : jsonEscape (ascii "name") = ascii "name" ∧ jsonEscape (ascii "size") = ascii "size" ∧
      jsonEscape (ascii "modified") = ascii "modified" ∧ jsonEscape (ascii "tag") = ascii "tag" := by
    decide
  have hname : ascii "\x7b\"name\":\"" = 123 :: 34 :: (ascii "name" ++ [34, 58, 34]) := rfl
  have hsize : ascii "\",\"size\":" = 34 :: 44 :: 34 :: (ascii "size" ++ [34, 58]) := rfl
  have hmodified : ascii ",\"modified\":" = 44 :: 34 :: (ascii "modified" ++ [34, 58]) := rfl
  have htag : ascii ",\"tag\":\"" = 44 :: 34 :: (ascii "tag" ++ [34, 58, 34]) := rfl
  have hback : ascii "\"\x7d" = [34, 125] := rfl
  have h := reads_object
    (.cons (readsMember_of_name hnames.1 (readsChars_jsonEscape file.name).reads)
      (.cons (readsMember_of_name hnames.2.1 (reads_text file.size))
        (.cons (readsMember_of_name hnames.2.2.1 (reads_signedText file.modified))
          (.cons (readsMember_of_name hnames.2.2.2 (readsChars_jsonEscape file.tag).reads) .nil))))
  rw [separated_cons _ (List.cons_ne_nil _ _), separated_cons _ (List.cons_ne_nil _ _),
    separated_cons _ (List.cons_ne_nil _ _), separated_singleton] at h
  rw [jsonFile, hname, hsize, hmodified, htag, hback]
  simpa [fileValue] using h

theorem reads_jsonFiles (files : List StoredFile) :
    Json.Reads (filesValue files) (jsonFiles files) := by
  have hname : jsonEscape (ascii "files") = ascii "files" := by decide
  have hfront : ascii "\x7b\"files\":[" = 123 :: 34 :: (ascii "files" ++ [34, 58, 91]) := rfl
  have hcomma : ascii "," = [44] := rfl
  have hback : ascii "]\x7d" = [93, 125] := rfl
  have hall : List.Forall₂ Json.Reads (files.map fileValue) (files.map jsonFile) :=
    List.forall₂_map_left_iff.mpr (List.forall₂_map_right_iff.mpr
      (List.forall₂_same.mpr fun file _ => reads_jsonFile file))
  have h := reads_object (.cons (readsMember_of_name hname (reads_array hall)) .nil)
  rw [separated_singleton] at h
  rw [jsonFiles, hfront, hcomma, hback]
  simpa [separated, filesValue] using h

end WebUi

end PersonalCloud
