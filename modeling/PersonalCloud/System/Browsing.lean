import PersonalCloud.System.Responses
import PersonalCloud.System.Serving

/-! The page in the browser against the map the server stands for: what each of its calls shows, in
any order of calls and whatever else the server is asked to do. -/
namespace PersonalCloud

open Proto Channel Store Http

namespace Http

/-- The message is read by the server as the request line and the headers it is made of. -/
structure IsRequest (m : Message) : Prop where
  first : Message.IsLine m.first
  firstFits : m.first.length ≤ Config.kMaxLineLen
  fields : ∀ f ∈ m.fields, Message.IsField f
  fits : ∀ f ∈ m.fields, (Message.fieldLine f).length ≤ Config.kMaxLineLen
  count : m.fields.length ≤ kMaxHeaders

def headersOf (fields : List (Bytes × Bytes)) (headers : AList fun _ : Bytes => Bytes) :
    AList fun _ : Bytes => Bytes :=
  fields.foldl (fun headers f => headers.insert (lowercase f.1) f.2) headers

theorem readLine_lineEnd {line : Bytes} (h : Message.IsLine line)
    (hfits : line.length ≤ Config.kMaxLineLen) (rest : Bytes) :
    readLine (line ++ Message.lineEnd ++ rest) = some (line, rest) := by
  have hfrom (out : Bytes) (hout : out.length + line.length ≤ Config.kMaxLineLen) :
      readLineFrom (line ++ Message.lineEnd ++ rest) out = some (out ++ line, rest) := by
    induction line generalizing out with
    | nil => simp [Message.lineEnd, readLineFrom]
    | cons c cs ih =>
      obtain ⟨hfeed, hreturn⟩ := h c List.mem_cons_self
      rw [List.length_cons] at hout hfits
      rw [List.cons_append, List.cons_append, readLineFrom, if_neg hfeed, if_neg hreturn,
        if_neg (by omega), ih (fun d hd => h d (List.mem_cons_of_mem c hd)) (by omega) _ (by
          rw [List.length_append, List.length_cons, List.length_nil]
          omega), List.append_assoc]
      rfl
  exact hfrom [] (by simpa using hfits)

theorem addHeader_fieldLine {f : Bytes × Bytes} (h : Message.IsField f)
    (headers : AList fun _ : Bytes => Bytes) :
    addHeader (Message.fieldLine f) headers = headers.insert (lowercase f.1) f.2 := by
  have hcolon : (58 : UInt8) ∉ f.1 := fun hmem => (h.name.plain 58 hmem).1 rfl
  have hblank : ∀ c, (decide (c = 32 ∨ c = 9) : Bool) = Message.isBlank c := by
    intro c
    simp [Message.isBlank, Bool.decide_or, beq_eq_decide]
  have hvalue : (32 :: f.2).dropWhile (fun c => decide (c = 32 ∨ c = 9)) = f.2 := by
    simp only [hblank]
    rw [List.dropWhile_cons_of_pos rfl]
    cases hf : f.2 with
    | nil => rfl
    | cons c cs =>
      rw [List.dropWhile_cons_of_neg]
      rw [h.value.head c (by rw [hf]; rfl)]
      exact Bool.false_ne_true
  rw [addHeader, Message.fieldLine, cutAt_append hcolon]
  simp only [hvalue]

theorem readHeaders_fields {fields : List (Bytes × Bytes)} (h : ∀ f ∈ fields, Message.IsField f)
    (hfits : ∀ f ∈ fields, (Message.fieldLine f).length ≤ Config.kMaxLineLen) {more : ℕ}
    (hcount : fields.length ≤ more) (headers : AList fun _ : Bytes => Bytes) (rest : Bytes) :
    readHeaders more ((fields.map Message.fieldLine ++ [[]]).flatMap
        (fun l => l ++ Message.lineEnd) ++ rest) headers =
      .ok (headersOf fields headers, rest) := by
  induction fields generalizing more headers with
  | nil =>
    have hend : readLine (Message.lineEnd ++ rest) = some ([], rest) := rfl
    cases more with
    | zero => simp [readHeaders, hend, headersOf]
    | succ more => simp [readHeaders, hend, headersOf]
  | cons f fs ih =>
    obtain ⟨more, rfl⟩ : ∃ n, more = n + 1 := ⟨more - 1, by simp at hcount; omega⟩
    have hf := h f List.mem_cons_self
    have htext : ((f :: fs).map Message.fieldLine ++ [[]]).flatMap (fun l => l ++ Message.lineEnd) ++
        rest = Message.fieldLine f ++ Message.lineEnd ++
          ((fs.map Message.fieldLine ++ [[]]).flatMap (fun l => l ++ Message.lineEnd) ++ rest) := by
      simp
    have hadd := addHeader_fieldLine hf headers
    have htail : readHeaders more ((fs.map Message.fieldLine ++ [[]]).flatMap
        (fun l => l ++ Message.lineEnd) ++ rest) (headers.insert (lowercase f.1) f.2) =
          .ok (headersOf fs (headers.insert (lowercase f.1) f.2), rest) :=
      ih (fun g hg => h g (List.mem_cons_of_mem f hg))
        (fun g hg => hfits g (List.mem_cons_of_mem f hg))
        (by simp only [List.length_cons] at hcount; omega) _
    rw [htext, readHeaders, readLine_lineEnd (Message.isLine_fieldLine hf)
      (hfits f List.mem_cons_self)]
    cases hline : Message.fieldLine f with
    | nil => simp [Message.fieldLine] at hline
    | cons c cs =>
      rw [hline] at hadd
      simp only [hadd, htail]
      rfl

theorem lookup_headersOf (name : Bytes) (fields : List (Bytes × Bytes))
    (headers : AList fun _ : Bytes => Bytes) : (headersOf fields headers).lookup name =
      (Message.values name fields).getLast?.or (headers.lookup name) := by
  induction fields generalizing headers with
  | nil => rfl
  | cons f fs ih =>
    have hstep : headersOf (f :: fs) headers =
        headersOf fs (headers.insert (lowercase f.1) f.2) := rfl
    have hlower : lowercase f.1 = f.1.map Message.lower := rfl
    rw [hstep, ih]
    by_cases hname : f.1.map Message.lower = name
    · have hvalues : Message.values name (f :: fs) = f.2 :: Message.values name fs := by
        simp [Message.values, hname]
      rw [hvalues, hlower, hname, AList.lookup_insert, List.getLast?_cons]
      cases (Message.values name fs).getLast? <;> rfl
    · have hvalues : Message.values name (f :: fs) = Message.values name fs := by
        simp [Message.values, hname]
      rw [hvalues, hlower, AList.lookup_insert_ne (Ne.symm hname)]

/-- What a message says about the length of its body: one header, or none if there is no body. -/
def Announces (m : Message) : Prop :=
  Message.values Message.lengthField m.fields = [Decimal.text m.body.length] ∨
    Message.values Message.lengthField m.fields = [] ∧ m.body = []

def requestOf (method target : Bytes) (m : Message) : HttpRequest :=
  let parts := (cutAt 63 target).getD (target, [])
  ⟨method, urlDecode parts.1, parts.2, headersOf m.fields ∅, UInt64.ofNat m.body.length⟩

theorem readRequest_message {m : Message} (h : IsRequest m) (hlength : Announces m)
    (hsize : m.body.length ≤ Config.kMaxTransferSize.toNat) {method target version : Bytes}
    (hsplit : split m.first = [method, target, version]) (rest : Bytes) :
    ∃ input, readLine (m.text ++ rest) = some (m.first, input) ∧
      readRequest m.first input = .ok (requestOf method target m, m.body ++ rest) := by
  refine ⟨(m.fields.map Message.fieldLine ++ [[]]).flatMap (fun l => l ++ Message.lineEnd) ++
    (m.body ++ rest), ?_, ?_⟩
  · have htext : m.text ++ rest = m.first ++ Message.lineEnd ++
        ((m.fields.map Message.fieldLine ++ [[]]).flatMap (fun l => l ++ Message.lineEnd) ++
          (m.body ++ rest)) := by
      simp [Message.text, Message.head]
    rw [htext, readLine_lineEnd h.first h.firstFits]
  · have hheader (r : HttpRequest) (hr : r.headers = headersOf m.fields ∅) :
        r.header (ascii "content-length") =
          (Message.values Message.lengthField m.fields).getLast?.getD [] := by
      have hname : lowercase (ascii "content-length") = Message.lengthField := by decide
      rw [HttpRequest.header, hr, hname, lookup_headersOf]
      simp
    rw [readRequest, hsplit]
    simp only [readHeaders_fields h.fields h.fits h.count]
    rw [hheader _ rfl]
    rcases hlength with hlength | ⟨hlength, hbody⟩
    · have hne : (Decimal.text m.body.length).isEmpty = false := by simp [Decimal.text_ne_nil]
      simp only [hlength, List.getLast?_singleton, Option.getD_some, hne, Bool.false_eq_true,
        ↓reduceIte, parseSize_text hsize]
      rfl
    · simp only [hlength, List.getLast?_nil, Option.getD_none, List.isEmpty_nil, ↓reduceIte,
        requestOf, hbody]
      rfl

end Http

namespace Page

open WebUi

/-- The message a browser sends for a call with the token of its session. What other headers it
sends is up to the browser. -/
structure Call.Sends (c : Call) (token : Bytes) (m : Message) : Prop extends IsRequest m where
  line : m.first = Urls.requestLine c.method c.target (ascii "HTTP/1.1")
  body : m.body = c.body
  announces : Announces m
  size : m.body.length ≤ Config.kMaxTransferSize.toNat
  authorization : Message.values (ascii "authorization") m.fields = [ascii "Bearer " ++ token]

/-- The query is not decoded, so a tag has to stand for itself in it. The tags of the page do. -/
def Call.TagPlain : Call → Prop
  | upload _ tag _ => ∀ c ∈ tag, Urls.unreserved c = true
  | _ => True

def Call.path : Call → Bytes
  | refresh => ascii "/api/files"
  | download name => kFilesPrefix ++ name
  | upload name _ _ => kFilesPrefix ++ name
  | remove name => kFilesPrefix ++ name

def Call.query : Call → Bytes
  | upload _ tag _ => if tag.isEmpty then [] else ascii "tag=" ++ tag
  | _ => []

/-- A name that no file can have is refused. -/
def Call.request (user : Bytes) (now : ℤ) : Call → Vault.Request
  | refresh => .list user
  | download name => .get user name
  | upload name tag stream =>
      if (filePath user name).isSome then .put user name ⟨stream, tag, now⟩ else .other
  | remove name => .delete user name

theorem encoded_encodeURIComponent (s : Bytes) : Urls.Encoded s (encodeURIComponent s) := by
  induction s with
  | nil => exact .nil
  | cons c s ih =>
    have hcons : encodeURIComponent (c :: s) = (if Urls.unreserved c then [c]
        else [37, upperDigit (c >>> 4), upperDigit (c &&& 0x0F)]) ++ encodeURIComponent s := rfl
    have hupper (v : UInt8) : upperDigit v ∈ Urls.hexDigits v := by simp [Urls.hexDigits, upperDigit]
    rw [hcons]
    split_ifs with hc
    · exact .plain hc ih
    · exact .escaped (hupper _) (hupper _) ih

theorem encodeURIComponent_plain {s : Bytes} (h : ∀ c ∈ s, Urls.unreserved c = true) :
    encodeURIComponent s = s := by
  induction s with
  | nil => rfl
  | cons c s ih =>
    rw [List.forall_mem_cons] at h
    have hcons : encodeURIComponent (c :: s) = (if Urls.unreserved c then [c]
        else [37, upperDigit (c >>> 4), upperDigit (c &&& 0x0F)]) ++ encodeURIComponent s := rfl
    rw [hcons, if_pos h.1, ih h.2]
    rfl

variable {c : Call} {token : Bytes} {m : Message}

theorem split_line (c : Call) :
    split (Urls.requestLine c.method c.target (ascii "HTTP/1.1")) =
      [c.method, c.target, ascii "HTTP/1.1"] := by
  have hwords : IsWord (ascii "GET") ∧ IsWord (ascii "PUT") ∧ IsWord (ascii "DELETE") ∧
      IsWord (ascii "HTTP/1.1") ∧ IsWord (ascii "/api/files") := by decide
  obtain ⟨hget, hput, hdelete, hversion, hfiles⟩ := hwords
  cases c with
  | refresh =>
    rw [Urls.requestLine, Call.method, Call.target, split_sp hget, split_sp hfiles,
      split_word hversion]
  | download name =>
    exact Urls.split_requestLine (encoded_encodeURIComponent name) (by simp) hget hversion
  | upload name tag stream =>
    refine Urls.split_requestLine (encoded_encodeURIComponent name) ?_ hput hversion
    intro q hq
    split_ifs at hq
    · contradiction
    · obtain rfl := Option.some.inj hq
      have htag : (32 : UInt8) ∉ ascii "tag=" := by decide
      simp [htag, (Urls.not_mem_encoded (encoded_encodeURIComponent tag)).1]
  | remove name =>
    exact Urls.split_requestLine (encoded_encodeURIComponent name) (by simp) hdelete hversion

theorem requestOf_call (hs : c.Sends token m) (htag : c.TagPlain) :
    requestOf c.method c.target m =
      ⟨c.method, c.path, c.query, headersOf m.fields ∅, UInt64.ofNat c.body.length⟩ := by
  have hparts (name : Bytes) (query : Option Bytes) :
      (cutAt 63 (Urls.fileTarget (encodeURIComponent name) query)).getD
          (Urls.fileTarget (encodeURIComponent name) query, []) =
        (kFilesPrefix ++ encodeURIComponent name, query.getD []) :=
    Urls.cutAt_fileTarget (encoded_encodeURIComponent name)
  have hdecode (name : Bytes) : urlDecode (kFilesPrefix ++ encodeURIComponent name) =
      kFilesPrefix ++ name := Urls.urlDecode_fileTarget (encoded_encodeURIComponent name)
  cases c with
  | refresh =>
    rw [requestOf, hs.body]
    rfl
  | download name =>
    simp only [requestOf, Call.target, hparts, hdecode, hs.body]
    rfl
  | upload name tag stream =>
    simp only [requestOf, Call.target, hparts, hdecode, hs.body, Call.query,
      encodeURIComponent_plain htag]
    split_ifs <;> rfl
  | remove name =>
    simp only [requestOf, Call.target, hparts, hdecode, hs.body]
    rfl

theorem bearer_requestOf (hs : c.Sends token m) (method target : Bytes) :
    bearer (requestOf method target m) = some token := by
  have hname : lowercase (ascii "authorization") = ascii "authorization" := by decide
  have hheader : (requestOf method target m).header (ascii "authorization") =
      ascii "Bearer " ++ token := by
    rw [HttpRequest.header, hname, requestOf, lookup_headersOf, hs.authorization]
    rfl
  simp only [bearer, hheader, List.drop_left]
  rw [if_pos (List.isPrefixOf_iff_prefix.mpr (List.prefix_append _ _))]

def entryOf (file : StoredFile) : FileEntry :=
  ⟨file.name, double file.size, double file.modified, file.tag⟩

/-- The file as it comes out of the decoder: what is not UTF-8 in its name and its tag has become
replacement characters. -/
def decoded (file : StoredFile) : StoredFile :=
  { file with
    name := Utf8.decodeWithoutBom file.name
    tag := Utf8.decodeWithoutBom file.tag }

theorem decoded_of_isUtf8 {file : StoredFile} (hname : Utf8.IsUtf8 file.name)
    (htag : Utf8.IsUtf8 file.tag) : decoded file = file := by
  rw [decoded, Utf8.decodeWithoutBom_of_isUtf8 hname, Utf8.decodeWithoutBom_of_isUtf8 htag]

/-- What is shown for a result of the map. -/
def Call.tells : Call → Vault.Result → Option Shown
  | refresh, .listing l => some (.files ((l.map decoded).map entryOf))
  | download _, .content b => some (.fetched b)
  | download _, .missing => some .notFetched
  | upload .., .stored => some .stored
  | remove _, .removed => some .deleted
  | remove _, .missing => some .notDeleted
  | _, _ => none

def Call.refused : Call → Shown
  | refresh => .notListed
  | download _ => .notFetched
  | upload .. => .failed (ascii "not signed in")
  | remove _ => .notDeleted

theorem isDigits_text (n : ℕ) : Json.isDigits (Decimal.text n) = true := by
  have hall : (Decimal.text n).all Decimal.isDigit = true :=
    List.all_eq_true.mpr (Decimal.text_digits n)
  simp [Json.isDigits, Decimal.text_ne_nil, hall]

theorem number_signedText (z : ℤ) : number (Decimal.signedText z) = some (double z) := by
  cases z with
  | ofNat n =>
    have hhead : (Decimal.text n).head? ≠ some 45 := by
      intro hhead
      have := Decimal.text_digits n 45 (List.mem_of_head? hhead)
      contradiction
    simp [Decimal.signedText, number, hhead, isDigits_text, Decimal.value_text]
  | negSucc n =>
    simp [Decimal.signedText, number, isDigits_text, Decimal.value_text, Int.negSucc_eq]

theorem fileEntry_fileValue (file : StoredFile) : fileEntry (fileValue file) = some (entryOf file) := by
  have hname : (fileValue file).member (ascii "name") = some (.string file.name) := rfl
  have hsize : (fileValue file).member (ascii "size") = some (.number (Decimal.text file.size)) := rfl
  have hmodified : (fileValue file).member (ascii "modified") =
      some (.number (Decimal.signedText file.modified)) := rfl
  have htag : (fileValue file).member (ascii "tag") = some (.string file.tag) := rfl
  have hnumber : number (Decimal.text file.size) = some (double file.size) :=
    number_signedText file.size
  simp only [fileEntry, hname, hsize, hmodified, htag, hnumber, number_signedText]
  rfl

theorem filesOf_filesValue (files : List StoredFile) :
    filesOf (filesValue files) = some (files.map entryOf) := by
  have hmember : (filesValue files).member (ascii "files") = some (.array (files.map fileValue)) :=
    rfl
  have hall : (files.map fileValue).mapM fileEntry = some (files.map entryOf) := by
    induction files with
    | nil => rfl
    | cons file files ih =>
      have htail := ih rfl
      simp [fileEntry_fileValue, htail]
  simp only [filesOf, hmember, hall]

theorem decode_jsonFile (file : StoredFile) :
    Utf8.decodeWithoutBom (jsonFile file) = jsonFile (decoded file) := by
  have hparts (name tag : Bytes) : jsonFile { file with name := name, tag := tag } =
      ascii "\x7b\"name\":\"" ++ (jsonEscape name ++
        ((ascii "\",\"size\":" ++ Decimal.text file.size ++ ascii ",\"modified\":" ++
          Decimal.signedText file.modified ++ ascii ",\"tag\":\"") ++
        (jsonEscape tag ++ (ascii "\"\x7d" ++ [])))) := by
    simp only [jsonFile, List.append_assoc, List.append_nil]
  have hmiddle : Utf8.IsAscii (ascii "\",\"size\":" ++ Decimal.text file.size ++
      ascii ",\"modified\":" ++ Decimal.signedText file.modified ++ ascii ",\"tag\":\"") := by
    have hsigned : Utf8.IsAscii (Decimal.signedText file.modified) := by
      cases file.modified with
      | ofNat n => exact isAscii_text n
      | negSucc n => exact Utf8.IsAscii.append (v := [45]) (by decide) (isAscii_text (n + 1))
    exact (((Utf8.IsAscii.append (by decide) (isAscii_text _)).append (by decide)).append
      hsigned).append (by decide)
  have hfile := hparts file.name file.tag
  rw [show jsonFile file = _ from hfile, Utf8.decodeWithoutBom_ascii_append (by decide),
    Utf8.decodeWithoutBom_append_ascii hmiddle (by simp [Decimal.text_ne_nil]),
    Utf8.decodeWithoutBom_append_ascii (by decide) (by decide), decode_jsonEscape,
    decode_jsonEscape]
  exact (hparts _ _).symm

theorem decode_jsonFiles (files : List StoredFile) :
    Utf8.decode (jsonFiles files) = jsonFiles (files.map decoded) := by
  have hmap : (files.map jsonFile).map Utf8.decodeWithoutBom =
      (files.map decoded).map jsonFile := by
    rw [List.map_map, List.map_map]
    exact List.map_congr_left fun file _ => decode_jsonFile file
  have hbody : jsonFiles files = ascii "\x7b\"files\":[" ++
      (List.intercalate (ascii ",") (files.map jsonFile) ++ (ascii "]\x7d" ++ [])) := by
    simp [jsonFiles]
  rw [decode_eq rfl, hbody, Utf8.decodeWithoutBom_ascii_append (by decide),
    Utf8.decodeWithoutBom_append_ascii (by decide) (by decide),
    Utf8.decodeWithoutBom_intercalate (by decide) (by decide), hmap]
  simp [jsonFiles, Utf8.decodeWithoutBom, Utf8.decodeFrom, Utf8.flush]

theorem decode_jsonError {message : Bytes} (h : Utf8.IsAscii message) :
    Utf8.decode (jsonError message) = jsonError message := by
  have hparts (message : Bytes) : jsonError message =
      ascii "\x7b\"error\":\"" ++ (jsonEscape message ++ (ascii "\"\x7d" ++ [])) := by
    simp [jsonError]
  rw [decode_eq rfl, hparts, Utf8.decodeWithoutBom_ascii_append (by decide),
    Utf8.decodeWithoutBom_append_ascii (by decide) (by decide), decode_jsonEscape,
    Utf8.decodeWithoutBom_of_ascii h]
  rfl

/-- A response to a call is read as what the page shows for it, and nothing else is taken off the
connection. -/
theorem receive_send {status : ℕ} (hstatus : status ∈ kStatuses) (c : Call) (body : WebBody)
    (webPage more : Bytes) : c.receive (body.send webPage status ++ more) =
      (c.shown ⟨status, body.bytes webPage⟩).map fun shown =>
        ((decide (status = 401), shown), more) := by
  have hmethods : ascii "GET" ≠ ascii "HEAD" ∧ ascii "PUT" ≠ ascii "HEAD" ∧
      ascii "DELETE" ≠ ascii "HEAD" := by decide
  have hmethod : c.method ≠ ascii "HEAD" := by
    cases c with
    | refresh => exact hmethods.1
    | download => exact hmethods.1
    | upload => exact hmethods.2.1
    | remove => exact hmethods.2.2
  rw [Call.receive, fetchReply_send hstatus, if_neg hmethod]
  rfl

theorem receive_listing (l : List StoredFile) (webPage more : Bytes) :
    Call.refresh.receive ((WebBody.files l).send webPage 200 ++ more) =
      some ((false, .files ((l.map decoded).map entryOf)), more) := by
  have hparse : Json.parse (Utf8.decode ((WebBody.files l).bytes webPage)) =
      some (filesValue (l.map decoded)) := by
    rw [WebBody.bytes, decode_jsonFiles]
    exact (reads_jsonFiles _).parse
  have hok : (Reply.mk 200 ((WebBody.files l).bytes webPage)).ok = true := rfl
  rw [receive_send (by decide), Call.shown, if_pos hok, Reply.json, hparse, Option.bind_some,
    filesOf_filesValue]
  rfl

theorem errorOf_errorValue {text : String} (otherwise : Bytes) (htext : ascii text ≠ []) :
    errorOf (some (errorValue (ascii text))) otherwise = ascii text := by
  have hmember : (errorValue (ascii text)).member (ascii "error") = some (.string (ascii text)) := rfl
  simp [errorOf, hmember, htext]

theorem receive_failed {status : ℕ} (hstatus : status ∈ kStatuses) (hbad : 299 < status)
    {text : String} (htext : ascii text ≠ []) (hascii : Utf8.IsAscii (ascii text))
    (name tag stream webPage more : Bytes) :
    (Call.upload name tag stream).receive ((WebBody.error text).send webPage status ++ more) =
      some ((decide (status = 401), .failed (ascii text)), more) := by
  have hparse : Json.parse (Utf8.decode ((WebBody.error text).bytes webPage)) =
      some (errorValue (ascii text)) := by
    rw [WebBody.bytes, decode_jsonError hascii]
    exact (reads_jsonError (ascii text)).parse
  have hok : (Reply.mk status ((WebBody.error text).bytes webPage)).ok = false := by
    simp [Reply.ok, hbad]
  rw [receive_send hstatus, Call.shown, hok, Reply.json, hparse, errorOf_errorValue _ htext]
  rfl

theorem receive_result {c : Call} {res : Vault.Result} {v : Vault} {user : Bytes} {now : ℤ}
    (hother : c.request user now ≠ .other) (hres : v.Answers (c.request user now) res)
    (webPage more : Bytes) : ∃ status body shown, responseTo res = some (status, body) ∧
      c.tells res = some shown ∧
      c.receive (body.send webPage status ++ more) = some ((false, shown), more) := by
  cases c with
  | refresh =>
    obtain ⟨l, rfl, -⟩ := hres
    exact ⟨200, .files l, _, rfl, rfl, receive_listing l webPage more⟩
  | download name =>
    rw [Call.request, Vault.answers_get] at hres
    subst hres
    cases v.files user name with
    | none => exact ⟨404, _, _, rfl, rfl, receive_send (by decide) _ _ _ _⟩
    | some k => exact ⟨200, _, _, rfl, rfl, receive_send (by decide) _ _ _ _⟩
  | upload name tag stream =>
    simp only [Call.request] at hother hres
    split_ifs at hother hres with hpath
    · obtain rfl : res = .stored := hres
      exact ⟨201, _, _, rfl, rfl, receive_send (by decide) _ _ _ _⟩
    · exact absurd rfl hother
  | remove name =>
    rw [Call.request, Vault.answers_delete] at hres
    subst hres
    cases v.files user name with
    | none => exact ⟨404, _, _, rfl, rfl, receive_send (by decide) _ _ _ _⟩
    | some k => exact ⟨200, _, _, rfl, rfl, receive_send (by decide) _ _ _ _⟩

theorem receive_refused (c : Call) (webPage more : Bytes) :
    c.receive ((WebBody.error "not signed in").send webPage 401 ++ more) =
      some ((true, c.refused), more) := by
  cases c with
  | refresh => exact receive_send (by decide) _ _ _ _
  | download => exact receive_send (by decide) _ _ _ _
  | upload name tag stream =>
    exact receive_failed (by decide) (by decide) (by decide) (by decide) _ _ _ _ _
  | remove => exact receive_send (by decide) _ _ _ _

section Served

variable {c : Call} {token : Bytes} {m : Message} {env : WebEnv}

theorem isFileRoute_call (hs : c.Sends token m) (htag : c.TagPlain) :
    IsFileRoute (requestOf c.method c.target m) := by
  rw [requestOf_call hs htag]
  have hpre (name : Bytes) : kFilesPrefix.isPrefixOf (kFilesPrefix ++ name) = true :=
    List.isPrefixOf_iff_prefix.mpr (List.prefix_append _ _)
  cases c with
  | refresh => exact .inl ⟨rfl, rfl⟩
  | download name => exact .inr ⟨hpre name, .inl rfl⟩
  | upload name => exact .inr ⟨hpre name, .inr (.inl rfl)⟩
  | remove name => exact .inr ⟨hpre name, .inr (.inr rfl)⟩

theorem authenticate_call (hs : c.Sends token m) (clock : ℕ) (entries : BrowserSessions) :
    authenticate clock entries (requestOf c.method c.target m) = entries.lookup clock token := by
  rw [authenticate, bearer_requestOf hs]

theorem path_ne_list (name : Bytes) : kFilesPrefix ++ name ≠ ascii "/api/files" := by
  have hlist : (ascii "/api/files").take kFilesPrefix.length ≠ kFilesPrefix := by decide
  intro heq
  apply hlist
  rw [← heq, List.take_left]

theorem asksUser_call (hs : c.Sends token m) (htag : c.TagPlain) (user : Bytes) (now : ℤ)
    (rest : Bytes) :
    (asksUser user now (requestOf c.method c.target m) (m.body ++ rest)).getD .other =
      c.request user now := by
  have hmethods : ascii "PUT" ≠ ascii "GET" ∧ ascii "DELETE" ≠ ascii "GET" ∧
      ascii "DELETE" ≠ ascii "PUT" := by decide
  have hpre (name : Bytes) : kFilesPrefix.isPrefixOf (kFilesPrefix ++ name) = true :=
    List.isPrefixOf_iff_prefix.mpr (List.prefix_append _ _)
  rw [requestOf_call hs htag, asksUser]
  cases c with
  | refresh => rfl
  | download name =>
    simp [Call.method, Call.path, path_ne_list, hpre, Call.request]
  | upload name tag stream =>
    have hsize : (UInt64.ofNat stream.length).toNat = stream.length := by
      have hle := hs.size
      rw [hs.body] at hle
      exact UInt64.toNat_ofNat_of_lt' (hle.trans_lt Config.kMaxTransferSize.toNat_lt)
    have htagged : firstLine (queryTag (Call.upload name tag stream).query) = tag := by
      have hfeed : firstLine tag = tag := by
        refine List.takeWhile_eq_self_iff.mpr fun x hx => ?_
        have hplain := htag x hx
        have hne : x ≠ 10 := by
          rintro rfl
          contradiction
        simpa using hne
      rw [Call.query]
      split_ifs with hempty
      · rw [List.isEmpty_iff.mp hempty]
        rfl
      · have hmark : queryTag (ascii "tag=" ++ tag) = tag := rfl
        rw [hmark, hfeed]
    simp only [Call.method, Call.path, path_ne_list, and_false, ↓reduceIte, hpre, hmethods.1, and_self,
      List.drop_left, asksPutFile, hs.body, Call.body, htagged, hsize, List.take_left, Call.request,
      List.length_append, Nat.le_add_right, and_true]
    split_ifs <;> rfl
  | remove name =>
    simp [Call.method, Call.path, path_ne_list, hpre, hmethods, Call.request]

/-- What the account of the session sees, in the map as it was. -/
def Call.Told (c : Call) (v : Vault) (user : Bytes) (now : ℤ) (shown : Shown) : Prop :=
  if c.request user now = .other then shown = .failed (ascii "that name cannot be stored")
  else ∃ res, v.Answers (c.request user now) res ∧ c.tells res = some shown

theorem serveUser_refused (env : WebEnv) (hs : c.Sends token m) (htag : c.TagPlain) {user : Bytes}
    {now : ℤ} (hother : c.request user now = .other) (rest : Bytes) :
    (serveUser env user (requestOf c.method c.target m) (m.body ++ rest)).response =
        some (400, .error "that name cannot be stored") ∧
      ∃ name tag stream, c = .upload name tag stream := by
  cases c with
  | refresh => contradiction
  | download name => contradiction
  | remove name => contradiction
  | upload name tag stream =>
    have hpath : filePath user name = none := by
      simp only [Call.request] at hother
      split_ifs at hother with hsome
      exact Option.not_isSome_iff_eq_none.mp hsome
    have hmethods : ascii "PUT" ≠ ascii "GET" := by decide
    have hpre : kFilesPrefix.isPrefixOf (kFilesPrefix ++ name) = true :=
      List.isPrefixOf_iff_prefix.mpr (List.prefix_append _ _)
    have hstored : (if isSafeName name then filePath user name else none) = none := by
      split_ifs
      · exact hpath
      · rfl
    refine ⟨?_, name, tag, stream, rfl⟩
    rw [requestOf_call hs htag, serveUser]
    simp only [Call.method, Call.path, path_ne_list, and_false, ↓reduceIte, hpre, hmethods, and_self,
      List.drop_left, servePutFile, hstored]
    rfl

/-- A call that reaches the server on sound storage, with any bytes behind it: it is answered, and
the page shows what the map holds for the account of its session. -/
theorem handle_call (henv : env.Sound) (entries : BrowserSessions) (hs : c.Sends token m)
    (htag : c.TagPlain) (webPage rest : Bytes) :
    ∃ text, (handle env entries (requestOf c.method c.target m) (m.body ++ rest)).2.reply webPage =
        some text ∧
      match (entries.lookup env.clock token).2 with
      | none => ∀ more, c.receive (text ++ more) = some ((true, c.refused), more)
      | some user => ∃ shown, c.Told (vaultOf env.disk) user env.now shown ∧
          ∀ more, c.receive (text ++ more) = some ((false, shown), more) := by
  obtain ⟨text, htext⟩ := (handle_isWhole henv.reads entries (requestOf c.method c.target m)
    (m.body ++ rest)).reply webPage
  refine ⟨text, htext, ?_⟩
  have hhandle : (handle env entries (requestOf c.method c.target m) (m.body ++ rest)).2 =
      (entries.lookup env.clock token).2.elim
        (respond 401 (.error "not signed in")
          (drainBody (requestOf c.method c.target m) (m.body ++ rest)))
        fun user => serveUser env user (requestOf c.method c.target m) (m.body ++ rest) := by
    rw [handle_snd_of_isFileRoute (isFileRoute_call hs htag), authenticate_call hs]
  cases huser : (entries.lookup env.clock token).2 with
  | none =>
    rw [huser] at hhandle
    intro more
    rw [reply_of_response (by rw [hhandle]; rfl) htext]
    exact receive_refused c webPage more
  | some user =>
    rw [huser] at hhandle
    by_cases hother : c.request user env.now = .other
    · obtain ⟨hresponse, name, tag, stream, rfl⟩ :=
        serveUser_refused env hs htag hother rest
      refine ⟨_, by rw [Call.Told, if_pos hother], fun more => ?_⟩
      rw [reply_of_response (by rw [hhandle]; exact hresponse) htext]
      exact receive_failed (by decide) (by decide) (by decide) (by decide) _ _ _ _ _
    · have hcarries : Carries env.toSessionEnv
          (asksUser user env.now (requestOf c.method c.target m) (m.body ++ rest))
          (serveUser env user (requestOf c.method c.target m) (m.body ++ rest)) :=
        serveUser_carries henv _ _
      have hanswer := hcarries.answer
      rw [asksUser_call hs htag] at hanswer
      obtain ⟨res, hres, hresponse⟩ := hanswer.resolve_left hother
      obtain ⟨-, -, shown, -, htells, -⟩ := receive_result hother hres webPage []
      refine ⟨shown, ?_, fun more => ?_⟩
      · rw [Call.Told, if_neg hother]
        exact ⟨res, hres, htells⟩
      · obtain ⟨status, body, shown', hto, htells', hreceive⟩ :=
          receive_result hother hres webPage more
        obtain rfl : shown = shown' := Option.some.inj (htells.symm.trans htells')
        rw [reply_of_response (by rw [hhandle]; exact hresponse.trans hto) htext]
        exact hreceive

end Served

def eventOf (env : SessionEnv) (elapsed more : ℕ) (drawn bytes : Bytes) : Service.Event :=
  match readLine bytes with
  | none => .request env elapsed more drawn [] []
  | some (line, input) => .request env elapsed more drawn line input

/-- Something done to the server: a call of a page with the token of its session, on a connection
on which more may follow, or anything else. -/
inductive Move where
  | call (env : SessionEnv) (elapsed more : ℕ) (drawn token : Bytes) (c : Call) (m : Message)
      (behind : Bytes)
  | other (e : Service.Event)

def Move.event : Move → Service.Event
  | .call env elapsed more drawn _ _ m behind => eventOf env elapsed more drawn (m.text ++ behind)
  | .other e => e

/-- Storage is sound, and a call is sent as browsers do. -/
def Move.Fair : Move → Prop
  | .call env _ _ _ token c m _ => env.Sound ∧ c.Sends token m ∧ c.TagPlain
  | .other e => e.env.Sound

end Page

namespace Service

open Machine Page

def pageStep (s : Service) (m : Page.Move) : Service := step s m.event

def replyBytes (webPage : Bytes) (s : Service) (e : Event) : Option Bytes :=
  match s.answer e with
  | .request r => r.reply webPage
  | _ => none

def signedIn (s : Service) (elapsed : ℕ) (token : Bytes) : Option Bytes :=
  (s.entries.lookup (s.now + elapsed) token).2

/-- The move changes the map as it asks to. The page takes exactly its response off the connection,
and shows what the map holds for the account of its session; without one it signs out and changes
nothing. -/
def ToldPage (webPage : Bytes) (s : Service) : Page.Move → Prop
  | .call env elapsed more drawn token c m behind =>
      let move := Page.Move.call env elapsed more drawn token c m behind
      ∃ text, replyBytes webPage s move.event = some text ∧
        match s.signedIn elapsed token with
        | none => vaultOf (pageStep s move).disk = vaultOf s.disk ∧
            ∀ rest, c.receive (text ++ rest) = some ((true, c.refused), rest)
        | some user =>
            vaultOf (pageStep s move).disk = (vaultOf s.disk).step (c.request user env.now) ∧
            ∃ shown, c.Told (vaultOf s.disk) user env.now shown ∧
              ∀ rest, c.receive (text ++ rest) = some ((false, shown), rest)
  | .other e => vaultOf (pageStep s (.other e)).disk = (vaultOf s.disk).step (asks s e)

theorem toldPage_of_fair (webPage : Bytes) (s : Service) {move : Page.Move} (h : move.Fair) :
    ToldPage webPage s move := by
  cases move with
  | other e =>
    have hserves := (serves_step s e h).vault
    rwa [← step_disk] at hserves
  | call env elapsed more drawn token c m behind =>
    obtain ⟨henv, hs, htag⟩ := h
    have hsplit : split m.first = [c.method, c.target, ascii "HTTP/1.1"] := by
      rw [hs.line, split_line]
    obtain ⟨input, hline, hread⟩ :=
      readRequest_message hs.toIsRequest hs.announces hs.size hsplit behind
    have hevent : (Page.Move.call env elapsed more drawn token c m behind).event =
        .request env elapsed more drawn m.first input := by
      rw [Page.Move.event, eventOf, hline]
    have hserves := (serves_step s (.request env elapsed more drawn m.first input) henv).vault
    have hasks : asks s (.request env elapsed more drawn m.first input) =
        ((s.signedIn elapsed token).bind fun user => WebUi.asksUser user env.now
          (requestOf c.method c.target m) (m.body ++ behind)).getD .other := by
      simp only [asks, hread, WebUi.asks, if_pos (isFileRoute_call hs htag), authenticate_call hs]
      rfl
    rw [← step_disk, hasks] at hserves
    have hweb : (s.web env elapsed more drawn).Sound :=
      ⟨henv.1, henv.2, henv.3, henv.4, henv.5, henv.6, henv.7⟩
    obtain ⟨text, htext, htold⟩ := handle_call hweb s.entries hs htag webPage behind
    refine ⟨text, ?_, ?_⟩
    · rw [replyBytes, hevent]
      simp only [answer, hread]
      exact htext
    · rw [pageStep, hevent]
      cases huser : s.signedIn elapsed token with
      | none =>
        rw [huser] at hserves
        have hlookup : (s.entries.lookup (s.web env elapsed more drawn).clock token).2 = none := huser
        rw [hlookup] at htold
        exact ⟨hserves, htold⟩
      | some user =>
        rw [huser, Option.bind_some, asksUser_call hs htag] at hserves
        have hlookup : (s.entries.lookup (s.web env elapsed more drawn).clock token).2 = some user :=
          huser
        rw [hlookup] at htold
        exact ⟨hserves, htold⟩

/-- However the calls of any number of pages, clients and other requests follow each other on sound
storage, every call of a page is told what the map holds; and decoding leaves what is UTF-8 alone. -/
theorem pages_told (webPage : Bytes) (s : Service) (moves : List Page.Move)
    (h : ∀ move ∈ moves, move.Fair) : Along pageStep (ToldPage webPage) s moves ∧
      ∀ file : StoredFile, Utf8.IsUtf8 file.name → Utf8.IsUtf8 file.tag →
        Page.decoded file = file :=
  ⟨along_of_forall fun move hmove s => toldPage_of_fair webPage s (h move hmove),
    fun _ => Page.decoded_of_isUtf8⟩

def sampleSignedIn : Service where
  disk := ∅
  sessions _ := {}
  entries token := if token = ascii "t" then some ⟨ascii "ann", 1⟩ else none
  now := 0

def sampleUploadCall : Page.Call := .upload (ascii "a b") (ascii "7f") (ascii "hi")

def sampleUploadMessage : Message where
  first := Urls.requestLine sampleUploadCall.method sampleUploadCall.target (ascii "HTTP/1.1")
  fields := [(ascii "Host", ascii "h"), (ascii "Authorization", ascii "Bearer t"),
    (ascii "Content-Length", ascii "2")]
  body := ascii "hi"

theorem sampleUpload_sends : sampleUploadCall.Sends (ascii "t") sampleUploadMessage where
  first := by decide
  firstFits := by decide
  fields := by decide
  fits := by decide
  count := by decide
  line := rfl
  body := rfl
  announces := .inl (by decide)
  size := by decide
  authorization := by decide

theorem sampleUpload_tagPlain : sampleUploadCall.TagPlain := by
  have htag : ∀ c ∈ ascii "7f", Urls.unreserved c = true := by decide
  exact htag

theorem pages_told_sample :
    vaultOf (pageStep sampleSignedIn (.call calmEnv 0 0 [] (ascii "t") sampleUploadCall
        sampleUploadMessage [])).disk =
      (vaultOf ∅).step (.put (ascii "ann") (ascii "a b") ⟨ascii "hi", ascii "7f", 0⟩) := by
  have h := (pages_told [] sampleSignedIn [.call calmEnv 0 0 [] (ascii "t") sampleUploadCall
    sampleUploadMessage []] (by
      simp only [List.mem_singleton, forall_eq]
      exact ⟨calmEnv_sound, sampleUpload_sends, sampleUpload_tagPlain⟩)).1.1
  obtain ⟨text, -, hvault, -⟩ := h
  exact hvault

end Service

end PersonalCloud
