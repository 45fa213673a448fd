import PersonalCloud.Server.Json
import PersonalCloud.Server.WebUi

/-! Names of files on their way through a URL: what the page encodes is what the routes are given. -/
namespace PersonalCloud

open Proto Http WebUi

namespace Urls

/-- The bytes `encodeURIComponent` leaves as they are: letters, digits and `-_.!~*'()`. -/
def unreserved (c : UInt8) : Bool :=
  (decide (65 ≤ c) && decide (c ≤ 90)) || (decide (97 ≤ c) && decide (c ≤ 122)) ||
    (decide (48 ≤ c) && decide (c ≤ 57)) || c == 45 || c == 95 || c == 46 || c == 33 || c == 126 ||
    c == 42 || c == 39 || c == 40 || c == 41

def hexDigits (value : UInt8) : List UInt8 :=
  [if value < 10 then 48 + value else 87 + value, if value < 10 then 48 + value else 55 + value]

/-- The ways to write a byte string: what is not unreserved is escaped. -/
inductive Encoded : Bytes → Bytes → Prop
  | nil : Encoded [] []
  | plain {c : UInt8} {name text : Bytes} : unreserved c = true → Encoded name text →
      Encoded (c :: name) (c :: text)
  | escaped {c hi lo : UInt8} {name text : Bytes} : hi ∈ hexDigits (c >>> 4) →
      lo ∈ hexDigits (c &&& 0x0F) → Encoded name text → Encoded (c :: name) (37 :: hi :: lo :: text)

def fileTarget (text : Bytes) (query : Option Bytes) : Bytes :=
  kFilesPrefix ++ text ++ query.elim [] fun q => 63 :: q

def requestLine (method target version : Bytes) : Bytes := sp method (sp target version)

def serveFile (env : WebEnv) (user : Bytes) (request : HttpRequest) (name input : Bytes) :
    WebHandled :=
  if request.method = ascii "GET" then serveGetFile env.toSessionEnv user name input
  else if request.method = ascii "PUT" then
    servePutFile env.toSessionEnv user name request.query request.contentLength.toNat input
  else if request.method = ascii "DELETE" then serveDeleteFile env.toSessionEnv user name input
  else respond 404 (.error "no such route") (drainBody request input)

private theorem hexByte_pair (n : Fin 256) : ∀ hi ∈ hexDigits (UInt8.ofFin n >>> 4),
    ∀ lo ∈ hexDigits (UInt8.ofFin n &&& 0x0F), hexByte hi lo = some (UInt8.ofFin n) ∧
      (hi ≠ 32 ∧ hi ≠ 63) ∧ lo ≠ 32 ∧ lo ≠ 63 := by
  revert n
  decide +kernel

theorem hexByte_of_digits {c hi lo : UInt8} (hhi : hi ∈ hexDigits (c >>> 4))
    (hlo : lo ∈ hexDigits (c &&& 0x0F)) :
    hexByte hi lo = some c ∧ (hi ≠ 32 ∧ hi ≠ 63) ∧ lo ≠ 32 ∧ lo ≠ 63 :=
  hexByte_pair c.toFin hi hhi lo hlo

private theorem unreserved_ne_fin (n : Fin 256) : unreserved (UInt8.ofFin n) = true →
    UInt8.ofFin n ≠ 32 ∧ UInt8.ofFin n ≠ 37 ∧ UInt8.ofFin n ≠ 43 ∧ UInt8.ofFin n ≠ 63 := by
  revert n
  decide +kernel

theorem unreserved_ne {c : UInt8} (h : unreserved c = true) : c ≠ 32 ∧ c ≠ 37 ∧ c ≠ 43 ∧ c ≠ 63 :=
  unreserved_ne_fin c.toFin h

/-- A byte that is neither a percent sign nor a plus stands for itself, also at the end. -/
theorem urlDecode_cons {c : UInt8} (hpercent : c ≠ 37) (hplus : c ≠ 43) (rest : Bytes) :
    urlDecode (c :: rest) = c :: urlDecode rest := by
  have hself : plusDecode c = c := if_neg hplus
  cases rest with
  | nil => simp [urlDecode, hself]
  | cons d rest =>
    cases rest with
    | nil => simp [urlDecode, hself]
    | cons e rest => simp [urlDecode, hpercent, hself]

/-- An escape is read whole, also where the text ends with it. -/
theorem urlDecode_escape {c hi lo : UInt8} (h : hexByte hi lo = some c) (rest : Bytes) :
    urlDecode (37 :: hi :: lo :: rest) = c :: urlDecode rest := by
  simp [urlDecode, h]

theorem urlDecode_encoded {name text : Bytes} (h : Encoded name text) : urlDecode text = name := by
  induction h with
  | nil => rfl
  | plain hc h ih =>
    obtain ⟨-, hpercent, hplus, -⟩ := unreserved_ne hc
    rw [urlDecode_cons hpercent hplus, ih]
  | escaped hhi hlo h ih => rw [urlDecode_escape (hexByte_of_digits hhi hlo).1, ih]

theorem urlDecode_append {pre : Bytes} (h : ∀ c ∈ pre, c ≠ 37 ∧ c ≠ 43) (rest : Bytes) :
    urlDecode (pre ++ rest) = pre ++ urlDecode rest := by
  induction pre with
  | nil => rfl
  | cons c pre ih =>
    obtain ⟨⟨hpercent, hplus⟩, hpre⟩ := List.forall_mem_cons.mp h
    rw [List.cons_append, urlDecode_cons hpercent hplus, ih hpre, List.cons_append]

theorem not_mem_encoded {name text : Bytes} (h : Encoded name text) : 32 ∉ text ∧ 63 ∉ text := by
  induction h with
  | nil => simp
  | plain hc h ih =>
    obtain ⟨hspace, -, -, hquestion⟩ := unreserved_ne hc
    simp [hspace.symm, hquestion.symm, ih.1, ih.2]
  | escaped hhi hlo h ih =>
    obtain ⟨-, ⟨hspace, hquestion⟩, hspace', hquestion'⟩ := hexByte_of_digits hhi hlo
    simp [hspace.symm, hquestion.symm, hspace'.symm, hquestion'.symm, ih.1, ih.2]

section Target

variable {name text : Bytes} {query : Option Bytes}

theorem isWord_fileTarget (h : Encoded name text) (hquery : ∀ q ∈ query, 32 ∉ q) :
    IsWord (fileTarget text query) := by
  have hfiles : kFilesPrefix ≠ [] ∧ (32 : UInt8) ∉ kFilesPrefix := by decide
  have htext := (not_mem_encoded h).1
  refine isWord_iff.mpr ⟨by simp [fileTarget, hfiles.1], ?_⟩
  cases query with
  | none => simp [fileTarget, hfiles.2, htext]
  | some q => simp [fileTarget, hfiles.2, htext, hquery q rfl]

theorem cutAt_fileTarget (h : Encoded name text) :
    (cutAt 63 (fileTarget text query)).getD (fileTarget text query, []) =
      (kFilesPrefix ++ text, query.getD []) := by
  have hfiles : (63 : UInt8) ∉ kFilesPrefix := by decide
  have hnot : (63 : UInt8) ∉ kFilesPrefix ++ text := by
    simp [hfiles, (not_mem_encoded h).2]
  cases query with
  | none =>
    have htarget : fileTarget text none = kFilesPrefix ++ text := List.append_nil _
    rw [htarget, cutAt, if_neg hnot]
    rfl
  | some q =>
    have htarget : fileTarget text (some q) = kFilesPrefix ++ text ++ 63 :: q := rfl
    rw [htarget, cutAt_append hnot]
    rfl

theorem urlDecode_fileTarget (h : Encoded name text) :
    urlDecode (kFilesPrefix ++ text) = kFilesPrefix ++ name := by
  rw [urlDecode_append (by decide), urlDecode_encoded h]

end Target

theorem handle_files {env : WebEnv} {entries entries' : BrowserSessions} {request : HttpRequest}
    {name user : Bytes} (input : Bytes) (hpath : request.path = kFilesPrefix ++ name)
    (hauth : authenticate env.clock entries request = (entries', some user)) :
    handle env entries request input = (entries', serveFile env user request name input) := by
  have hother : ∀ route ∈ [ascii "/", ascii "/index.html", ascii "/api/login", ascii "/api/logout",
      ascii "/api/files"], request.path ≠ route := by
    have hroutes : ∀ route ∈ [ascii "/", ascii "/index.html", ascii "/api/login",
        ascii "/api/logout", ascii "/api/files"],
        route.take kFilesPrefix.length ≠ kFilesPrefix := by decide
    intro route hroute heq
    apply hroutes route hroute
    rw [← heq, hpath, List.take_left]
  simp only [List.forall_mem_cons, List.not_mem_nil, false_implies, implies_true, and_true] at hother
  obtain ⟨h1, h2, h3, h4, h5⟩ := hother
  have hapi : kApiPrefix.isPrefixOf request.path = true := by
    have hpre : kApiPrefix <+: kFilesPrefix := by decide
    rw [hpath]
    exact List.isPrefixOf_iff_prefix.mpr (hpre.trans (List.prefix_append _ _))
  have hfiles : kFilesPrefix.isPrefixOf request.path = true := by
    rw [hpath]
    exact List.isPrefixOf_iff_prefix.mpr (List.prefix_append _ _)
  have hname : request.path.drop kFilesPrefix.length = name := by rw [hpath, List.drop_left]
  simp only [handle, h1, h2, h3, h4, or_self, and_false, ↓reduceIte, hapi, hauth, serveUser, h5,
    hfiles, true_and, hname, serveFile]

theorem split_requestLine {name text : Bytes} {query : Option Bytes} {method version : Bytes}
    (h : Encoded name text) (hquery : ∀ q ∈ query, 32 ∉ q) (hmethod : IsWord method)
    (hversion : IsWord version) : split (requestLine method (fileTarget text query) version) =
      [method, fileTarget text query, version] := by
  rw [requestLine, split_sp hmethod, split_sp (isWord_fileTarget h hquery), split_word hversion]

theorem readHeaders_error {more : ℕ} {input : Bytes} {headers : AList fun _ : Bytes => Bytes}
    {reason : String} (h : readHeaders more input headers = .error reason) :
    reason = "connection closed inside the headers" ∨ reason = "too many headers" := by
  induction more generalizing input headers with
  | zero =>
    unfold readHeaders at h
    split at h
    · exact .inl (Except.error.inj h).symm
    · cases h
    · exact .inr (Except.error.inj h).symm
  | succ more ih =>
    unfold readHeaders at h
    split at h
    · exact .inl (Except.error.inj h).symm
    · cases h
    · exact ih h

/-- A name survives the URL: whatever bytes it has and however they are escaped, the request carries
it and the query unchanged, the request line is no reason to refuse it, and the handler of the file
is given exactly the name. -/
theorem names_survive {name text : Bytes} (h : Encoded name text) (query : Option Bytes)
    (hquery : ∀ q ∈ query, 32 ∉ q) {method version : Bytes} (hmethod : IsWord method)
    (hversion : IsWord version) (input : Bytes) :
    (∀ request body, readRequest (requestLine method (fileTarget text query) version) input =
        .ok (request, body) →
      request.method = method ∧ request.path = kFilesPrefix ++ name ∧
        request.query = query.getD [] ∧
        ∀ (env : WebEnv) (entries entries' : BrowserSessions) (user : Bytes),
          authenticate env.clock entries request = (entries', some user) →
          handle env entries request body = (entries', serveFile env user request name body)) ∧
    (∀ reason, readRequest (requestLine method (fileTarget text query) version) input =
        .error reason →
      reason ∈ ["connection closed inside the headers", "too many headers",
        "bad content-length"]) := by
  simp only [readRequest, split_requestLine h hquery hmethod hversion, cutAt_fileTarget h,
    urlDecode_fileTarget h]
  cases hheaders : readHeaders kMaxHeaders input ∅ with
  | error reason =>
    refine ⟨fun request body hok => (nomatch hok), fun reason' herror => ?_⟩
    obtain rfl := Except.error.inj herror
    rcases readHeaders_error hheaders with hreason | hreason
    · simp [hreason]
    · simp [hreason]
  | ok r =>
    obtain ⟨headers, rest⟩ := r
    simp only
    split_ifs with hlength
    · refine ⟨fun request body hok => ?_, fun reason herror => (nomatch herror)⟩
      obtain ⟨rfl, rfl⟩ := Prod.mk.inj (Except.ok.inj hok)
      exact ⟨rfl, rfl, rfl, fun env entries entries' user => handle_files rest rfl⟩
    · cases parseSize ((HttpRequest.mk method (kFilesPrefix ++ name) (query.getD []) headers
          0).header (ascii "content-length")) Config.kMaxTransferSize with
      | none =>
        refine ⟨fun request body hok => (nomatch hok), fun reason herror => ?_⟩
        simp [← Except.error.inj herror]
      | some n =>
        refine ⟨fun request body hok => ?_, fun reason herror => (nomatch herror)⟩
        obtain ⟨rfl, rfl⟩ := Prod.mk.inj (Except.ok.inj hok)
        exact ⟨rfl, rfl, rfl, fun env entries entries' user => handle_files rest rfl⟩

def oddName : Bytes := ascii "%2F+?/ " ++ [255]

def oddText : Bytes := ascii "%252F%2b%3f%2F%20%fF"

theorem oddText_encoded : Encoded oddName oddText := by
  refine .escaped (by decide) (by decide) (.plain (by decide) (.plain (by decide) ?_))
  refine .escaped (by decide) (by decide) (.escaped (by decide) (by decide) ?_)
  refine .escaped (by decide) (by decide) (.escaped (by decide) (by decide) ?_)
  exact .escaped (by decide) (by decide) .nil

theorem names_survive_odd :
    ∃ request body, readRequest (requestLine (ascii "PUT") (fileTarget oddText (some (ascii "tag=?")))
        (ascii "HTTP/1.1")) [13, 10] = .ok (request, body) ∧
      request.path = kFilesPrefix ++ oddName ∧ request.query = ascii "tag=?" := by
  have hquery : ∀ q ∈ some (ascii "tag=?"), 32 ∉ q := by
    rintro q hq
    obtain rfl := Option.some.inj hq
    decide
  have hall := (names_survive oddText_encoded (some (ascii "tag=?")) hquery
    (show IsWord (ascii "PUT") by decide) (show IsWord (ascii "HTTP/1.1") by decide) [13, 10]).1
  obtain ⟨request, body, hok⟩ : ∃ request body, readRequest (requestLine (ascii "PUT")
      (fileTarget oddText (some (ascii "tag=?"))) (ascii "HTTP/1.1")) [13, 10] =
        .ok (request, body) := ⟨_, _, rfl⟩
  obtain ⟨-, hpath, hq, -⟩ := hall request body hok
  exact ⟨request, body, hok, hpath, hq⟩

end Urls

end PersonalCloud
