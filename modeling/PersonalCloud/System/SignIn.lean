import PersonalCloud.System.Browsing
import PersonalCloud.System.Credentials

/-! The session of a page from its sign-in on: what the page is told, and how long the server takes
its token for the account. -/
namespace PersonalCloud

open Proto Channel Store Http UserStore Credentials

namespace Page

/-- The message a browser sends when the form is filled in. -/
structure SendsSignIn (user password : Bytes) (m : Message) : Prop extends IsRequest m where
  line : m.first = Urls.requestLine (ascii "POST") (ascii "/api/login") (ascii "HTTP/1.1")
  body : m.body = loginBody user password
  announces : Announces m
  size : m.body.length ≤ Config.kMaxTransferSize.toNat

/-- What the page keeps of a response, its token and its account, or the text it shows. -/
def signedInBy (r : Reply) : Option (Except Bytes (Bytes × Bytes)) :=
  r.json.bind fun data =>
    if r.ok then
      match data.member (ascii "token"), data.member (ascii "user") with
      | some (.string token), some (.string user) => some (.ok (token, user))
      | _, _ => none
    else some (.error (errorOf (some data) (ascii "sign-in failed")))

def signIn (input : Bytes) : Option (Except Bytes (Bytes × Bytes) × Bytes) :=
  (fetchReply (ascii "POST") input).bind fun r => (signedInBy r.1).map fun kept => (kept, r.2)

end Page

namespace WebUi

/-- What a sign-in comes to. Name and password are what is left of them behind the two encodings. -/
def verdict (env : WebEnv) (user password : Bytes) : Except (ℕ × String) (Bytes × Bytes) :=
  if Config.kMaxLineLen < (loginBody user password).length then .error (400, "request too large")
  else if env.verify (asLetters user) (asLetters password) = false then
    .error (401, "wrong account or password")
  else if isValidUsername (asLetters user) = false ∨ env.ensures = false then
    .error (500, "cannot prepare storage")
  else .ok (env.fresh, asLetters user)

theorem asLetters_length_le (text : Bytes) : (asLetters text).length ≤ (jsonString text).length := by
  have hbyte (c : UInt8) : (readBack jsonStringByte c).length ≤ (jsonStringByte c).length := by
    unfold readBack
    split
    · next d more hcode =>
      rw [hcode]
      simp
    · exact le_rfl
  rw [← heard_jsonString]
  induction text with
  | nil => exact le_rfl
  | cons c text ih =>
    simp only [heard, jsonString, List.flatMap_cons, List.length_append] at ih ⊢
    exact Nat.add_le_add (hbyte c) ih

theorem jsonField_loginBody {user password : Bytes}
    (h : (loginBody user password).length ≤ Config.kMaxLineLen) :
    jsonField (loginBody user password) (ascii "user") = some (asLetters user) ∧
      jsonField (loginBody user password) (ascii "password") = some (asLetters password) := by
  have hlength : (jsonString user).length + (jsonString password).length ≤ Config.kMaxLineLen := by
    rw [loginBody, jsonObject_pair] at h
    simp only [List.length_cons, List.length_append] at h
    omega
  have huser := asLetters_length_le user
  have hpassword := asLetters_length_le password
  obtain ⟨hread, hread'⟩ := jsonField_pair jsonStringByte_escapes
    (show IsMemberName kUserField by decide) (show IsMemberName kPasswordField by decide)
    (by decide) user password
  rw [heard_jsonString, if_neg (by omega)] at hread hread'
  exact ⟨hread, hread'⟩

theorem serveLogin_verdict (env : WebEnv) (entries : BrowserSessions) {request : HttpRequest}
    {user password : Bytes} (hsize : request.contentLength.toNat = (loginBody user password).length)
    (rest : Bytes) :
    (serveLogin env entries request (loginBody user password ++ rest)).2.response =
      some (match verdict env user password with
        | .error (status, text) => (status, .error text)
        | .ok (token, user) => (200, .session token user)) := by
  unfold verdict
  by_cases hlong : Config.kMaxLineLen < (loginBody user password).length
  · simp [serveLogin, hsize, hlong, respond]
  · obtain ⟨huser, hpassword⟩ := jsonField_loginBody (not_lt.mp hlong)
    have hwhole : ¬ (loginBody user password ++ rest).length < (loginBody user password).length := by
      simp
    simp only [serveLogin, hsize, if_neg hlong, if_neg hwhole, List.take_left, huser, hpassword]
    split_ifs
    · rfl
    · rfl
    · rfl

end WebUi

namespace Page

open WebUi

theorem isAscii_of_isValidUsername {user : Bytes} (h : isValidUsername user = true) :
    Utf8.IsAscii user := by
  simp only [isValidUsername, Bool.and_eq_true, List.all_eq_true, Bool.or_eq_true,
    decide_eq_true_eq, beq_iff_eq] at h
  intro c hc
  rcases h.2 c hc with ((hletter | hdigit) | rfl) | rfl
  · exact UInt8.lt_of_le_of_lt hletter.2 (by decide)
  · exact UInt8.lt_of_le_of_lt hdigit.2 (by decide)
  · decide
  · decide

theorem decode_jsonSession {token user : Bytes} (htoken : Utf8.IsAscii token)
    (huser : Utf8.IsAscii user) :
    Utf8.decode (jsonSession token user) = jsonSession token user := by
  have hparts : jsonSession token user =
      ascii "\x7b\"token\":\"" ++ (jsonEscape token ++ (ascii "\",\"user\":\"" ++
        (jsonEscape user ++ (ascii "\"\x7d" ++ [])))) := by
    simp [jsonSession]
  rw [decode_eq rfl, hparts, Utf8.decodeWithoutBom_ascii_append (by decide),
    Utf8.decodeWithoutBom_append_ascii (by decide) (by decide),
    Utf8.decodeWithoutBom_append_ascii (by decide) (by decide), decode_jsonEscape,
    decode_jsonEscape, Utf8.decodeWithoutBom_of_ascii htoken, Utf8.decodeWithoutBom_of_ascii huser]
  rfl

theorem signIn_session {token user : Bytes} (htoken : Utf8.IsAscii token)
    (huser : Utf8.IsAscii user) (webPage more : Bytes) :
    signIn ((WebBody.session token user).send webPage 200 ++ more) =
      some (.ok (token, user), more) := by
  have hmethod : ascii "POST" ≠ ascii "HEAD" := by decide
  have hparse : Json.parse (Utf8.decode ((WebBody.session token user).bytes webPage)) =
      some (sessionValue token user) := by
    rw [WebBody.bytes, decode_jsonSession htoken huser]
    exact (reads_jsonSession token user).parse
  have hread : signedInBy ⟨200, (WebBody.session token user).bytes webPage⟩ =
      some (.ok (token, user)) := by
    rw [signedInBy, Reply.json, hparse]
    rfl
  rw [signIn, fetchReply_send (by decide), if_neg hmethod, Option.bind_some, hread]
  rfl

theorem signIn_error {status : ℕ} (hstatus : status ∈ kStatuses) (hbad : 299 < status)
    {text : String} (htext : ascii text ≠ []) (hascii : Utf8.IsAscii (ascii text))
    (webPage more : Bytes) :
    signIn ((WebBody.error text).send webPage status ++ more) =
      some (.error (ascii text), more) := by
  have hmethod : ascii "POST" ≠ ascii "HEAD" := by decide
  have hread : signedInBy ⟨status, (WebBody.error text).bytes webPage⟩ =
      some (.error (ascii text)) := by
    have hparse : Json.parse (Utf8.decode ((WebBody.error text).bytes webPage)) =
        some (errorValue (ascii text)) := by
      rw [WebBody.bytes, decode_jsonError hascii]
      exact (reads_jsonError (ascii text)).parse
    have hok : (Reply.mk status ((WebBody.error text).bytes webPage)).ok = false := by
      simp [Reply.ok, hbad]
    rw [signedInBy, Reply.json, hparse, Option.bind_some, hok, errorOf_errorValue _ htext]
    rfl
  rw [signIn, fetchReply_send hstatus, if_neg hmethod, Option.bind_some, hread]
  rfl

theorem signIn_verdict {env : WebEnv} (hfresh : Utf8.IsAscii env.fresh) {user password : Bytes}
    {r : WebHandled} (hr : r.response = some (match verdict env user password with
      | .error (status, text) => (status, .error text)
      | .ok (token, user) => (200, .session token user))) {webPage text : Bytes}
    (htext : r.reply webPage = some text) (more : Bytes) :
    signIn (text ++ more) =
      some ((verdict env user password).mapError fun e => ascii e.2, more) := by
  unfold verdict at hr ⊢
  split_ifs at hr ⊢ with _ _ hstore
  · rw [reply_of_response hr htext]
    exact signIn_error (by decide) (by decide) (by decide) (by decide) _ _
  · rw [reply_of_response hr htext]
    exact signIn_error (by decide) (by decide) (by decide) (by decide) _ _
  · rw [reply_of_response hr htext]
    exact signIn_error (by decide) (by decide) (by decide) (by decide) _ _
  · rw [not_or, Bool.not_eq_false] at hstore
    rw [reply_of_response hr htext]
    exact signIn_session hfresh (isAscii_of_isValidUsername hstore.1) _ _

theorem requestOf_signIn {user password : Bytes} {m : Message} (hs : SendsSignIn user password m) :
    requestOf (ascii "POST") (ascii "/api/login") m =
      ⟨ascii "POST", ascii "/api/login", [], headersOf m.fields ∅,
        UInt64.ofNat (loginBody user password).length⟩ := by
  rw [requestOf, hs.body]
  rfl

end Page

namespace Service

open Machine WebUi

variable {s : Service} {before after : List Event} {login : Event} {token user : Bytes} {time : ℕ}

theorem live_after_login (h : FreshTokens s (before ++ login :: after))
    (hlogin : returnedBy (run step s before) login = some (token, user, time)) (user' : Bytes)
    (time' : ℕ) : Live s (before ++ login :: after) token user' time' ↔
      (user = user' ∧ time = time') ∧ ∀ e ∈ after, destroyedBy e ≠ some token := by
  induction after using List.reverseRecOn with
  | nil =>
    rw [live_of_login h hlogin]
    simp
  | append_singleton after e ih =>
    have hsplit : before ++ login :: (after ++ [e]) = before ++ login :: after ++ [e] := by simp
    rw [hsplit] at h ⊢
    have hother : ∀ user time,
        returnedBy (run step s (before ++ login :: after)) e ≠ some (token, user, time) := by
      intro user'' time'' he
      have hd := h.distinct
      rw [returned_append, returned, returned, he, List.map_append] at hd
      refine (List.nodup_append.mp hd).2.2 token ?_ token (by simp) rfl
      rw [returned_append, returned, hlogin]
      simp
    rw [live_append, or_iff_right (hother user' time'), ih h.earlier]
    simp only [List.mem_append, List.mem_singleton, or_imp, forall_and, forall_eq, and_assoc]

/-- The server takes the token for the account exactly until the session has lasted its time or a
logout with the token. -/
theorem signedIn_iff (h0 : s.entries = fun _ => none) (h : FreshTokens s (before ++ login :: after))
    (hlogin : returnedBy (run step s before) login = some (token, user, time)) (elapsed : ℕ)
    (user' : Bytes) :
    (run step s (before ++ login :: after)).signedIn elapsed token = some user' ↔
      user = user' ∧
      (run step s (before ++ login :: after)).now + elapsed <
        time + BrowserSessions.kSessionLength ∧
      ∀ e ∈ after, destroyedBy e ≠ some token := by
  have hlength : token.length = 64 := by
    refine h.delivered (token, user, time) ?_
    rw [returned_append, returned, hlogin]
    simp
  have hne : token.isEmpty = false := by
    cases token with
    | nil => contradiction
    | cons c cs => rfl
  generalize hrun : run step s (before ++ login :: after) = t
  have hlookup : t.signedIn elapsed token =
      (t.entries.expireLocked (t.now + elapsed) token).map BrowserEntry.user := by
    simp [signedIn, BrowserSessions.lookup, hne]
  rw [hlookup, Option.map_eq_some_iff]
  constructor
  · rintro ⟨⟨user'', expires⟩, hentry, rfl⟩
    rw [expireLocked_eq_some] at hentry
    obtain ⟨hentry, hexpires⟩ := hentry
    have hlate : (run step s (before ++ login :: after)).now < expires := by
      rw [hrun]
      exact lt_of_le_of_lt (Nat.le_add_right _ _) hexpires
    rw [← hrun, entry_iff_live h0 h hlate] at hentry
    obtain ⟨time', hlive, rfl⟩ := hentry
    rw [live_after_login h hlogin] at hlive
    obtain ⟨⟨rfl, rfl⟩, hafter⟩ := hlive
    exact ⟨rfl, hexpires, hafter⟩
  · rintro ⟨rfl, hexpires, hafter⟩
    have hlate : (run step s (before ++ login :: after)).now <
        time + BrowserSessions.kSessionLength := by
      rw [hrun]
      exact lt_of_le_of_lt (Nat.le_add_right _ _) hexpires
    refine ⟨⟨user, time + BrowserSessions.kSessionLength⟩, ?_, rfl⟩
    rw [expireLocked_eq_some, ← hrun, entry_iff_live h0 h hlate]
    exact ⟨⟨time, (live_after_login h hlogin _ _).mpr ⟨⟨rfl, rfl⟩, hafter⟩, rfl⟩, hrun ▸ hexpires⟩

section SignIn

variable {env : SessionEnv} {elapsed more : ℕ} {drawn password behind : Bytes} {m : Message}

theorem answer_signIn (s : Service) (env : SessionEnv) (elapsed more : ℕ) (drawn behind : Bytes)
    (hs : Page.SendsSignIn user password m) :
    ∃ line input r, Page.eventOf env elapsed more drawn (m.text ++ behind) =
        .request env elapsed more drawn line input ∧
      s.answer (.request env elapsed more drawn line input) = .request r ∧
      (step s (.request env elapsed more drawn line input)).now = s.now + elapsed + more ∧
      r.response = some (match verdict (s.web env elapsed more drawn) user password with
        | .error (status, text) => (status, .error text)
        | .ok (token, user) => (200, .session token user)) := by
  have hsplit : split m.first = [ascii "POST", ascii "/api/login", ascii "HTTP/1.1"] := by
    rw [hs.line]
    rfl
  obtain ⟨input, hline, hread⟩ :=
    readRequest_message hs.toIsRequest hs.announces hs.size hsplit behind
  have hsize : (requestOf (ascii "POST") (ascii "/api/login") m).contentLength.toNat =
      (loginBody user password).length := by
    have hle := hs.size
    rw [hs.body] at hle
    rw [Page.requestOf_signIn hs]
    exact UInt64.toNat_ofNat_of_lt' (hle.trans_lt Config.kMaxTransferSize.toNat_lt)
  have hmethod : ascii "POST" ≠ ascii "GET" := by decide
  have hhandle (input : Bytes) : (handle (s.web env elapsed more drawn) s.entries
      (requestOf (ascii "POST") (ascii "/api/login") m) input).2 =
        (serveLogin (s.web env elapsed more drawn) s.entries
          (requestOf (ascii "POST") (ascii "/api/login") m) input).2 := by
    have hrequest := Page.requestOf_signIn hs
    rw [handle_snd, if_neg (by rw [hrequest]; exact fun h => hmethod h.1),
      if_pos (by rw [hrequest]; exact ⟨rfl, rfl⟩)]
  refine ⟨m.first, input, _, ?_, ?_, ?_, serveLogin_verdict _ s.entries hsize behind⟩
  · rw [Page.eventOf, hline]
  · simp only [answer, hread, hhandle, hs.body]
  · simp only [step, hread]

/-- A page signs in at any time in a run: it is told the verdict on what it sent, and if it gets a
token, the server takes it for the account until the session has lasted its time or there is a
logout with the token, and for nobody afterwards. -/
theorem session_of_signIn (webPage : Bytes) (h0 : s.entries = fun _ => none)
    (hs : Page.SendsSignIn user password m) (h : FreshTokens s
      (before ++ Page.eventOf env elapsed more drawn (m.text ++ behind) :: after)) :
    let found := run step s before
    let login := Page.eventOf env elapsed more drawn (m.text ++ behind)
    let last := run step s (before ++ login :: after)
    let told := verdict (found.web env elapsed more drawn) user password
    (∃ text, replyBytes webPage found login = some text ∧ ∀ rest, Page.signIn (text ++ rest) =
      some (told.mapError fun e => ascii e.2, rest)) ∧
    ∀ token account, told = .ok (token, account) → ∀ later user',
      last.signedIn later token = some user' ↔ account = user' ∧
        last.now + later < (step found login).now + BrowserSessions.kSessionLength ∧
        ∀ e ∈ after, destroyedBy e ≠ some token := by
  intro found login last told
  obtain ⟨line, input, r, hevent, hanswer, hnow, hresponse⟩ :=
    answer_signIn found env elapsed more drawn behind hs
  have hlogin : login = .request env elapsed more drawn line input := hevent
  constructor
  · have hwhole : r.IsWhole := by
      intro status b hcontent
      rw [hresponse] at hcontent
      split at hcontent <;> simp at hcontent
    obtain ⟨text, htext⟩ := hwhole.reply webPage
    refine ⟨text, ?_, fun rest => Page.signIn_verdict (WebUi.isAscii_toHex drawn) hresponse htext rest⟩
    rw [hlogin, replyBytes, hanswer]
    exact htext
  · intro token account htold later user'
    have hreturned : returnedBy found login = some (token, account, (step found login).now) := by
      have hsession : r.response = some (200, .session token account) := by
        rw [hresponse]
        simp only [show verdict (found.web env elapsed more drawn) user password =
          .ok (token, account) from htold]
      rw [hlogin, hnow, returnedBy, hanswer]
      obtain ⟨response, go, steps, rest⟩ := r
      obtain rfl : response = _ := hsession
      rfl
    exact signedIn_iff h0 h hreturned later user'

end SignIn

def sampleSignIn : Message where
  first := Urls.requestLine (ascii "POST") (ascii "/api/login") (ascii "HTTP/1.1")
  fields := [(ascii "Content-Length", ascii "36")]
  body := loginBody (ascii "ann") (ascii "password")

theorem sampleSignIn_sends : Page.SendsSignIn (ascii "ann") (ascii "password") sampleSignIn where
  first := by decide
  firstFits := by decide
  fields := by decide
  fits := by decide
  count := by decide
  line := rfl
  body := rfl
  announces := .inl (by decide)
  size := by decide

def trustingEnv : SessionEnv := { calmEnv with verify := fun _ _ => true }

def sampleDrawn : Bytes := List.replicate 32 7

theorem session_of_signIn_sample :
    (run step (start ∅ 0) [Page.eventOf trustingEnv 0 0 sampleDrawn sampleSignIn.text]).signedIn
      (BrowserSessions.kSessionLength - 1) (toHex sampleDrawn) = some (ascii "ann") := by
  have hreturned : returned (start ∅ 0)
      [Page.eventOf trustingEnv 0 0 sampleDrawn (sampleSignIn.text ++ [])] =
        [(toHex sampleDrawn, ascii "ann", 0)] := by decide +kernel
  have hfresh : FreshTokens (start ∅ 0)
      ([] ++ Page.eventOf trustingEnv 0 0 sampleDrawn (sampleSignIn.text ++ []) :: []) := by
    constructor
    · rw [List.nil_append, hreturned]
      simp
    · rw [List.nil_append, hreturned]
      decide
  have h := (session_of_signIn [] rfl sampleSignIn_sends hfresh).2 (toHex sampleDrawn) (ascii "ann")
    (by decide +kernel) (BrowserSessions.kSessionLength - 1) (ascii "ann")
  rw [List.append_nil] at h
  exact h.mpr ⟨rfl, by decide +kernel, by simp⟩

end Service

end PersonalCloud
